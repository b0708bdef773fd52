import Xv6.Proofs.KernelRuns

/-! What follows for inodes in every run of the kernel: who touches them, where `iput` is called, and
that no reference is lost. `sys_chmod` breaks all three: it calls `namei` before `begin_op`, writes the
inode when it has let go of the lock, and never gives back the reference. -/

namespace Xv6

open Kernel

variable {n : ℕ} {k : Kernel Medium n} {acts : List (Sched (Fin n) (Call n))}
  {s : Conc (Fin n) (Kernel Medium n) Stop}

/-! ### A kernel that has just started -/

def rootDinode : Dinode := ⟨T_DIR, 0, 0, 1, 493, 512, .ofFn fun i => if i.val = 0 then 59 else 0⟩

def bootDisk : Medium where
  sb := ⟨1000, 941, 200, 30, 2, 32, 58⟩
  blocks b := if b = 32 then Buffer.zero.patch (inodeOff ROOTINO) rootDinode.encode
    else if b = 59 then
      Buffer.zero.patch 0 (Dirent.encode ⟨ROOTINO, dot⟩ ++ Dirent.encode ⟨ROOTINO, dotdot⟩)
    else Buffer.zero

def startKernel (disk : Medium) (devsw : Fin NDEV → Devsw) : Kernel Medium 1 where
  data := disk
  icache ip := if ip.val = 0 then ⟨ROOTINO, 1, none, false, .zero⟩ else ⟨0, 0, none, false, .zero⟩
  log := ⟨2, 30, 0, false, []⟩
  ftable _ := ⟨.none, 0, false, false, ⟨0, ninode_pos⟩, 0⟩
  devsw := devsw
  proc _ := ⟨fun _ => none, some ⟨0, ninode_pos⟩, true⟩
  call _ := none
  depth _ := 0
  iref _ ip := if ip.val = 0 then 1 else 0
  fref _ _ := 0
  events := []

theorem startKernel_start (disk : Medium) (devsw : Fin NDEV → Devsw) :
    Start (startKernel disk devsw) := by
  set k := startKernel disk devsw
  have hopened : ∀ ip, opened k.ftable ip = 0 := fun ip => by
    unfold opened
    rw [Finset.card_eq_zero, Finset.filter_eq_empty_iff]
    rintro f - ⟨htype, -⟩
    cases htype
  have hfds : ∀ p f, (k.proc p).fds f = 0 := fun p f => by
    unfold Proc.fds
    rw [Finset.card_eq_zero, Finset.filter_eq_empty_iff]
    rintro fd - h
    cases h
  have hcwd : ∀ p (ip : Ptr), (k.proc p).cwd = some ip ↔ ip.val = 0 := fun p ip => by
    change some _ = some ip ↔ _
    rw [Option.some.injEq, eq_comm, Fin.ext_iff]
  have hiref : ∀ p (ip : Ptr),
      k.iref p ip = if (k.proc p).cwd = some ip then 1 else 0 := fun p ip =>
    if_congr (hcwd p ip).symm rfl rfl
  constructor
  case call => exact fun _ => rfl
  case lock =>
    intro ip
    change (if ip.val = 0 then _ else _ : Inode).lock = none
    split_ifs <;> rfl
  case depth => exact fun _ => rfl
  case outstanding => rfl
  case committing => rfl
  case ref =>
    intro ip
    rw [hopened, cwds_eq_sum, Fin.sum_univ_one, ← hiref]
    change (if ip.val = 0 then _ else _ : Inode).ref = _ + if ip.val = 0 then _ else _
    split_ifs <;> rfl
  case file_ref =>
    intro f
    simp only [hfds]
    rfl
  case closed => exact fun f => ⟨fun _ => rfl, fun _ => rfl⟩
  case iref => exact hiref
  case fref =>
    intro p f
    rw [hfds]
    rfl
  case events => rfl

def bootKernel : Kernel Medium 1 := startKernel bootDisk fun _ => ⟨none, none⟩

theorem bootKernel_start : Start bootKernel := startKernel_start _ _

def callRun (c : Call 1) (m : ℕ) : List (Sched (Fin 1) (Call 1)) := .call 0 c :: List.replicate m (.resume 0)

theorem chdirRun_noChmod (m : ℕ) : ∀ a ∈ callRun (.sysChdir (some [slash])) m,
    ∀ p args, a ≠ .call p (.sysChmod args) := by
  intro a ha p args he
  obtain rfl | hmem := List.mem_cons.mp ha
  · cases he
  · rw [List.eq_of_mem_replicate hmem] at he
    cases he

/-- `chdir("/")` takes the lock of the root directory, lets go of it and puts the reference to the old
current directory. -/
theorem chdirRun_exists : ∃ s, Runs blockStorage
      (fun s a => s.shared.NoHoles ∧ ∀ p args, a ≠ .call p (.sysChmod args)) bootKernel
      (callRun (.sysChdir (some [slash])) 7) s ∧ s.halted = none ∧ s.Quiet ∧
    ∃ e ∈ s.shared.events, e.access = .iput := by
  obtain ⟨s, hrun, hs⟩ : ∃ s, Runs blockStorage (fun s _ => s.shared.NoHoles) bootKernel
      (callRun (.sysChdir (some [slash])) 7) s ∧ (s.halted.isNone && (s.thread 0).isNone &&
        s.shared.events.any (fun e => e.access = .iput)) = true :=
    Trans.Run.of_exec_any (c := fun s _ => decide s.shared.NoHoles)
      (fun _ _ h => of_decide_eq_true h) (by decide +kernel)
  simp only [Bool.and_eq_true, Option.isNone_iff_eq_none] at hs
  obtain ⟨⟨hh, ht⟩, hany⟩ := hs
  obtain ⟨e, he, htest⟩ := List.any_eq_true.mp hany
  exact ⟨s, hrun.and_mem (chdirRun_noChmod 7), hh, fun p => Subsingleton.elim p 0 ▸ ht, e, he,
    of_decide_eq_true htest⟩

/-- `chmod("/", 0777)` ends with an inode written without its lock and a reference too many. -/
theorem chmodRun_exists : ∃ s, Runs blockStorage Trans.Any bootKernel
      (callRun (.sysChmod (some ([slash], 511))) 5) s ∧ s.halted = none ∧ s.Quiet ∧
    (∃ e ∈ s.shared.events, e.access = .iupdate ∧ e.holder ≠ some e.proc.val) ∧
    (s.shared.icache ⟨0, by decide⟩).ref ≠
      opened s.shared.ftable ⟨0, by decide⟩ + s.shared.cwds ⟨0, by decide⟩ := by
  obtain ⟨s, hrun, hs⟩ : ∃ s, Runs blockStorage Trans.Any bootKernel
      (callRun (.sysChmod (some ([slash], 511))) 5) s ∧ (s.halted.isNone && (s.thread 0).isNone &&
        s.shared.events.any (fun e => e.access = .iupdate ∧ e.holder ≠ some e.proc.val) &&
        decide ((s.shared.icache ⟨0, by decide⟩).ref ≠
          opened s.shared.ftable ⟨0, by decide⟩ + s.shared.cwds ⟨0, by decide⟩)) = true :=
    Trans.Run.of_exec_any (c := fun _ _ => true) (fun _ _ _ => trivial) (by decide +kernel)
  simp only [Bool.and_eq_true, Option.isNone_iff_eq_none] at hs
  obtain ⟨⟨⟨hh, ht⟩, hany⟩, href⟩ := hs
  obtain ⟨e, he, htest⟩ := List.any_eq_true.mp hany
  exact ⟨s, hrun, hh, fun p => Subsingleton.elim p 0 ▸ ht, ⟨e, he, of_decide_eq_true htest⟩,
    of_decide_eq_true href⟩

/-! ### Locks -/

/-- Everything but `iput` that touches an inode does so under its lock, when no call of `sys_chmod`
sets a mode. -/
theorem inode_locks (h : Start k) (hrun : Runs blockStorage
      (fun _ a => ∀ p path mode, a = .call p (.sysChmod (some (path, mode))) → mode > 511) k acts s) :
    ∀ e ∈ s.shared.events, e.access ≠ .iput → e.holder = some e.proc.val := by
  have hgood := h.run (r := ⟨False, False, True, False, fun _ => True⟩) hrun blockStorage_tame
    False.elim (fun _ _ _ => trivial) fun t p c hC => ?_
  · exact (Start.run_ok hgood).locked trivial
  · cases c with
    | sysChmod args =>
      intro path mode hargs
      exact ⟨False.elim, fun _ => hC p path mode (by rw [hargs]), id⟩
    | _ => trivial

def consoleDisk : Medium where
  sb := bootDisk.sb
  blocks b := if b = 32 then
      (Buffer.zero.patch (inodeOff ROOTINO) { rootDinode with size := 48 }.encode).patch (inodeOff 2)
        { Dinode.zero with type := T_DEV, major := 1, minor := 1, nlink := 1, mode := 493 }.encode
    else if b = 59 then Buffer.zero.patch 0 (Dirent.encode ⟨ROOTINO, dot⟩ ++
      Dirent.encode ⟨ROOTINO, dotdot⟩ ++ Dirent.encode ⟨2, [99]⟩)
    else Buffer.zero

def consoleKernel : Kernel Medium 1 := startKernel consoleDisk fun d =>
  if d.val = 1 then ⟨some fun _ => (0, []), some fun src => src.length⟩ else ⟨none, none⟩

/-- The console is opened and written to, which unlocks and locks it, and then unlinked. -/
def consoleRun : List (Sched (Fin 1) (Call 1)) :=
  callRun (.sysOpen (some ([99], O_RDWR))) 12 ++
    callRun (.sysWrite (some 0) (some [104, 105]) 0) 7 ++ callRun (.sysUnlink (some [99])) 19

theorem inode_locks_console : ∃ s, Runs blockStorage
      (fun _ a => ∀ p path mode, a = .call p (.sysChmod (some (path, mode))) → mode > 511)
      consoleKernel consoleRun s ∧ s.halted = none ∧ s.Quiet ∧
    (∀ a ∈ [Access.readi, .writei, .iupdate, .assign], ∃ e ∈ s.shared.events, e.access = a) ∧
    ∀ e ∈ s.shared.events, e.access ≠ .iput → e.holder = some e.proc.val := by
  obtain ⟨s, hrun, hs⟩ : ∃ s, Runs blockStorage Trans.Any consoleKernel consoleRun s ∧
      (s.halted.isNone && (s.thread 0).isNone && [Access.readi, .writei, .iupdate, .assign].all
        fun a => s.shared.events.any fun e => e.access = a) = true :=
    Trans.Run.of_exec_any (c := fun _ _ => true) (fun _ _ _ => trivial) (by decide +kernel)
  simp only [Bool.and_eq_true, Option.isNone_iff_eq_none, List.all_eq_true, List.any_eq_true,
    decide_eq_true_eq] at hs
  obtain ⟨⟨hh, ht⟩, hall⟩ := hs
  have hcalls : ∀ a ∈ consoleRun, ∀ p path mode,
      a = .call p (.sysChmod (some (path, mode))) → mode > 511 := by
    intro a ha p path mode he
    simp [consoleRun, callRun, he] at ha
  have hrun' := (hrun.and_mem hcalls).mono fun _ _ hC => hC.2
  exact ⟨s, hrun', hh, fun p => Subsingleton.elim p 0 ▸ ht, hall,
    inode_locks (startKernel_start _ _) hrun'⟩

/-- `chmod("/", 0777)` of the first process calls `iupdate` without the lock. -/
theorem chmod_unlocked : ∃ s, Runs blockStorage Trans.Any bootKernel
      (callRun (.sysChmod (some ([slash], 511))) 5) s ∧
    ∃ e ∈ s.shared.events, e.access = .iupdate ∧ e.holder ≠ some e.proc.val := by
  obtain ⟨s, hrun, -, -, hevent, -⟩ := chmodRun_exists
  exact ⟨s, hrun, hevent⟩

/-! ### Transactions -/

/-- `iput` is called inside a transaction, when `sys_chmod` is not called with a path that has an
element; and `log_write` too, as long as the locked inodes have their blocks. -/
theorem iput_in_transaction (h : Start k) (hrun : Runs blockStorage
      (fun _ a => ∀ p path mode, a = .call p (.sysChmod (some (path, mode))) → skipelem path = none)
      k acts s) :
    (∀ e ∈ s.shared.events, e.access = .iput → e.inOp = true) ∧
      (Runs blockStorage (fun s _ => s.shared.NoHoles) k acts s →
        s.halted ≠ some (.panic (.log .outsideTrans))) := by
  have admitted : ∀ (r : Rules Medium n), ¬r.locked → ¬r.exact → ∀ p (c : Call n),
      (∀ q path mode, (.call p c : Sched (Fin n) (Call n)) =
        .call q (.sysChmod (some (path, mode))) → skipelem path = none) → c.Admitted r := by
    intro r hl he p c hC
    cases c with
    | sysChmod args =>
      intro path mode hargs
      exact ⟨fun _ => hC p path mode (by rw [hargs]), fun hr => absurd hr hl, he⟩
    | _ => trivial
  constructor
  · have hgood := h.run (r := ⟨True, False, False, False, fun _ => True⟩) hrun
      blockStorage_tame (fun _ => False.elim) (fun _ _ _ => trivial)
      fun _ p c hC => admitted _ id id p c hC
    exact (Start.run_ok hgood).inOp trivial
  · intro hholes hpanic
    have hgood := h.run (r := ⟨True, True, False, False, NoHoles⟩) (hrun.and hholes)
      blockStorage_tame (fun _ => blockStorage_backed fun _ hk => hk) (fun _ _ hC => hC.2)
      fun _ p c hC => admitted _ id id p c hC.1
    exact (hgood.halt _ hpanic).2 trivial trivial rfl

theorem iput_in_transaction_chdir : ∃ s, Runs blockStorage
      (fun _ a => ∀ p path mode, a = .call p (.sysChmod (some (path, mode))) → skipelem path = none)
      bootKernel (callRun (.sysChdir (some [slash])) 7) s ∧
    (∃ e ∈ s.shared.events, e.access = .iput) ∧
    (∀ e ∈ s.shared.events, e.access = .iput → e.inOp = true) ∧
    s.halted ≠ some (.panic (.log .outsideTrans)) := by
  obtain ⟨s, hrun, -, -, hiput⟩ := chdirRun_exists
  have hrun' := hrun.mono (D := fun _ a => ∀ p path mode,
    a = .call p (.sysChmod (some (path, mode))) → skipelem path = none) fun _ a hC p path mode ha =>
      absurd ha (hC.2 p _)
  obtain ⟨hin, hlog⟩ := iput_in_transaction bootKernel_start hrun'
  exact ⟨s, hrun', hiput, hin, hlog (hrun.mono fun _ _ hC => hC.1)⟩

/-- `chmod(".", 0777)` calls `iput` on the directory it starts from before its `begin_op`. -/
theorem chmod_outside : ∃ s, Runs blockStorage Trans.Any bootKernel
      (callRun (.sysChmod (some (dot, 511))) 4) s ∧
    ∃ e ∈ s.shared.events, e.access = .iput ∧ e.inOp = false := by
  obtain ⟨s, hrun, hs⟩ : ∃ s, Runs blockStorage Trans.Any bootKernel
      (callRun (.sysChmod (some (dot, 511))) 4) s ∧
        s.shared.events.any (fun e => e.access = .iput ∧ e.inOp = false) = true :=
    Trans.Run.of_exec_any (c := fun _ _ => true) (fun _ _ _ => trivial) (by decide +kernel)
  obtain ⟨e, he, htest⟩ := List.any_eq_true.mp hs
  exact ⟨s, hrun, e, he, of_decide_eq_true htest⟩

/-! ### References -/

/-- Between the calls, the references to an inode are those of the open files on it and of the current
directories, when no call of `sys_chmod` gets its arguments. -/
theorem inode_refs (h : Start k) (hrun : Runs blockStorage
      (fun _ a => ∀ p args, a = .call p (.sysChmod args) → args = none) k acts s)
    (hh : s.halted = none) (hq : s.Quiet) (ip : Ptr) :
    (s.shared.icache ip).ref = opened s.shared.ftable ip + s.shared.cwds ip := by
  have hgood := h.run (r := ⟨False, False, False, True, fun _ => True⟩) hrun blockStorage_tame
    False.elim (fun _ _ _ => trivial) fun t p c hC => ?_
  · have hok := Start.run_ok hgood
    rw [hok.ref ip, cwds_eq_sum]
    congr 1
    refine Finset.sum_congr rfl fun p _ => ?_
    exact (hok.rest p (hgood.idle hh p (hq p))).iref trivial ip
  · cases c with
    | sysChmod args =>
      intro path mode hargs
      rw [hC p args rfl] at hargs
      cases hargs
    | _ => trivial

theorem inode_refs_chdir : ∃ s, Runs blockStorage
      (fun _ a => ∀ p args, a = .call p (.sysChmod args) → args = none) bootKernel
      (callRun (.sysChdir (some [slash])) 7) s ∧ s.Quiet ∧
    (s.shared.icache ⟨0, by decide⟩).ref =
      opened s.shared.ftable ⟨0, by decide⟩ + s.shared.cwds ⟨0, by decide⟩ := by
  obtain ⟨s, hrun, hh, hquiet, -⟩ := chdirRun_exists
  have hrun' := hrun.mono (D := fun _ a => ∀ p args, a = .call p (.sysChmod args) → args = none)
    fun _ a hC p args ha => absurd ha (hC.2 p args)
  exact ⟨s, hrun', hquiet, inode_refs bootKernel_start hrun' hh hquiet _⟩

/-- After `chmod("/", 0777)` the root directory has two references, of which one is the current
directory of the process. -/
theorem chmod_leaks : ∃ s, Runs blockStorage Trans.Any bootKernel
      (callRun (.sysChmod (some ([slash], 511))) 5) s ∧ s.halted = none ∧ s.Quiet ∧
    (s.shared.icache ⟨0, by decide⟩).ref ≠
      opened s.shared.ftable ⟨0, by decide⟩ + s.shared.cwds ⟨0, by decide⟩ := by
  obtain ⟨s, hrun, hh, hquiet, -, href⟩ := chmodRun_exists
  exact ⟨s, hrun, hh, hquiet, href⟩

/-! ### Between the calls -/

end Xv6
