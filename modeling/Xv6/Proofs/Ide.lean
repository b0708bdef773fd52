import Xv6.Lib.LinkQueue
import Xv6.Proofs.Coherence
import Xv6.Spec.Ide

/-! What one step of the disk driver and the buffer cache does. A process that works on the cache
leaves alone the buffers that others hold, so the driver's queue and the active request depend only on
the steps of `iderw`, of `ideintr` and of the controller. -/

open Function Option

namespace Xv6

variable {P : Type} {dev blockno : ℕ} {buf : Buf P}

/-! ### The command -/

namespace Ide

theorem command_out (b : Buf P) : (command b).out = if b.dirty then some b.data else none := rfl

section

variable {b : Buf P} (h : b.blockno < FSSIZE)
include h

theorem command_sector :
    b.blockno * (BSIZE / SECTORSIZE) = b.blockno ∧ b.blockno >>> 16 = 0 ∧ b.blockno >>> 24 = 0 := by
  unfold FSSIZE at h
  refine ⟨Nat.mul_one _, ?_, ?_⟩
  · rw [Nat.shiftRight_eq_div_pow]
    omega
  · rw [Nat.shiftRight_eq_div_pow]
    omega

theorem command_drive : (command b).drive.toNat = 0xe0 + b.dev % 2 * 16 := by
  obtain ⟨hmul, -, hhigh⟩ := command_sector h
  unfold command
  dsimp only
  rw [hmul, hhigh, Nat.and_one_is_mod]
  obtain hd | hd := Nat.mod_two_eq_zero_or_one b.dev
  · rw [hd]
    rfl
  · rw [hd]
    rfl

theorem command_unit : (command b).unit = b.dev % 2 := by
  unfold IdeCommand.unit
  rw [command_drive h]
  omega

theorem command_lba : (command b).lba = b.blockno := by
  have hdrive := command_drive h
  have hand : ∀ n : ℕ, (UInt8.ofNat (n &&& 0xff)).toNat = n % 256 := by
    intro n
    rw [show (0xff : ℕ) = 2 ^ 8 - 1 from rfl, Nat.and_two_pow_sub_one_eq_mod, UInt8.toNat_ofNat']
    omega
  obtain ⟨hmul, hmid, -⟩ := command_sector h
  unfold IdeCommand.lba
  rw [hdrive]
  unfold command
  dsimp only
  rw [hmul, hand, hand, hand, hmid, Nat.shiftRight_eq_div_pow]
  unfold FSSIZE at h
  omega

end

theorem command_refcnt (b : Buf P) (n : ℕ) : command { b with refcnt := n } = command b := rfl

end Ide

/-! ### The cache -/

namespace BioOp

variable {b b' : Bio P} {p q : P} {i j : Fin NBUF} {op : BioOp P}

structure Calm (p : P) (b b' : Bio P) : Prop where
  users : ∀ q, q ≠ p → ∀ i, (q, i) ∈ b.users → (q, i) ∈ b'.users
  held : ∀ q, q ≠ p → ∀ i, (b.buf i).lock = some q →
    b'.buf i = { b.buf i with refcnt := (b'.buf i).refcnt }
  lock : ∀ q, q ≠ p → ∀ i, (b'.buf i).lock = some q → (b.buf i).lock = some q

theorem calm_setBuf (h : ∀ q, q ≠ p → (b.buf i).lock ≠ some q)
    (h' : ∀ q, q ≠ p → buf.lock ≠ some q) : Calm p b (b.setBuf i buf) where
  users := fun _ _ _ hu => hu
  held := by
    intro q hq j hj
    have hne : j ≠ i := by
      rintro rfl
      exact h q hq hj
    rw [Bio.setBuf_of_ne hne]
  lock := by
    intro q hq j hj
    by_cases hji : j = i
    · subst hji
      rw [Bio.setBuf_self] at hj
      exact absurd hj (h' q hq)
    · rwa [Bio.setBuf_of_ne hji] at hj

/-- The operations of a process that keeps to the rules: it changes and releases only what it
holds. -/
def Legit (b : Bio P) (p : P) : BioOp P → Prop
  | .bget q _ _ => q = p
  | .lock q i => q = p ∧ (p, i) ∈ b.users ∧ (b.buf i).lock = none
  | .unlock i => (b.buf i).lock = some p
  | .memmove i _ => (b.buf i).lock = some p
  | .mark i => (b.buf i).lock = some p
  | .unref q i => q = p ∧ (p, i) ∈ b.users ∧ (b.buf i).lock ≠ some p
  | .iderw _ => False

theorem obtain_cases (hw : b.Wf) (h : b.obtain p dev blockno = some (i, b')) :
    (b' = b.ref p i ∧ (b.buf i).dev = dev ∧ (b.buf i).blockno = blockno) ∨
      (b' = b.recycle p i dev blockno ∧ b.cached dev blockno = none ∧ b.Free i) := by
  unfold Bio.obtain at h
  split at h
  · next j hc =>
    obtain ⟨rfl, rfl⟩ := Prod.mk.inj (some.inj h)
    exact .inl ⟨rfl, hw.cached_some hc⟩
  · next hc =>
    obtain ⟨j, hu, hj⟩ := map_eq_some_iff.mp h
    obtain ⟨rfl, rfl⟩ := Prod.mk.inj hj
    exact .inr ⟨rfl, hc, (hw.unused_some hu).1⟩

theorem calm_refcnt {n : ℕ} (hu : ∀ q, q ≠ p → ∀ i, (q, i) ∈ b.users → (q, i) ∈ b'.users)
    (hb : b'.buf = update b.buf i { b.buf i with refcnt := n }) : Calm p b b' where
  users := hu
  held := by
    intro q _ j _
    rw [hb]
    by_cases hji : j = i
    · subst hji
      rw [update_self]
    · rw [update_of_ne hji]
  lock := by
    intro q _ j hj
    rw [hb] at hj
    by_cases hji : j = i
    · subst hji
      rwa [update_self] at hj
    · rwa [update_of_ne hji] at hj

theorem calm_ref (p : P) (i : Fin NBUF) : Calm p b (b.ref p i) :=
  calm_refcnt (fun _ _ _ hu => List.mem_cons_of_mem _ hu) rfl

theorem calm_recycle (hw : b.Wf) (hf : b.Free i) : Calm p b (b.recycle p i dev blockno) where
  users := fun _ _ _ hu => List.mem_cons_of_mem _ hu
  held := by
    intro q _ j hj
    have hne : j ≠ i := by
      rintro rfl
      rw [hw.lock_of_free hf.1] at hj
      cases hj
    simp [Bio.recycle, Bio.setBuf_of_ne hne]
  lock := by
    intro q _ j hj
    by_cases hji : j = i
    · subst hji
      simpa [Bio.recycle] using hj
    · simpa [Bio.recycle, Bio.setBuf_of_ne hji] using hj

variable [DecidableEq P]

theorem calm_unref (p : P) (i : Fin NBUF) : Calm p b (b.unref p i) := by
  refine calm_refcnt (fun q hq j hu => (List.mem_erase_of_ne ?_).mpr hu) rfl
  intro he
  exact hq (Prod.mk.inj he).1

theorem Legit.wf_calm (hl : Legit b p op) (hw : b.Wf) (hrun : op.run b = some b') :
    b'.Wf ∧ Calm p b b' := by
  -- the operations on a buffer that `p` holds
  have own : ∀ (i : Fin NBUF) (buf : Buf P), (b.buf i).lock = some p → buf.dev = (b.buf i).dev →
      buf.blockno = (b.buf i).blockno → buf.refcnt = (b.buf i).refcnt →
      (buf.lock = none ∨ buf.lock = some p) → (b.setBuf i buf).Wf ∧ Calm p b (b.setBuf i buf) := by
    intro i buf hlock hdev hno hcnt hbuf
    refine ⟨hw.update rfl rfl rfl rfl rfl hdev hno hcnt ?_, calm_setBuf ?_ ?_⟩
    · intro q hq
      obtain h | h := hbuf
      · rw [h] at hq
        cases hq
      · rw [h] at hq
        cases hq
        exact hw.locked i p hlock
    · intro q hq hq'
      exact hq (some.inj (hq'.symm.trans hlock))
    · intro q hq hq'
      obtain h | h := hbuf
      · rw [h] at hq'
        cases hq'
      · exact hq (some.inj (hq'.symm.trans h))
  cases op with
  | bget q dev blockno =>
    obtain rfl : q = p := hl
    obtain ⟨⟨i, b1⟩, hb1, rfl⟩ := map_eq_some_iff.mp hrun
    obtain ⟨rfl, -, -⟩ | ⟨rfl, hc, hf⟩ := obtain_cases hw hb1
    · exact ⟨hw.ref q i, calm_ref q i⟩
    · exact ⟨hw.recycle q hc hf, calm_recycle hw hf⟩
  | lock q i =>
    obtain ⟨rfl, hu, hnone⟩ := hl
    obtain rfl := some.inj hrun
    refine ⟨hw.update rfl rfl rfl rfl rfl rfl rfl rfl ?_, calm_setBuf ?_ ?_⟩
    · intro r hr
      cases hr
      exact hu
    · intro r _ hr
      rw [hnone] at hr
      cases hr
    · intro r hne hr
      exact hne (some.inj hr).symm
  | unlock i =>
    obtain rfl := some.inj hrun
    exact own i _ hl rfl rfl rfl (.inl rfl)
  | memmove i data =>
    obtain rfl := some.inj hrun
    exact own i _ hl rfl rfl rfl (.inr hl)
  | mark i =>
    obtain rfl := some.inj hrun
    exact own i _ hl rfl rfl rfl (.inr hl)
  | unref q i =>
    obtain ⟨rfl, hu, hne⟩ := hl
    obtain rfl := some.inj hrun
    exact ⟨hw.unref hu hne, calm_unref q i⟩
  | iderw i => exact hl.elim

end BioOp

/-! ### The invariant -/

namespace Ide

variable {δ : Prop} {s s' : Ide P} {p q : P} {i j : Fin NBUF} {l : List (Fin NBUF)}

def Needs (b : Buf P) : Prop := ¬(b.valid = true ∧ b.dirty = false)

def PcOk (s : Ide P) (p : P) : IdePc → Prop
  | .out => True
  | .locking i => (p, i) ∈ s.bio.users
  | .entering i _ => (s.bio.buf i).lock = some p ∧ Needs (s.bio.buf i)
  | .waiting i n _ => s.appended[n]? = some i ∧ (s.bio.buf i).lock = some p ∧
      (s.completed.length ≤ n → Needs (s.bio.buf i))
  | .releasing i => (p, i) ∈ s.bio.users ∧ (s.bio.buf i).lock ≠ some p

/-- The controller has ended the command for the buffer; `δ` says that it reports no errors of
writes. -/
structure Ended (δ : Prop) (disks : ℕ → ℕ → Block) (b : Buf P) (status : UInt8) (sector : Block) :
    Prop where
  read : b.dirty = false → idewait true status = some 0 ∧ sector = disks (b.dev % 2) b.blockno
  write : δ → b.dirty = true → disks (b.dev % 2) b.blockno = b.data

/-- The controller is idle when the queue is empty, and works on its first buffer otherwise. -/
def CtrlOk (δ : Prop) (s : Ide P) : Option (Fin NBUF) → Prop
  | none => s.ctrl = .idle
  | some i => (s.bio.buf i).blockno < FSSIZE ∧ (s.ctrl = .busy (command (s.bio.buf i)) ∨
      ∃ status sector, s.ctrl = .done (command (s.bio.buf i)) status sector ∧
        Ended δ s.disks (s.bio.buf i) status sector)

/-- The requests in `q` are those that have been appended and not completed, and the first of them is
the one that has been started. -/
structure Queued (δ : Prop) (s : Ide P) (q : List (Fin NBUF)) : Prop where
  order : s.appended = s.completed ++ q
  links : LinkList.Queue s.cell q
  started : s.started = s.completed ++ q.take 1
  ctrl : CtrlOk δ s q.head?

structure Inv (δ : Prop) (s : Ide P) : Prop where
  wf : s.bio.Wf
  pcs : ∀ p, PcOk s p (s.pc p)
  pending : ∀ n i, s.completed.length ≤ n → s.appended[n]? = some i →
    ∃ p c, s.pc p = .waiting i n c
  queued : ∃ q, Queued δ s q

theorem Queued.getElem? {q : List (Fin NBUF)} (h : Queued δ s q) (k : ℕ) :
    s.appended[s.completed.length + k]? = q[k]? := by
  rw [h.order, List.getElem?_append_right (Nat.le_add_right ..), Nat.add_sub_cancel_left]

section

variable {q : List (Fin NBUF)} (h : Inv δ s) (hq : Queued δ s q)
include h hq

theorem Inv.owner {k : ℕ}
    (hk : q[k]? = some i) : ∃ p c, s.pc p = .waiting i (s.completed.length + k) c ∧
      (s.bio.buf i).lock = some p ∧ Needs (s.bio.buf i) := by
  obtain ⟨p, c, hpc⟩ := h.pending _ i (Nat.le_add_right ..) ((hq.getElem? k).trans hk)
  have hok := h.pcs p
  rw [hpc] at hok
  exact ⟨p, c, hpc, hok.2.1, hok.2.2 (Nat.le_add_right ..)⟩

theorem Inv.nodup : q.Nodup := by
  rw [List.nodup_iff_getElem?_ne_getElem?]
  intro k m hkm hm heq
  have hk : q[k]? = some q[m] := heq.trans (List.getElem?_eq_getElem hm)
  obtain ⟨p, c, hp, hlock, -⟩ := h.owner hq hk
  obtain ⟨p', c', hp', hlock', -⟩ := h.owner hq (List.getElem?_eq_getElem hm)
  obtain rfl : p = p' := some.inj (hlock.symm.trans hlock')
  have := hp.symm.trans hp'
  injection this with _ hn _
  omega

theorem Inv.length_le : q.length ≤ NBUF := by
  simpa using (h.nodup hq).length_le_card

theorem Inv.notMem
    (hlock : (s.bio.buf i).lock = some p) (hpc : ∀ n c, s.pc p ≠ .waiting i n c) : i ∉ q := by
  intro hi
  obtain ⟨k, hk⟩ := List.getElem?_of_mem hi
  obtain ⟨p', c, hp', hlock', -⟩ := h.owner hq hk
  obtain rfl : p = p' := some.inj (hlock.symm.trans hlock')
  exact hpc _ c hp'

end

theorem follow_eq {cell : Option (Fin NBUF) → Option (Fin NBUF)} {a : Option (Fin NBUF)}
    {k : ℕ} (h : LinkList.Links cell (a :: l.map some) none)
    (hk : l.length ≤ k) : follow cell k (cell a) = l := by
  induction l generalizing a k with
  | nil =>
    rw [show cell a = none from h.1]
    cases k <;> rfl
  | cons i l ih =>
    obtain ⟨k, rfl⟩ := Nat.exists_eq_add_one_of_ne_zero (Nat.ne_zero_of_lt hk)
    rw [show cell a = some i from h.1, follow]
    congr 1
    exact ih h.2 (Nat.le_of_succ_le_succ hk)

theorem Inv.queue_eq {q : List (Fin NBUF)} (h : Inv δ s) (hq : Queued δ s q) : s.queue = q :=
  follow_eq hq.links (h.length_le hq)

theorem CtrlOk.congr {n : ℕ} (h : CtrlOk δ s (some i)) (hctrl : s'.ctrl = s.ctrl)
    (hdisks : s'.disks = s.disks) (hbuf : s'.bio.buf i = { s.bio.buf i with refcnt := n }) :
    CtrlOk δ s' (some i) := by
  obtain ⟨hlt, hc⟩ := h
  unfold CtrlOk
  dsimp only
  rw [hbuf, hctrl, hdisks, command_refcnt]
  refine ⟨hlt, hc.imp_right ?_⟩
  rintro ⟨status, sector, hdone, hend⟩
  exact ⟨status, sector, hdone, hend.read, hend.write⟩

/-! ### Steps of the cache -/

variable {op : BioOp P} {pc : IdePc} {a : IdeAct P}

def SameBytes (b b' : Buf P) : Prop :=
  b'.dev = b.dev ∧ b'.blockno = b.blockno ∧ b'.valid = b.valid ∧ b'.dirty = b.dirty ∧
    b'.data = b.data

structure SameDriver (s s' : Ide P) : Prop where
  cell : s'.cell = s.cell
  ctrl : s'.ctrl = s.ctrl
  disks : s'.disks = s.disks
  appended : s'.appended = s.appended
  started : s'.started = s.started
  completed : s'.completed = s.completed

theorem Queued.congr (h : Queued δ s l) (hd : SameDriver s s')
    (hbuf : ∀ i, l.head? = some i → ∃ n, s'.bio.buf i = { s.bio.buf i with refcnt := n }) :
    Queued δ s' l where
  order := by rw [hd.appended, hd.completed, h.order]
  links := by
    rw [hd.cell]
    exact h.links
  started := by rw [hd.started, hd.completed, h.started]
  ctrl := by
    have hc := h.ctrl
    cases hi : l.head? with
    | none =>
      rw [hi] at hc
      exact hd.ctrl.trans hc
    | some i =>
      rw [hi] at hc
      obtain ⟨n, hn⟩ := hbuf i hi
      exact hc.congr hd.ctrl hd.disks hn

theorem PcOk.calm (h : PcOk s q pc) (hq : q ≠ p) (hc : BioOp.Calm p s.bio s'.bio)
    (hd : SameDriver s s') : PcOk s' q pc := by
  cases pc with
  | out => trivial
  | locking i => exact hc.users q hq i h
  | entering i c =>
    obtain ⟨hlock, hneeds⟩ := h
    unfold PcOk
    dsimp only
    rw [hc.held q hq i hlock]
    exact ⟨hlock, hneeds⟩
  | waiting i n c =>
    obtain ⟨happ, hlock, hneeds⟩ := h
    unfold PcOk
    dsimp only
    rw [hd.appended, hd.completed, hc.held q hq i hlock]
    exact ⟨happ, hlock, hneeds⟩
  | releasing i => exact ⟨hc.users q hq i h.1, fun hl => h.2 (hc.lock q hq i hl)⟩

theorem PcOk.congr (h : PcOk s q pc) (hbio : s'.bio = s.bio) (hcomp : s'.completed = s.completed)
    (happ : ∀ (n : ℕ) (i : Fin NBUF), s.appended[n]? = some i → s'.appended[n]? = some i) :
    PcOk s' q pc := by
  unfold PcOk at h ⊢
  rw [hbio, hcomp]
  cases pc with
  | waiting i n c => exact ⟨happ n i h.1, h.2⟩
  | _ => exact h

theorem sameBytes_refl (b : Buf P) : SameBytes b b := ⟨rfl, rfl, rfl, rfl, rfl⟩

theorem sameBytes_update {b b' : Bio P} (l : Option P) (n : ℕ)
    (h : b'.buf = update b.buf i { b.buf i with refcnt := n, lock := l }) (j : Fin NBUF) :
    SameBytes (b.buf j) (b'.buf j) := by
  rw [h]
  by_cases hj : j = i
  · subst hj
    rw [update_self]
    exact ⟨rfl, rfl, rfl, rfl, rfl⟩
  · rw [update_of_ne hj]
    exact sameBytes_refl _

theorem clean_setBuf {b : Bio P} {f : Fin NBUF → Bool} (hj : update f i false j = true) :
    f j = true ∧ SameBytes (b.buf j) ((b.setBuf i buf).buf j) := by
  have hne : j ≠ i := by
    rintro rfl
    rw [update_self] at hj
    cases hj
  rw [update_of_ne hne] at hj
  rw [Bio.setBuf_of_ne hne]
  exact ⟨hj, rfl, rfl, rfl, rfl, rfl⟩

theorem idestart_eq_some (h : s.idestart i = some s') : (s.bio.buf i).blockno < FSSIZE ∧
    s' = { s with ctrl := .busy (command (s.bio.buf i)), started := s.started ++ [i] } := by
  unfold idestart at h
  split_ifs at h with hno
  exact ⟨Nat.lt_of_not_le hno, (some.inj h).symm⟩

theorem idle_of_pc (h : s.pc p = pc) (hpc : ∀ i n c, pc ≠ .waiting i n c) (i : Fin NBUF) (n : ℕ)
    (c : IdeCaller) : s.pc p ≠ .waiting i n c := by
  rw [h]
  exact hpc i n c

theorem Holds.idle (h : s.Holds p i) (j : Fin NBUF) (n : ℕ) (c : IdeCaller) :
    s.pc p ≠ .waiting j n c :=
  idle_of_pc h.1 nofun j n c

variable [DecidableEq P]

/-- Process `p`, which has no request, makes the operation and is at `pc` afterwards. -/
structure CacheStep (s : Ide P) (p : P) (op : BioOp P) (pc : IdePc) (s' : Ide P) : Prop where
  run : op.run s.bio = some s'.bio
  legit : op.Legit s.bio p
  idle : ∀ i n c, s.pc p ≠ .waiting i n c
  goto : s'.pc = Function.update s.pc p pc
  pcOk : PcOk s' p pc
  noRequest : ∀ i n c, pc ≠ .waiting i n c
  driver : SameDriver s s'
  ops : s'.ops = s.ops ++ [op]
  clean : ∀ j, s'.fromRead j = true → s.fromRead j = true ∧ SameBytes (s.bio.buf j) (s'.bio.buf j)
  returned : s'.returned = s.returned ∨ ∃ i, s'.returned = s.returned ++
    [⟨i, (s'.bio.buf i).data, s'.fromRead i, s'.disks ((s'.bio.buf i).dev % 2) (s'.bio.buf i).blockno⟩]

theorem Inv.cache (h : Inv δ s) (hs : CacheStep s p op pc s') : Inv δ s' := by
  obtain ⟨hw, hcalm⟩ := hs.legit.wf_calm h.wf hs.run
  have hother : ∀ r i n c, s.pc r = .waiting i n c → r ≠ p ∧ s'.pc r = .waiting i n c := by
    intro r i n c hr
    have hne : r ≠ p := by
      rintro rfl
      exact hs.idle i n c hr
    refine ⟨hne, ?_⟩
    rw [hs.goto, update_of_ne hne]
    exact hr
  refine ⟨hw, fun r => ?_, fun n i hn hi => ?_, ?_⟩
  · rw [hs.goto]
    by_cases hr : r = p
    · subst hr
      rw [update_self]
      exact hs.pcOk
    · rw [update_of_ne hr]
      exact (h.pcs r).calm hr hcalm hs.driver
  · rw [hs.driver.completed] at hn
    rw [hs.driver.appended] at hi
    obtain ⟨r, c, hr⟩ := h.pending n i hn hi
    exact ⟨r, c, (hother r i n c hr).2⟩
  · obtain ⟨l, hl⟩ := h.queued
    refine ⟨l, hl.congr hs.driver fun i hi => ?_⟩
    -- the first buffer of the queue is locked by another process
    obtain ⟨r, c, hr, hlock, -⟩ := h.owner hl (k := 0) (List.head?_eq_getElem?.symm.trans hi)
    exact ⟨_, hcalm.held r (hother r _ _ _ hr).1 i hlock⟩

theorem enter_eq_some {c : IdeCaller} (h : s.enter p i c = some s') :
    s' = s.goto p (.entering i c) ∧ (s.bio.buf i).lock = some p ∧ Needs (s.bio.buf i) := by
  unfold enter at h
  dsimp only at h
  split_ifs at h with hlock hflags hdev
  refine ⟨(some.inj h).symm, not_not.mp hlock, fun hn => hflags ?_⟩
  rw [hn.1, hn.2]
  rfl

theorem bread_cacheStep (h : Inv δ s) (hstep : step s (.bread p dev blockno) = some s') :
    ∃ i, CacheStep s p (.bget p dev blockno) (.locking i) s' := by
  simp only [step] at hstep
  split_ifs at hstep with hout
  obtain ⟨⟨i, b⟩, hob, hstep⟩ := bind_eq_some_iff.mp hstep
  obtain ⟨t, ht, hstep⟩ := bind_eq_some_iff.mp hstep
  obtain rfl := Option.some.inj hstep
  have hrun : (BioOp.bget p dev blockno).run s.bio = some b := congrArg (Option.map Prod.snd) hob
  obtain ⟨b', hb', rfl⟩ := Option.map_eq_some_iff.mp ht
  obtain rfl : b = b' := Option.some.inj (hrun.symm.trans hb')
  have hidle := idle_of_pc hout fun _ _ _ h => by cases h
  have hcases := BioOp.obtain_cases h.wf hob
  have hmem : (p, i) ∈ b.users := by
    obtain ⟨rfl, -, -⟩ | ⟨rfl, -, -⟩ := hcases
    · exact List.mem_cons_self
    · exact List.mem_cons_self
  -- the other buffers stay, and the one found does when it is valid
  have hsame : ∀ j, (j = i → (b.buf i).valid = true) → SameBytes (s.bio.buf j) (b.buf j) := by
    intro j hj
    obtain ⟨rfl, -, -⟩ | ⟨rfl, -, -⟩ := hcases
    · exact sameBytes_update _ _ rfl j
    · have hne : j ≠ i := by
        rintro rfl
        have hv := hj rfl
        simp [Bio.recycle] at hv
      change SameBytes (s.bio.buf j) ((s.bio.setBuf i _).buf j)
      rw [Bio.setBuf_of_ne hne]
      exact sameBytes_refl _
  have hpc : ∀ j n c, IdePc.locking i ≠ .waiting j n c := fun _ _ _ h => by cases h
  refine ⟨i, ?_⟩
  dsimp only
  by_cases hv : (b.buf i).valid = true
  · rw [if_pos hv]
    refine ⟨hrun, rfl, hidle, rfl, hmem, hpc, ⟨rfl, rfl, rfl, rfl, rfl, rfl⟩, rfl, ?_, .inl rfl⟩
    intro j hj
    exact ⟨hj, hsame j fun _ => hv⟩
  · rw [if_neg hv]
    refine ⟨hrun, rfl, hidle, rfl, hmem, hpc, ⟨rfl, rfl, rfl, rfl, rfl, rfl⟩, rfl, ?_, .inl rfl⟩
    intro j hj
    have hne : j ≠ i := by
      rintro rfl
      exact Bool.false_ne_true ((update_self ..).symm.trans hj)
    exact ⟨(update_of_ne hne ..).symm.trans hj, hsame j fun he => absurd he hne⟩

theorem lock_cacheStep (h : Inv δ s) (hstep : step s (.lock p) = some s') :
    ∃ i pc, CacheStep s p (.lock p i) pc s' := by
  simp only [step] at hstep
  split at hstep
  case h_2 => cases hstep
  next i hpc =>
    split_ifs at hstep with hnone
    obtain ⟨t, ht, hstep⟩ := bind_eq_some_iff.mp hstep
    obtain ⟨b, hb, rfl⟩ := map_eq_some_iff.mp ht
    obtain rfl := some.inj hb
    have hmem : (p, i) ∈ s.bio.users := by
      have hok := h.pcs p
      rw [hpc] at hok
      exact hok
    have hidle := idle_of_pc hpc nofun
    have hclean : ∀ j, s.fromRead j = true → s.fromRead j = true ∧ SameBytes (s.bio.buf j)
        ((s.bio.setBuf i { s.bio.buf i with lock := some p }).buf j) :=
      fun j hj => ⟨hj, sameBytes_update _ _ rfl j⟩
    dsimp only at hstep
    split_ifs at hstep with hv
    · obtain rfl := some.inj hstep
      exact ⟨i, .out, rfl, ⟨rfl, hmem, hnone⟩, hidle, rfl, trivial, nofun,
        ⟨rfl, rfl, rfl, rfl, rfl, rfl⟩, rfl, hclean, .inr ⟨i, rfl⟩⟩
    · obtain ⟨rfl, hlock, hneeds⟩ := enter_eq_some hstep
      exact ⟨i, .entering i .bread, rfl, ⟨rfl, hmem, hnone⟩, hidle, rfl, ⟨hlock, hneeds⟩, nofun,
        ⟨rfl, rfl, rfl, rfl, rfl, rfl⟩, rfl, hclean, .inl rfl⟩

theorem taint_cacheStep (hh : s.Holds p i) (hop : op = .mark i ∨ ∃ data, op = .memmove i data)
    {t : Ide P} (ht : s.apply op = some t) :
    op.run s.bio = some t.bio ∧ op.Legit s.bio p ∧ SameDriver s (t.taint i) ∧ t.pc = s.pc ∧
      t.ops = s.ops ++ [op] ∧ t.returned = s.returned ∧ ∀ j, (t.taint i).fromRead j = true →
        s.fromRead j = true ∧ SameBytes (s.bio.buf j) (t.bio.buf j) := by
  obtain ⟨b, hb, rfl⟩ := map_eq_some_iff.mp ht
  obtain rfl | ⟨data, rfl⟩ := hop
  · obtain rfl := some.inj hb
    exact ⟨rfl, hh.2, ⟨rfl, rfl, rfl, rfl, rfl, rfl⟩, rfl, rfl, rfl, fun j hj => clean_setBuf hj⟩
  · obtain rfl := some.inj hb
    exact ⟨rfl, hh.2, ⟨rfl, rfl, rfl, rfl, rfl, rfl⟩, rfl, rfl, rfl, fun j hj => clean_setBuf hj⟩

theorem finish_eq_some (hstep : step s (.finish p) = some s') :
    ∃ i n c, s.pc p = .waiting i n c ∧ ¬Needs (s.bio.buf i) ∧
      s' = (if c = .bread then s.note i else s).goto p .out := by
  simp only [step] at hstep
  split at hstep
  case h_2 => cases hstep
  next i n c hpc =>
    by_cases hflags : ((s.bio.buf i).valid && !(s.bio.buf i).dirty) = true
    · rw [if_pos hflags] at hstep
      refine ⟨i, n, c, hpc, ?_, (some.inj hstep).symm⟩
      simpa [Needs] using hflags
    · rw [if_neg hflags] at hstep
      cases hstep

theorem step_cases (h : Inv δ s) (hstep : step s a = some s') :
    (∃ p op pc, CacheStep s p op pc s' ∧ ∀ q dev b, op = .bget q dev b → a = .bread q dev b) ∨
    (∃ p i c, a = .append p ∧ s.pc p = .entering i c ∧ s.append p i c = some s') ∨
    (∃ p i n c, a = .finish p ∧ s.pc p = .waiting i n c ∧ ¬Needs (s.bio.buf i) ∧
      s' = (if c = .bread then s.note i else s).goto p .out) ∨
    (∃ status junk, a = .complete status junk ∧ s.controller status junk = some s') ∨
    (a = .intr ∧ s.ideintr = some s') := by
  cases a with
  | bread p dev blockno =>
    obtain ⟨i, hc⟩ := bread_cacheStep h hstep
    refine .inl ⟨p, _, _, hc, ?_⟩
    intro q d b he
    cases he
    rfl
  | lock p =>
    obtain ⟨i, pc, hc⟩ := lock_cacheStep h hstep
    exact .inl ⟨p, _, pc, hc, nofun⟩
  | memmove p i data =>
    simp only [step] at hstep
    split_ifs at hstep with hh
    obtain ⟨t, ht, rfl⟩ := map_eq_some_iff.mp hstep
    obtain ⟨hrun, hlegit, hd, hpc, hops, hret, hclean⟩ := taint_cacheStep hh (.inr ⟨data, rfl⟩) ht
    refine .inl ⟨p, _, .out, ⟨hrun, hlegit, hh.idle, ?_, trivial, nofun, hd, hops, hclean, .inl hret⟩,
      nofun⟩
    exact hpc.trans (hh.1 ▸ (update_eq_self p s.pc).symm)
  | logWrite p i =>
    simp only [step] at hstep
    split_ifs at hstep with hh
    obtain ⟨t, ht, rfl⟩ := map_eq_some_iff.mp hstep
    obtain ⟨hrun, hlegit, hd, hpc, hops, hret, hclean⟩ := taint_cacheStep hh (.inl rfl) ht
    refine .inl ⟨p, _, .out, ⟨hrun, hlegit, hh.idle, ?_, trivial, nofun, hd, hops, hclean, .inl hret⟩,
      nofun⟩
    exact hpc.trans (hh.1 ▸ (update_eq_self p s.pc).symm)
  | bwrite p i =>
    simp only [step] at hstep
    split_ifs at hstep with hh
    obtain ⟨t, ht, hstep⟩ := bind_eq_some_iff.mp hstep
    obtain ⟨hrun, hlegit, hd, hpc, hops, hret, hclean⟩ := taint_cacheStep hh (.inl rfl) ht
    obtain ⟨rfl, hlock, hneeds⟩ := enter_eq_some hstep
    refine .inl ⟨p, _, .entering i .bwrite, ⟨hrun, hlegit, hh.idle, ?_, ⟨hlock, hneeds⟩, nofun,
      ⟨hd.cell, hd.ctrl, hd.disks, hd.appended, hd.started, hd.completed⟩, hops, hclean, .inl hret⟩,
      nofun⟩
    exact congrArg (update · p _) hpc
  | brelse p i =>
    simp only [step] at hstep
    split_ifs at hstep with hh
    obtain ⟨t, ht, rfl⟩ := map_eq_some_iff.mp hstep
    obtain ⟨b, hb, rfl⟩ := map_eq_some_iff.mp ht
    obtain rfl := some.inj hb
    refine .inl ⟨p, .unlock i, .releasing i, ⟨rfl, hh.2, hh.idle, rfl, ⟨h.wf.locked i p hh.2, ?_⟩, nofun,
      ⟨rfl, rfl, rfl, rfl, rfl, rfl⟩, rfl, ?_, .inl rfl⟩, nofun⟩
    · change ((s.bio.setBuf i _).buf i).lock ≠ some p
      rw [Bio.setBuf_self]
      exact nofun
    · exact fun j hj => ⟨hj, sameBytes_update _ _ rfl j⟩
  | unref p =>
    simp only [step] at hstep
    split at hstep
    case h_2 => cases hstep
    next i hpc =>
      obtain ⟨t, ht, rfl⟩ := map_eq_some_iff.mp hstep
      obtain ⟨b, hb, rfl⟩ := map_eq_some_iff.mp ht
      obtain rfl := some.inj hb
      have hok := h.pcs p
      rw [hpc] at hok
      have hidle := idle_of_pc hpc nofun
      refine .inl ⟨p, .unref p i, .out, ⟨rfl, ⟨rfl, hok.1, hok.2⟩, hidle, rfl, trivial, nofun,
        ⟨rfl, rfl, rfl, rfl, rfl, rfl⟩, rfl, ?_, .inl rfl⟩, nofun⟩
      exact fun j hj => ⟨hj, sameBytes_update _ _ rfl j⟩
  | append p =>
    simp only [step] at hstep
    split at hstep
    case h_2 => cases hstep
    next i c hpc => exact .inr (.inl ⟨p, i, c, rfl, hpc, hstep⟩)
  | finish p =>
    obtain ⟨i, n, c, hs⟩ := finish_eq_some hstep
    exact .inr (.inr (.inl ⟨p, i, n, c, rfl, hs⟩))
  | complete status junk => exact .inr (.inr (.inr (.inl ⟨status, junk, rfl, hstep⟩)))
  | intr => exact .inr (.inr (.inr (.inr ⟨rfl, hstep⟩)))

end Ide

end Xv6
