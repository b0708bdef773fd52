import Xv6.Proofs.FileCalls

/-! The system calls keep to the rules, and what each does to the view of the process that makes
it. -/

open Function

namespace Xv6

open Kernel View

variable {T : Type} {n : ℕ} {r : Rules T n} {p : Fin n} {v w : View n} {S : Storage T} {ip dp : Ptr}
  {k k0 : Kernel T n} {f : Fin NFILE}

namespace View

def op (v : View n) : View n := v.setDepth (v.depth + 1)

theorem op_pos (v : View n) : 0 < v.op.depth := Nat.succ_pos _

def ref (v : View n) (ip : Ptr) : View n := v.add (Pi.single ip 1)

theorem ref_put (v : View n) (ip : Ptr) : (v.ref ip).add (Pi.single ip (-1)) = v :=
  add_single_neg v ip 1

theorem ref_swap (v : View n) (ip dp : Ptr) : (v.ref ip).ref dp = (v.ref dp).ref ip := by
  unfold ref
  rw [add_add, add_add, add_comm]

theorem put_other (v : View n) (ip dp : Ptr) :
    ((v.ref dp).ref ip).add (Pi.single dp (-1)) = v.ref ip := by
  rw [ref_swap, ref_put]

theorem put_locked (v : View n) (ip dp : Ptr) :
    (((v.ref dp).ref ip).setLock ip true).add (Pi.single dp (-1)) = (v.ref ip).setLock ip true :=
  congrArg (setLock · ip true) (put_other v ip dp)

theorem setLock_comm (v : View n) (h : ip ≠ dp) (a b : Bool) :
    (v.setLock dp a).setLock ip b = (v.setLock ip b).setLock dp a := by
  have hl : update (update v.locked dp a) ip b =
      update (update v.locked ip b) dp a := update_comm h.symm ..
  simp only [setLock, hl]

end View

/-! ### The ends of calls -/

section
variable {α : Type} {a : α}

theorem obeys_endOp_return : Obeys r p (do (opsAt S p).endOp; return a) v.op fun _ w => w = v :=
  (obeys_endOp v.op_pos).bind fun _ _ hw => .pure hw

theorem obeys_iput_return (hS : S.Tame) :
    Obeys r p (do (opsAt S p).iput ip; (opsAt S p).endOp; return a) (v.op.ref ip) fun _ w => w = v := by
  refine (obeys_iput (v := v.op.ref ip) hS fun _ => v.op_pos).bind fun _ w hw => ?_
  rw [hw, ref_put]
  exact obeys_endOp_return

theorem obeys_iunlockput_return (hS : S.Tame) (hfree : v.locked ip = false) :
    Obeys r p (do (opsAt S p).iunlockput ip; (opsAt S p).endOp; return a)
      ((v.op.ref ip).setLock ip true) fun _ w => w = v := by
  refine (obeys_iunlockput_locked (v := v.op.ref ip) hS (fun _ => v.op_pos) hfree).bind
    fun _ w hw => ?_
  rw [hw, ref_put]
  exact obeys_endOp_return

end

/-! ### Links -/

theorem obeys_assign_iupdate {g : Inode → Inode} (hS : S.Tame) (hin : r.inOp → 0 < v.depth)
    (hl : r.locked → v.locked ip = true) (hlock : ∀ x, (g x).lock = x.lock)
    (href : ∀ x, (g x).ref = x.ref) :
    Obeys r p (do (opsAt S p).modifyInode ip g; (opsAt S p).iupdate ip) v fun _ w => w = v := by
  refine (obeys_assign hl hlock href).seq fun _ => ?_
  exact obeys_iupdate hS hin hl

section

variable (hS : S.Tame)
include hS

theorem obeys_linkBad : Obeys r p ((opsAt S p).linkBad ip) (v.op.ref ip) fun _ w => w = v := by
  refine (obeys_ilock (v := v.op.ref ip)).bind fun _ w hw => ?_
  obtain ⟨hfree, rfl⟩ := hw
  set u := (v.op.ref ip).setLock ip true with hu
  have hl : u.locked ip = true := locked_setLock ..
  refine (obeys_assign (fun _ => hl) (by intro; rfl) (by intro; rfl)).seq fun _ => ?_
  refine (obeys_iupdate (v := u) hS (fun _ => v.op_pos) fun _ => hl).seq fun _ => ?_
  exact obeys_iunlockput_return hS hfree

theorem obeys_linkInto (new : Str) :
    Obeys r p ((opsAt S p).linkInto ip new) (v.op.ref ip) fun _ w => w = v := by
  refine (obeys_nameiparent (v := v.op.ref ip) hS (fun _ => v.op_pos)).bind
    fun a w ha => ?_
  split
  · rw [ha.1 rfl]
    exact obeys_linkBad hS
  · rename_i dp name
    rw [ha.2 dp name rfl]
    refine (obeys_ilock (v := (v.op.ref ip).ref dp)).bind fun _ w hw => ?_
    obtain ⟨hfree, rfl⟩ := hw
    set u := ((v.op.ref ip).ref dp).setLock dp true with hu
    have hl : u.locked dp = true := locked_setLock ..
    refine obeys_inode_bind fun x => ?_
    refine (obeys_dirlink (v := u) hS (fun _ => v.op_pos) (fun _ => hl) name _).bind
      fun z w hw => ?_
    rw [hw]
    -- both ways give the directory back first
    have hput : Obeys r p ((opsAt S p).iunlockput dp) u fun _ w => w = v.op.ref ip :=
      (obeys_iunlockput_locked (v := (v.op.ref ip).ref dp) hS (fun _ => v.op_pos) hfree).mono fun _ w hw =>
        hw.trans (ref_put ..)
    split_ifs
    · refine hput.seq fun _ => ?_
      exact obeys_linkBad hS
    · refine hput.seq fun _ => ?_
      exact obeys_iput_return hS

theorem obeys_sysLink (args : Option (Str × Str)) :
    Obeys r p ((opsAt S p).sysLink args) v fun _ w => w = v := by
  cases args with
  | none => exact .pure rfl
  | some args =>
    obtain ⟨old, new⟩ := args
    refine obeys_beginOp.seq fun _ => ?_
    refine (obeys_namei (v := v.op) hS (fun _ _ => v.op_pos)).bind fun a w ha => ?_
    split
    · rw [ha.1 rfl]
      exact obeys_endOp_return
    · rename_i ip
      rw [ha.2 ip rfl]
      refine (obeys_ilock (v := v.op.ref ip)).bind fun _ w hw => ?_
      obtain ⟨hfree, rfl⟩ := hw
      set u := (v.op.ref ip).setLock ip true with hu
      have hl : u.locked ip = true := locked_setLock ..
      intro k0 k hok hsp hv hc
      rw [safeAt_inode_bind]
      split_ifs
      · exact obeys_iunlockput_return (v := v) hS hfree k0 k hok hsp hv hc
      · have hc' : k.call p ≠ none := by
          rw [← hv] at hc
          exact hc
        have hset : SafeAt r p ((opsAt S p).setInode ip { k.icache ip with
            d := { (k.icache ip).d with nlink := (k.icache ip).d.nlink + 1 } })
            (fun _ w => w = u) k0 k := by
          refine .setInode hok hsp hc' rfl (fun _ _ => ?_) ?_
          · rw [hv]
            exact hl
          · simp [hv]
        refine hset.bind fun _ k1 k' hok1 hsp1 _ hw1 => ?_
        refine ((obeys_iupdate (v := u) hS (fun _ => v.op_pos) fun _ => hl).bind fun _ w hw => ?_)
          k1 k' hok1 hsp1 hw1 hc
        rw [hw]
        refine obeys_iunlock.bind fun _ w hw => ?_
        rw [hw.2, setLock_setLock hfree]
        exact obeys_linkInto hS new

end

/-! ### Unlinking -/

theorem obeys_unlinkEntry (hS : S.Tame) (hne : ip ≠ dp)
    (hip : v.locked ip = false) (hdp : v.locked dp = false) (off : ℕ) :
    Obeys r p ((opsAt S p).unlinkEntry dp ip off)
      ((((v.op.ref dp).ref ip).setLock dp true).setLock ip true) fun _ w => w = v := by
  set x := (v.op.ref dp).ref ip with hx
  set u := (x.setLock dp true).setLock ip true with hu
  have hlip : u.locked ip = true := locked_setLock ..
  have hldp : u.locked dp = true := by
    rw [hu, locked_setLock_ne _ _ hne.symm]
    exact locked_setLock ..
  have hin : r.inOp → 0 < u.depth := fun _ => v.op_pos
  refine obeys_inode_bind fun nd => ?_
  refine (obeys_panicIf (by simp)).bind fun _ w hw => ?_
  rw [hw.2]
  have hempty : Obeys r p (if nd.d.type = T_DIR then (opsAt S p).isdirempty ip else pure true) u
      fun _ w => w = u := by
    split_ifs
    · exact obeys_isdirempty hS hin fun _ => hlip
    · exact .pure rfl
  refine hempty.bind fun empty w hw => ?_
  rw [hw]
  by_cases hfull : (!empty) = true
  · rw [if_pos hfull]
    refine (obeys_iunlockput_locked (v := x.setLock dp true) hS hin ?_).bind
      fun _ w hw => ?_
    · rw [locked_setLock_ne _ _ hne]
      exact hip
    have hback : w = (v.op.ref dp).setLock dp true :=
      hw.trans (congrArg (setLock · dp true) (ref_put (v.op.ref dp) ip))
    rw [hback]
    exact obeys_iunlockput_return hS hdp
  · rw [if_neg hfull]
    refine (obeys_writei hS hin (fun _ => hldp) _ off).bind fun z w hw => ?_
    rw [hw]
    refine (obeys_panicIf (by simp)).bind fun _ w hw => ?_
    rw [hw.2]
    have hdot : Obeys r p (if nd.d.type = T_DIR then do
        (opsAt S p).modifyInode dp fun y => { y with d := { y.d with nlink := y.d.nlink - 1 } }
        (opsAt S p).iupdate dp
      else pure ()) u fun _ w => w = u := by
      split_ifs
      · exact obeys_assign_iupdate hS hin (fun _ => hldp) (by intro; rfl) (by intro; rfl)
      · exact .pure rfl
    refine hdot.bind fun _ w hw => ?_
    rw [hw, hu, setLock_comm x hne]
    refine (obeys_iunlockput_locked (v := x.setLock ip true) hS hin ?_).bind
      fun _ w hw => ?_
    · rw [locked_setLock_ne _ _ hne.symm]
      exact hdp
    rw [hw, hx, put_locked]
    set y := (v.op.ref ip).setLock ip true with hy
    have hl : y.locked ip = true := locked_setLock ..
    refine (obeys_assign (fun _ => hl) (by intro; rfl) (by intro; rfl)).seq fun _ => ?_
    refine (obeys_iupdate (v := y) hS (fun _ => v.op_pos) fun _ => hl).seq fun _ => ?_
    exact obeys_iunlockput_return hS hip

theorem View.ne_of_locked (h : (v.setLock dp true).locked ip = false) :
    ip ≠ dp ∧ v.locked ip = false := by
  have hne : ip ≠ dp := by
    rintro rfl
    rw [locked_setLock] at h
    cases h
  rw [locked_setLock_ne _ _ hne] at h
  exact ⟨hne, h⟩

theorem obeys_sysUnlink (hS : S.Tame) (path : Option Str) :
    Obeys r p ((opsAt S p).sysUnlink path) v fun _ w => w = v := by
  cases path with
  | none => exact .pure rfl
  | some path =>
    refine obeys_beginOp.seq fun _ => ?_
    refine (obeys_nameiparent (v := v.op) hS (fun _ => v.op_pos)).bind
      fun a w ha => ?_
    split
    · rw [ha.1 rfl]
      exact obeys_endOp_return
    · rename_i dp name
      rw [ha.2 dp name rfl]
      refine (obeys_ilock (v := v.op.ref dp)).bind fun _ w hw => ?_
      obtain ⟨hfree, rfl⟩ := hw
      have hbad : Obeys r p ((opsAt S p).unlinkBad dp) ((v.op.ref dp).setLock dp true)
          fun _ w => w = v := obeys_iunlockput_return hS hfree
      split_ifs
      · exact hbad
      · have hl : ((v.op.ref dp).setLock dp true).locked dp = true := locked_setLock ..
        refine (obeys_dirlookup (v := (v.op.ref dp).setLock dp true) hS (fun _ => v.op_pos) (fun _ => hl) name).bind fun e w he => ?_
        split
        · rw [he.1 rfl]
          exact hbad
        · rename_i ip off
          rw [he.2 ip off rfl]
          refine (obeys_ilock (v := ((v.op.ref dp).ref ip).setLock dp true)).bind
            fun _ w hw => ?_
          obtain ⟨hip, rfl⟩ := hw
          obtain ⟨hne, hip⟩ := ne_of_locked hip
          exact obeys_unlinkEntry (v := v) hS hne hip hfree off

/-! ### Creating -/

theorem obeys_createDots (hS : S.Tame) (hin : r.inOp → 0 < v.depth)
    (hip : v.locked ip = true) (hdp : v.locked dp = true) :
    Obeys r p ((opsAt S p).createDots dp ip) v fun _ w => w = v := by
  have hlink : ∀ (name : Str) (jp : Ptr), Obeys r p (do
      let x ← (opsAt S p).inode jp
      let z ← (opsAt S p).dirlink ip name x.inum
      (opsAt S p).panicIf (z < 0) .createDots) v fun _ w => w = v := by
    intro name jp
    refine obeys_inode_bind fun x => ?_
    refine (obeys_dirlink hS hin (fun _ => hip) name _).bind fun z w hw => ?_
    rw [hw]
    exact (obeys_panicIf (by simp)).mono fun _ _ hw => hw.2
  refine (obeys_assign (fun _ => hdp) (by intro; rfl) (by intro; rfl)).seq fun _ => ?_
  refine (obeys_iupdate hS hin fun _ => hdp).seq fun _ => ?_
  have hboth := (hlink dot ip).bind (f := fun _ => do
      let x ← (opsAt S p).inode dp
      let z ← (opsAt S p).dirlink ip dotdot x.inum
      (opsAt S p).panicIf (z < 0) .createDots) fun _ w hw => by
    rw [hw]
    exact hlink dotdot dp
  simpa only [bind_assoc] using hboth

def Created (v : View n) (a : Option Ptr) (w : View n) : Prop :=
  (a = none → w = v) ∧ ∀ ip, a = some ip → v.locked ip = false ∧ w = (v.ref ip).setLock ip true

section

variable (hS : S.Tame)
include hS

theorem obeys_createNew (hfree : v.locked dp = false) (name : Str) (type major minor : Short) :
    Obeys r p ((opsAt S p).createNew dp name type major minor) ((v.op.ref dp).setLock dp true)
      (Created v.op) := by
  refine (obeys_ialloc (v := (v.op.ref dp).setLock dp true) hS (fun _ => v.op_pos) type).bind fun ip w hw => ?_
  rw [hw]
  refine (obeys_ilock (v := ((v.op.ref dp).ref ip).setLock dp true)).bind
    fun _ w hw => ?_
  obtain ⟨hip, rfl⟩ := hw
  obtain ⟨hne, hip⟩ := ne_of_locked hip
  set x := (v.op.ref dp).ref ip with hx
  set u := (x.setLock dp true).setLock ip true with hu
  have hlip : u.locked ip = true := locked_setLock ..
  have hldp : u.locked dp = true := by
    rw [hu, locked_setLock_ne _ _ hne.symm]
    exact locked_setLock ..
  have hin : r.inOp → 0 < u.depth := fun _ => v.op_pos
  refine (obeys_assign (fun _ => hlip) (by intro; rfl) (by intro; rfl)).seq fun _ => ?_
  refine (obeys_iupdate hS hin fun _ => hlip).seq fun _ => ?_
  have hdots : Obeys r p (if type = T_DIR then (opsAt S p).createDots dp ip else pure ()) u
      fun _ w => w = u := by
    split_ifs
    · exact obeys_createDots hS hin hlip hldp
    · exact .pure rfl
  refine hdots.seq fun _ => ?_
  refine obeys_inode_bind fun nd => ?_
  refine (obeys_dirlink hS hin (fun _ => hldp) name _).bind fun z w hw => ?_
  rw [hw]
  refine (obeys_panicIf (by simp)).bind fun _ w hw => ?_
  rw [hw.2, hu, setLock_comm x hne]
  refine (obeys_iunlockput_locked (v := x.setLock ip true) hS hin ?_).bind
    fun _ w hw => ?_
  · rw [locked_setLock_ne _ _ hne.symm]
    exact hfree
  rw [hx, put_locked] at hw
  refine .pure ⟨nofun, fun jp hj => ?_⟩
  obtain rfl := Option.some.inj hj
  exact ⟨hip, hw⟩

theorem obeys_create (path : Str) (type major minor : Short) :
    Obeys r p ((opsAt S p).create path type major minor) v.op (Created v.op) := by
  refine (obeys_nameiparent (v := v.op) hS (fun _ => v.op_pos)).bind
    fun a w ha => ?_
  split
  · exact .pure ⟨fun _ => ha.1 rfl, nofun⟩
  · rename_i dp name
    rw [ha.2 dp name rfl]
    refine (obeys_ilock (v := v.op.ref dp)).bind fun _ w hw => ?_
    obtain ⟨hfree, rfl⟩ := hw
    have hl : ((v.op.ref dp).setLock dp true).locked dp = true := locked_setLock ..
    refine (obeys_dirlookup (v := (v.op.ref dp).setLock dp true) hS (fun _ => v.op_pos) (fun _ => hl) name).bind fun e w he => ?_
    split
    · rename_i ip off
      rw [he.2 ip off rfl]
      refine (obeys_iunlockput_locked (v := (v.op.ref dp).ref ip) hS (fun _ => v.op_pos)
        hfree).bind fun _ w hw => ?_
      rw [hw, put_other]
      refine (obeys_ilock (v := v.op.ref ip)).bind fun _ w hw => ?_
      obtain ⟨hip, rfl⟩ := hw
      refine obeys_inode_bind fun nd => ?_
      split_ifs
      · refine .pure ⟨nofun, fun jp hj => ?_⟩
        obtain rfl := Option.some.inj hj
        exact ⟨hip, rfl⟩
      · refine (obeys_iunlockput_locked (v := v.op.ref ip) hS (fun _ => v.op_pos)
          hip).bind fun _ w hw => .pure ⟨fun _ => ?_, nofun⟩
        rw [hw, ref_put]
    · rw [he.1 rfl]
      exact obeys_createNew (v := v) hS hfree name type major minor

theorem obeys_createPut (path : Str) (type major minor : Short) :
    Obeys r p ((opsAt S p).createPut path type major minor) v.op fun _ w => w = v := by
  refine (obeys_create hS path type major minor).bind fun a w ha => ?_
  split
  · rw [ha.1 rfl]
    exact obeys_endOp_return
  · rename_i ip
    obtain ⟨hfree, hw⟩ := ha.2 ip rfl
    rw [hw]
    exact obeys_iunlockput_return hS hfree

theorem obeys_sysMkdir (path : Option Str) :
    Obeys r p ((opsAt S p).sysMkdir path) v fun _ w => w = v := by
  refine obeys_beginOp.seq fun _ => ?_
  cases path with
  | none => exact obeys_endOp_return
  | some path => exact obeys_createPut hS path _ _ _

theorem obeys_sysMknod (args : Option (Str × ℤ × ℤ)) :
    Obeys r p ((opsAt S p).sysMknod args) v fun _ w => w = v := by
  refine obeys_beginOp.seq fun _ => ?_
  cases args with
  | none => exact obeys_endOp_return
  | some args => exact obeys_createPut hS args.1 _ _ _

end

end Xv6
