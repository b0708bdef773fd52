import Xv6.Proofs.DescriptorCalls

/-! `exec`, `exit` and `fork`, and the body of every system call. -/

open Function Finset

namespace Xv6

open Kernel

variable {T : Type} {n : ℕ} {r : Rules T n} {p child : Fin n} {v w : View n} {S : Storage T} {ip : Ptr}
  {k k0 : Kernel T n} {f : Fin NFILE} {fd : Fin NOFILE}

/-! ### exec -/

section

variable (hS : S.Tame) (hin : r.inOp → 0 < v.depth) (hl : v.locked ip = true)
include hS hin hl

theorem obeys_loaduvm (m off sz : ℕ) :
    Obeys r p ((opsAt S p).loaduvm ip m off sz) v fun _ w => w = v := by
  induction m generalizing off sz with
  | zero => exact .pure rfl
  | succ m ih =>
    unfold FsOps.loaduvm
    split_ifs
    · exact .pure rfl
    · refine (obeys_readi hS (fun hr => .inl (hin hr)) (fun _ => hl) _ _).bind fun a w hw => ?_
      rw [hw]
      split_ifs
      · exact .pure rfl
      · exact ih _ _

theorem obeys_execLoad (vm : Vm) (m off sz : ℕ) :
    Obeys r p ((opsAt S p).execLoad vm ip m off sz) v fun _ w => w = v := by
  induction m generalizing off sz with
  | zero => exact .pure rfl
  | succ m ih =>
    refine (obeys_readi hS (fun hr => .inl (hin hr)) (fun _ => hl) _ _).bind fun a w hw => ?_
    rw [hw]
    by_cases hshort : a.1 ≠ PROGHDRSIZE
    · rw [if_pos hshort]
      exact .pure rfl
    rw [if_neg hshort]
    dsimp only
    have hload : ∀ off' sz' off'' sz'', Obeys r p (do
        let ok ← (opsAt S p).loaduvm ip (sz' / PGSIZE + 1) off' sz'
        if !ok then return none
        else (opsAt S p).execLoad vm ip m off'' sz'') v fun _ w => w = v := by
      intro off' sz' off'' sz''
      refine (obeys_loaduvm hS hin hl _ _ _).bind fun ok w hw => ?_
      rw [hw]
      by_cases hok : (!ok) = true
      · rw [if_pos hok]
        exact .pure rfl
      · rw [if_neg hok]
        exact ih _ _
    split_ifs
    · exact ih _ _
    · exact .pure rfl
    · exact .pure rfl
    · exact .pure rfl
    · exact .pure rfl
    · exact hload _ _ _ _

theorem obeys_execRead (vm : Vm) : Obeys r p ((opsAt S p).execRead vm ip) v fun _ w => w = v := by
  refine (obeys_readi hS (fun hr => .inl (hin hr)) (fun _ => hl) _ _).bind fun a w hw => ?_
  rw [hw]
  split_ifs
  · exact .pure rfl
  · exact .pure rfl
  · exact .pure rfl
  · exact obeys_execLoad hS hin hl vm _ _ _

end

theorem obeys_sysExec (hS : S.Tame) (path : Option Str) (vm : Vm) :
    Obeys r p ((opsAt S p).sysExec path vm) v fun _ w => w = v := by
  cases path with
  | none => exact .pure rfl
  | some path =>
    refine obeys_beginOp.seq fun _ => ?_
    refine (obeys_namei (v := v.op) hS fun _ _ => v.op_pos).bind fun a w ha => ?_
    split
    · rw [ha.1 rfl]
      exact obeys_endOp_return
    · rename_i ip
      rw [ha.2 ip rfl]
      refine (obeys_ilock (v := v.op.ref ip)).bind fun _ w hw' => ?_
      obtain ⟨hfree, rfl⟩ := hw'
      refine (obeys_execRead (v := (v.op.ref ip).setLock ip true) hS (fun _ => v.op_pos)
        (View.locked_setLock ..) vm).bind fun sz w hw' => ?_
      rw [hw']
      exact obeys_iunlockput_return hS hfree

/-! ### exit -/

theorem obeys_closeAll (hS : S.Tame) (h : v.Rest r) (fds : List (Fin NOFILE)) :
    Obeys r p ((opsAt S p).closeAll fds) v fun _ w => w.Rest r ∧ w.proc.cwd = v.proc.cwd := by
  induction fds generalizing v with
  | nil => exact .pure ⟨h, rfl⟩
  | cons fd fds ih =>
    refine obeys_ofile_bind ?_
    cases hfd : v.proc.ofile fd with
    | none => exact ih h
    | some f =>
      refine (obeys_fileclose hS (h.fref_pos hfd)).seq fun _ => ?_
      refine (obeys_setOfile fd none).seq fun _ => ?_
      exact ih (h.dropFd hfd)

theorem obeys_exit (hS : S.Tame) (h : v.Rest r) :
    Obeys r p ((opsAt S p).exit) v fun _ w => w.Rest r := by
  intro k0 k hok hsp hv hc
  refine (obeys_panicIf (by simp)).bind (fun _ v' hv' => ?_) k0 k hok hsp hv hc
  rw [hv'.2]
  refine (obeys_closeAll hS h _).bind fun _ u hu => ?_
  obtain ⟨h, -⟩ := hu
  refine obeys_beginOp.seq fun _ => ?_
  refine obeys_cwd_bind (v := u.op) ?_
  cases hcwd : u.proc.cwd with
  | none =>
    rw [show u.op.proc.cwd = none from hcwd]
    exact obeys_panic (by simp)
  | some ip =>
    rw [show u.op.proc.cwd = some ip from hcwd]
    refine (obeys_iput (v := u.op) hS fun _ => u.op_pos).seq fun _ => ?_
    set x := u.add (Pi.single ip (-1)) with hx
    refine (obeys_endOp (v := x.op) x.op_pos).bind fun _ w hw => ?_
    have hw : w = x := hw
    rw [hw]
    refine (obeys_setCwd none).mono fun _ w hw => ?_
    rw [hw]
    refine h.setCwd fun jp => ?_
    rw [hcwd, Pi.single_apply]
    simp only [Option.some.injEq, eq_comm (b := jp), reduceCtorEq, if_false]
    split_ifs <;> rfl

/-! ### fork -/

def View.dup (v : View n) (fds : List (Fin NOFILE)) : View n :=
  { v with fref := fun g => v.fref g + (fds.map fun fd => if v.proc.ofile fd = some g then (1 : ℤ) else 0).sum }

theorem View.dup_cons (v : View n) (fds : List (Fin NOFILE)) (h : v.proc.ofile fd = some f) :
    (v.setFile f 1 (v.file f)).dup fds = v.dup (fd :: fds) := by
  have hfile : update v.file f (v.file f) = v.file := update_eq_self ..
  simp only [dup, setFile, hfile, View.mk.injEq, true_and, and_true]
  funext g
  rw [List.map_cons, List.sum_cons, h, Pi.add_apply, Pi.single_apply]
  simp only [Option.some.injEq, eq_comm (a := g)]
  ring

def View.Typed (v : View n) : Prop :=
  ∀ fd f, v.proc.ofile fd = some f → 0 < v.fref f ∧ ∃ ty ip, v.file f = some (ty, ip) ∧ ty ≠ .none

theorem obeys_dupAll (h : v.Typed) (fds : List (Fin NOFILE)) :
    Obeys r p ((opsAt S p).dupAll fds) v fun _ w => w = v.dup fds := by
  induction fds generalizing v with
  | nil => exact .pure (by simp [View.dup])
  | cons fd fds ih =>
    refine obeys_ofile_bind ?_
    cases hfd : v.proc.ofile fd with
    | none =>
      have hdup : v.dup (fd :: fds) = v.dup fds := by simp [View.dup, hfd]
      rw [hdup]
      exact ih h
    | some f =>
      obtain ⟨hpos, ty, ip, hfile, hty⟩ := h fd f hfd
      refine (obeys_filedup hpos fun jp hjp => ?_).bind fun _ w hw => ?_
      · rw [hjp] at hfile
        exact hty (Prod.mk.inj (Option.some.inj hfile)).1.symm
      · rw [hw, ← View.dup_cons v fds hfd]
        refine ih fun fd' g hg => ?_
        obtain ⟨hpos', hfile'⟩ := h fd' g hg
        have hsame : (v.setFile f 1 (v.file f)).file = v.file := update_eq_self ..
        refine ⟨?_, by rw [hsame]; exact hfile'⟩
        change 0 < v.fref g + (Pi.single f 1 : Fin NFILE → ℤ) g
        rw [Pi.single_apply]
        split_ifs <;> omega

theorem View.dup_all (v : View n) (g : Fin NFILE) :
    (v.dup (List.finRange NOFILE)).fref g = v.fref g + v.proc.fds g := by
  change v.fref g + _ = _
  rw [← Fin.sum_univ_def, sum_boole]
  rfl

theorem obeys_forkFiles (h : v.Typed) : Obeys r p ((opsAt S p).forkFiles) v fun a w =>
    ∃ ip, v.proc.cwd = some ip ∧ a = some ip ∧ w = (v.dup (List.finRange NOFILE)).ref ip := by
  refine (obeys_dupAll h _).seq fun _ => ?_
  refine obeys_cwd_bind ?_
  cases hcwd : v.proc.cwd with
  | none =>
    rw [show (v.dup (List.finRange NOFILE)).proc.cwd = none from hcwd]
    exact obeys_panic (by simp)
  | some ip =>
    rw [show (v.dup (List.finRange NOFILE)).proc.cwd = some ip from hcwd]
    exact obeys_idup.bind fun _ w hw => .pure ⟨ip, rfl, rfl, hw⟩

variable {q : Fin n}

theorem straight_filedup (hq : q ≠ p) (f : Fin NFILE) :
    Prog.Straight (fun k : Kernel T n => k.view q) ((opsAt S p).filedup f) := by
  intro k
  by_cases href : (k.ftable f).ref < 1
  · refine .inr ⟨.panic .filedup, k, ?_⟩
    change (FsOps.panicIf _ _ _ >>= _ : KernelM T n Unit) k = _
    rw [FsOps.panicIf, if_pos href]
    rfl
  · refine .inl ⟨(), k.setFtable p (update k.ftable f
      { k.ftable f with ref := (k.ftable f).ref + 1 }), ?_, view_setFile_ne hq fun _ => ⟨rfl, rfl⟩⟩
    change (FsOps.panicIf _ _ _ >>= _ : KernelM T n Unit) k = _
    rw [FsOps.panicIf, if_neg href]
    rfl

theorem straight_dupAll (hq : q ≠ p) (fds : List (Fin NOFILE)) :
    Prog.Straight (fun k : Kernel T n => k.view q) ((opsAt S p).dupAll fds) := by
  induction fds with
  | nil => exact .pure ()
  | cons fd fds ih =>
    have hofile : Prog.Straight (fun k : Kernel T n => k.view q) ((opsAt S p).ofile) :=
      fun k => .inl ⟨_, k, rfl, rfl⟩
    refine hofile.bind fun ofile => ?_
    cases ofile fd with
    | none => exact ih
    | some f => exact (straight_filedup hq f).bind fun _ => ih

theorem straight_forkFiles (hq : q ≠ p) :
    Prog.Straight (fun k : Kernel T n => k.view q) ((opsAt S p).forkFiles) := by
  have hcwd : Prog.Straight (fun k : Kernel T n => k.view q) ((opsAt S p).cwd) :=
    fun k => .inl ⟨_, k, rfl, rfl⟩
  refine (straight_dupAll hq _).bind fun _ => hcwd.bind fun cwd k => ?_
  cases cwd with
  | none => exact .inr ⟨.panic .trap, k, rfl⟩
  | some ip =>
    refine .inl ⟨some ip, _, rfl, (view_setVolume fun jp => ?_).2 q hq⟩
    change (update k.icache ip _ jp).lock = _
    by_cases hj : jp = ip
    · subst hj
      rw [update_self]
    · rw [update_of_ne hj]

theorem sum_moved (hne : child ≠ p) :
    ∑ q, (if q = child then (1 : ℤ) else if q = p then -1 else 0) = 0 := by
  have hsplit : ∀ q, (if q = child then (1 : ℤ) else if q = p then -1 else 0) =
      (if q = child then 1 else 0) + if q = p then -1 else 0 := by
    intro q
    by_cases hq : q = child
    · subst hq
      simp [hne]
    · simp [hq]
  simp only [hsplit, sum_add_distrib, sum_ite_eq', mem_univ, if_true]
  rfl

theorem view_spawn_ne (hq : q ≠ p) (hc : q ≠ child) (cwd : Option Ptr) :
    (k.spawn p child cwd).view q = k.view q := by
  have hproc : (k.spawn p child cwd).proc q = k.proc q := update_of_ne hc ..
  have hiref : (k.spawn p child cwd).iref q = k.iref q := by
    funext ip
    simp [spawn, hq, hc]
  have hfref : (k.spawn p child cwd).fref q = k.fref q := by
    funext f
    simp [spawn, hq, hc]
  simp only [view, View.mk.injEq, hfref]
  exact ⟨rfl, hproc, rfl, rfl, hiref, trivial, rfl⟩

/-- `p` has twice the references of its descriptors and two to its current directory, and `child` has
none. -/
structure Forking (r : Rules T n) (k : Kernel T n) (p child : Fin n) (ip : Ptr) : Prop where
  ne : child ≠ p
  idle : k.call child = none
  unused : ∀ fd, (k.proc child).ofile fd = none
  noCwd : (k.proc child).cwd = none
  cwd : (k.proc p).cwd = some ip
  fref : ∀ f, k.fref p f = (k.proc p).fds f + (k.proc p).fds f
  typed : ∀ fd f, (k.proc p).ofile fd = some f → (k.ftable f).type ≠ .none

theorem Kernel.Ok.spawn (h : Ok r k) (hp : k.call p ≠ none) (hf : Forking r k p child ip) :
    Ok r (k.spawn p child (some ip)) := by
  have hrest := h.rest child hf.idle
  have hzero : ∀ f, k.fref child f = 0 := by
    intro f
    refine (hrest.fref f).trans ?_
    have hnone : (k.proc child).fds f = 0 := by
      unfold Proc.fds
      rw [card_eq_zero, filter_eq_empty_iff]
      intro fd _ hfd
      rw [hf.unused fd] at hfd
      cases hfd
    exact_mod_cast hnone
  have hchild : ∀ f, (k.spawn p child (some ip)).fref child f = (k.proc p).fds f := by
    intro f
    simp [Kernel.spawn, hzero f]
  constructor
  case ref =>
    intro jp
    change (k.icache jp).ref = opened k.ftable jp + ∑ q, (k.iref q jp + _)
    rw [sum_add_distrib]
    by_cases hj : some ip = some jp
    · simp only [if_pos hj, sum_moved hf.ne, add_zero]
      exact h.ref jp
    · simp only [if_neg hj, sum_const_zero, add_zero]
      exact h.ref jp
  case file_ref =>
    intro f
    change (k.ftable f).ref = ∑ q, (k.fref q f + _)
    rw [sum_add_distrib, ← mul_sum, sum_moved hf.ne, mul_zero, add_zero]
    exact h.file_ref f
  case fref =>
    intro q f
    by_cases hq : q = child
    · subst hq
      rw [hchild]
      positivity
    · by_cases hqp : q = p
      · subst hqp
        have := hf.fref f
        simp only [Kernel.spawn, hq, if_false, if_true]
        omega
      · have hsame : (k.spawn p child (some ip)).fref q f = k.fref q f := by
          simp [Kernel.spawn, hq, hqp]
        rw [hsame]
        exact h.fref q f
  case closed => exact h.closed
  case fresh => exact h.fresh
  case outstanding => exact h.outstanding
  case committing => exact h.committing
  case rest =>
    intro q hq
    have hqp : q ≠ p := by
      rintro rfl
      exact hp hq
    by_cases hqc : q = child
    · subst hqc
      refine ⟨hrest.depth, hrest.locked, ?_, ?_, ?_⟩
      · intro f
        refine (hchild f).trans ?_
        change _ = (Proc.fds (update k.proc q _ q) f : ℤ)
        rw [update_self]
        rfl
      · intro fd f hfd
        change (update k.proc q _ q).ofile fd = some f at hfd
        rw [update_self] at hfd
        refine ⟨(k.ftable f).type, (k.ftable f).ip, if_pos ?_, hf.typed fd f hfd⟩
        rw [hchild]
        exact_mod_cast fds_pos hfd
      · intro hr jp
        have hiref : k.iref q jp = 0 := by
          refine (hrest.iref hr jp).trans (if_neg ?_)
          intro he
          exact absurd (hf.noCwd.symm.trans he) (by simp)
        change k.iref q jp + _ = if (update k.proc q _ q).cwd = some jp then 1 else 0
        rw [hiref, update_self, zero_add]
        by_cases hj : some ip = some jp
        · rw [if_pos hj, if_pos rfl, if_pos hj]
        · rw [if_neg hj, if_neg hj]
    · rw [view_spawn_ne hqp hqc]
      exact h.rest q hq
  case inOp => exact h.inOp
  case locked => exact h.locked

theorem view_spawn (hf : Forking r k p child ip) (hv : (k.view p) = (v.dup (List.finRange NOFILE)).ref ip)
    (hfref : ∀ f, v.fref f = v.proc.fds f) (hfile : ∀ f, v.fref f ≤ 0 → v.file f = none) :
    (k.spawn p child (some ip)).view p = v := by
  have hproc : k.proc p = v.proc := congrArg View.proc hv
  have hsame : (k.spawn p child (some ip)).proc p = v.proc :=
    (update_of_ne hf.ne.symm ..).trans hproc
  have hiref : (k.spawn p child (some ip)).iref p = v.iref := by
    have hk : k.iref p = v.iref + Pi.single ip 1 := congrArg View.iref hv
    funext jp
    simp only [Kernel.spawn, hk, hf.ne.symm, if_false, if_true, Pi.add_apply, Pi.single_apply,
      Option.some.injEq, eq_comm (a := jp)]
    split_ifs <;> omega
  have hrefs : (k.spawn p child (some ip)).fref p = v.fref := by
    funext f
    have hk := hf.fref f
    have hone := hfref f
    simp only [Kernel.spawn, hf.ne.symm, if_false, if_true]
    rw [hproc] at hk ⊢
    omega
  have hfiles : ((k.spawn p child (some ip)).view p).file = v.file := by
    funext f
    change (if 0 < (k.spawn p child (some ip)).fref p f then _ else none) = _
    rw [hrefs]
    by_cases hpos : 0 < v.fref f
    · rw [if_pos hpos]
      have hk : 0 < k.fref p f := by
        have := hf.fref f
        have := hfref f
        rw [hproc] at *
        omega
      exact (view_file hk).symm.trans (congrFun (congrArg View.file hv) f)
    · rw [if_neg hpos, hfile f (by omega)]
  simp only [view] at hfiles
  have hcall : k.call p = v.call := congrArg View.call hv
  have hdepth : k.depth p = v.depth := congrArg View.depth hv
  have hlocked : (k.view p).locked = v.locked := by
    rw [hv]
    rfl
  cases v
  simp only [view, View.mk.injEq]
  exact ⟨hcall, hsame, hdepth, hlocked, hiref, hrefs, hfiles⟩

theorem obeys_fork (h : v.Rest r) (child : Fin n) :
    Obeys r p (Kernel.fork S p child) v fun _ w => w.Rest r := by
  rintro k0 k hok hsp rfl hc
  have hc' : k.call p ≠ none := hc
  by_cases hun : k.unused child = true
  · have hfork : Kernel.fork S p child k = ((opsAt S p).forkFiles >>= fun cwd =>
        Prog.modify fun k => k.spawn p child cwd : KernelM T n Unit) k := by
      change (if k.unused child then _ else _ : KernelM T n Unit) k = _
      rw [if_pos hun]
    simp only [unused, Bool.and_eq_true, Option.isNone_iff_eq_none, decide_eq_true_eq] at hun
    obtain ⟨⟨hidle, hcwd⟩, hfds⟩ := hun
    have hne : child ≠ p := by
      rintro rfl
      exact hc' hidle
    have htyped : (k.view p).Typed := fun fd f hfd => ⟨h.fref_pos hfd, h.typed fd f hfd⟩
    unfold SafeAt Prog.Safe
    rw [hfork]
    have hfiles := (straight_forkFiles (S := S) hne).safe
      (obeys_forkFiles (S := S) htyped k0 k hok hsp rfl hc)
    refine Prog.Safe.bind hfiles fun a k1 k' hk' => ?_
    obtain ⟨⟨hok', hsp', hcall', ip, hip, rfl, hv'⟩, hchild⟩ := hk'
    have hproc : k'.proc child = k.proc child := congrArg View.proc hchild
    have hproc' : k'.proc p = k.proc p := congrArg View.proc hv'
    have hforking : Forking r k' p child ip := by
      refine ⟨hne, (congrArg View.call hchild).trans hidle, ?_, ?_, ?_, ?_, ?_⟩
      · rw [hproc]
        exact hfds
      · rw [hproc]
        exact hcwd
      · rw [hproc']
        exact hip
      · intro f
        rw [hproc']
        refine (congrFun (congrArg View.fref hv') f).trans ?_
        change ((k.view p).dup (List.finRange NOFILE)).fref f = _
        rw [View.dup_all, h.fref f]
        rfl
      · intro fd f hfd
        rw [hproc'] at hfd
        obtain ⟨ty, jp, hfile, hty⟩ := h.typed fd f hfd
        have hfile' : (k'.view p).file f = some (ty, jp) :=
          (congrFun (congrArg View.file hv') f).trans hfile
        rw [view_file (fref_pos hfile')] at hfile'
        rw [(Prod.mk.inj (Option.some.inj hfile')).1]
        exact hty
    have hnone : ∀ f, (k.view p).fref f ≤ 0 → (k.view p).file f = none := fun f hf =>
      if_neg (not_lt.mpr hf)
    have hback := view_spawn hforking hv' h.fref hnone
    have hcall : k'.call p ≠ none := fun hn => hc' (hcall'.symm.trans hn)
    refine ⟨hok'.spawn hcall hforking, hsp'.trans fun q hq => ⟨rfl, fun hcq => ?_⟩, hcall', ?_⟩
    · refine view_spawn_ne hq ?_ _
      rintro rfl
      exact hcq hforking.idle
    · rw [hback]
      exact h
  · have hfork : Kernel.fork S p child k = .ok () k := by
      change (if k.unused child then _ else _ : KernelM T n Unit) k = _
      rw [if_neg hun]
      rfl
    unfold SafeAt Prog.Safe
    rw [hfork]
    exact ⟨hok, hsp, rfl, h⟩

/-! ### The calls -/

def Call.Admitted (r : Rules T n) : Call n → Prop
  | .sysChmod args => ∀ path mode, args = some (path, mode) →
    (r.inOp → skipelem path = none) ∧ (r.locked → mode > 511) ∧ ¬r.exact
  | _ => True

theorem obeys_body (hS : S.Tame) (hback : r.inOp → r.Backed S) (h : v.Rest r) {c : Call n}
    (hcall : v.call = some c) (hc : c.Admitted r) :
    Obeys r p (body S p c) v fun _ w => w.Rest r := by
  -- the value that the call returns does not matter
  have drop : ∀ {α : Type} {m : KernelM T n α}, Obeys r p m v (fun _ w => w.Rest r) →
      Obeys r p (do let _ ← m) v fun _ w => w.Rest r :=
    fun hm => hm.bind fun _ _ hw => .pure hw
  have same : ∀ {α : Type} {m : KernelM T n α}, Obeys r p m v (fun _ w => w = v) →
      Obeys r p (do let _ ← m) v fun _ w => w.Rest r :=
    fun hm => hm.bind fun _ _ hw => .pure (hw ▸ h)
  cases c with
  | sysOpen args => exact drop (obeys_sysOpen hS h args)
  | sysClose fd => exact drop (obeys_sysClose hS h fd)
  | sysDup fd => exact drop (obeys_sysDup h fd)
  | sysRead fd len pipe => exact drop (obeys_sysRead hS hback h fd len pipe)
  | sysWrite fd src pipe => exact drop (obeys_sysWrite hS h fd src pipe)
  | sysFstat fd st => exact drop (obeys_sysFstat h fd st)
  | sysLink args => exact same (obeys_sysLink hS args)
  | sysUnlink path => exact same (obeys_sysUnlink hS path)
  | sysMkdir path => exact same (obeys_sysMkdir hS path)
  | sysMknod args => exact same (obeys_sysMknod hS args)
  | sysChdir path => exact drop (obeys_sysChdir hS h path)
  | sysChmod args => exact drop (obeys_sysChmod hS h args hc)
  | sysExec path vm => exact same (obeys_sysExec hS path vm)
  | fork child => exact obeys_fork h child
  | exit => exact obeys_exit hS h

end Xv6
