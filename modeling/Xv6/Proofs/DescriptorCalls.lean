import Xv6.Proofs.Syscalls

/-! A process that starts a system call with the references of its descriptors and of its current
directory ends it so, whatever the call does to them. -/

open Function

namespace Xv6

open Kernel

variable {T : Type} {n : ℕ} {r : Rules T n} {p : Fin n} {v w : View n} {S : Storage T} {ip : Ptr}
  {k k0 : Kernel T n} {f : Fin NFILE} {fd : Fin NOFILE}

/-! ### Counting descriptors -/

theorem fds_update (pr : Proc) (fd : Fin NOFILE) (x : Option (Fin NFILE)) (f : Fin NFILE) :
    (({ pr with ofile := update pr.ofile fd x } : Proc).fds f : ℤ) =
      pr.fds f + ((if x = some f then 1 else 0) - if pr.ofile fd = some f then 1 else 0) :=
  Count.card_filter_update (fun y => y = some f) pr.ofile fd x

theorem fds_pos {pr : Proc} (h : pr.ofile fd = some f) : 0 < pr.fds f :=
  Finset.card_pos.mpr ⟨fd, Finset.mem_filter.mpr ⟨Finset.mem_univ fd, h⟩⟩

theorem two_le_fds {pr : Proc} {fd' : Fin NOFILE} (hne : fd' ≠ fd) (h : pr.ofile fd = some f)
    (h' : pr.ofile fd' = some f) : 2 ≤ pr.fds f := by
  have hpos : 0 < ({ pr with ofile := update pr.ofile fd none } : Proc).fds f := by
    have hfd' : update pr.ofile fd none fd' = some f :=
      (update_of_ne hne ..).trans h'
    exact fds_pos hfd'
  have hcount := fds_update pr fd none f
  rw [h, if_neg (by simp), if_pos rfl] at hcount
  omega

namespace View

theorem setFile_setFile (v : View n) (f : Fin NFILE) (a b : ℤ) (x y : Option (FileType × Ptr)) :
    (v.setFile f a x).setFile f b y = v.setFile f (a + b) y := by
  simp [setFile, add_assoc, ← Pi.single_add]

theorem setFile_undo (v : View n) {x : Option (FileType × Ptr)} (hz : v.fref f = 0)
    (hnone : v.file f = none) :
    (v.setFile f 1 x).setFile f (-1) ((v.setFile f 1 x).closed f) = v := by
  have hclosed : (v.setFile f 1 x).closed f = v.file f := by
    have hone : (v.setFile f 1 x).fref f = 1 := by simp [setFile, hz]
    rw [closed, hone, hnone]
    rfl
  rw [setFile_setFile, hclosed]
  exact setFile_zero v f

theorem setFile_opened (v : View n) (x y : Option (FileType × Ptr)) (g : Option (Fin NFILE)) :
    ((((v.ref ip).setFile f 1 x).setOfile fd g).add (Pi.single ip (-1))).setFile f 0 y =
      (v.setFile f 1 y).setOfile fd g := by
  change ((((v.ref ip).add (Pi.single ip (-1))).setFile f 1 x).setFile f 0 y).setOfile fd g = _
  rw [ref_put, setFile_setFile, Int.add_zero]

namespace Rest

section

variable (h : v.Rest r)
include h

theorem fref_pos (hfd : v.proc.ofile fd = some f) : 0 < v.fref f := by
  rw [h.fref]
  exact_mod_cast fds_pos hfd

theorem count {z : ℤ} {x : Option (Fin NFILE)} {y : Option (FileType × Ptr)}
    (hz : ∀ g, (Pi.single f z : Fin NFILE → ℤ) g =
      (if x = some g then 1 else 0) - if v.proc.ofile fd = some g then 1 else 0) (g : Fin NFILE) :
    ((v.setFile f z y).setOfile fd x).fref g = ((v.setFile f z y).setOfile fd x).proc.fds g := by
  refine Eq.trans ?_ (fds_update v.proc fd x g).symm
  change v.fref g + (Pi.single f z : Fin NFILE → ℤ) g = _
  rw [h.fref g, hz g]

theorem addFd {ty : FileType} (hfd : v.proc.ofile fd = none) (hty : ty ≠ .none) :
    ((v.setFile f 1 (some (ty, ip))).setOfile fd (some f)).Rest r where
  depth := h.depth
  locked := h.locked
  fref := h.count fun g => by
    rw [hfd, Pi.single_apply]
    simp [eq_comm]
  typed fd' g hg := by
    change update v.proc.ofile fd (some f) fd' = some g at hg
    change ∃ ty' jp, update v.file f (some (ty, ip)) g = some (ty', jp) ∧ ty' ≠ .none
    by_cases hgf : g = f
    · subst hgf
      exact ⟨ty, ip, update_self .., hty⟩
    · have hne : fd' ≠ fd := by
        rintro rfl
        rw [update_self] at hg
        exact hgf (Option.some.inj hg).symm
      rw [update_of_ne hne] at hg
      rw [update_of_ne hgf]
      exact h.typed fd' g hg
  iref := h.iref

theorem dropFd (hfd : v.proc.ofile fd = some f) :
    ((v.setFile f (-1) (v.closed f)).setOfile fd none).Rest r where
  depth := h.depth
  locked := h.locked
  fref := h.count fun g => by
    rw [hfd, Pi.single_apply]
    by_cases hg : g = f
    · simp [hg]
    · simp [hg, eq_comm (a := f)]
  typed fd' g hg := by
    change update v.proc.ofile fd none fd' = some g at hg
    change ∃ ty' jp, update v.file f (v.closed f) g = some (ty', jp) ∧ ty' ≠ .none
    have hne : fd' ≠ fd := by
      rintro rfl
      rw [update_self] at hg
      cases hg
    rw [update_of_ne hne] at hg
    by_cases hgf : g = f
    · -- the file is still open through `fd'`
      subst hgf
      have htwo := two_le_fds hne hfd hg
      have hopen : v.closed g = v.file g := if_pos (by rw [h.fref g]; omega)
      rw [update_self, hopen]
      exact h.typed fd' g hg
    · rw [update_of_ne hgf]
      exact h.typed fd' g hg
  iref := h.iref

theorem setCwd {δ : Ptr → ℤ} {x : Option Ptr}
    (hδ : ∀ jp, (if v.proc.cwd = some jp then 1 else 0) + δ jp = if x = some jp then 1 else 0) :
    ((v.add δ).setProc { v.proc with cwd := x }).Rest r where
  depth := h.depth
  locked := h.locked
  fref := h.fref
  typed := h.typed
  iref hr jp := by
    change v.iref jp + δ jp = _
    rw [h.iref hr jp]
    exact hδ jp

theorem leak (hr : ¬r.exact) (δ : Ptr → ℤ) : (v.add δ).Rest r where
  depth := h.depth
  locked := h.locked
  fref := h.fref
  typed := h.typed
  iref he := absurd he hr

end

end Rest

end View

/-! ### Calls on descriptors -/

theorem obeys_sysDup (h : v.Rest r) (fd : Option ℤ) :
    Obeys r p ((opsAt S p).sysDup fd) v fun _ w => w.Rest r := by
  refine (obeys_argfd fd).bind fun a w ha => ?_
  obtain ⟨rfl, hfd⟩ := ha
  split
  · exact .pure h
  · rename_i d f
    have hd := hfd d f rfl
    obtain ⟨ty, ip, hfile, hty⟩ := h.typed d f hd
    refine (obeys_fdalloc f).bind fun a u ha => ?_
    split
    · rw [ha.1 rfl]
      exact .pure h
    · rename_i fd'
      obtain ⟨hnone, rfl⟩ := ha.2 fd' rfl
      refine (obeys_filedup (v := w.setOfile fd' (some f)) (h.fref_pos hd) fun jp hjp => ?_).bind
        fun _ u hu => .pure ?_
      · rw [show w.file f = some (.none, jp) from hjp] at hfile
        exact hty (Prod.mk.inj (Option.some.inj hfile)).1.symm
      · rw [hu]
        change ((w.setFile f 1 (w.file f)).setOfile fd' (some f)).Rest r
        rw [hfile]
        exact h.addFd hnone hty

theorem obeys_sysRead (hS : S.Tame) (hback : r.inOp → r.Backed S) (h : v.Rest r) (fd : Option ℤ)
    (len : Option ℕ) (pipe : ℤ × List UInt8) :
    Obeys r p ((opsAt S p).sysRead fd len pipe) v fun _ w => w.Rest r := by
  refine (obeys_argfd fd).bind fun a w ha => ?_
  obtain ⟨rfl, hfd⟩ := ha
  split
  · rename_i d f len
    obtain ⟨ty, ip, hfile, -⟩ := h.typed d f (hfd d f rfl)
    exact (obeys_fileread hS hback hfile len pipe).mono fun _ _ hw => hw ▸ h
  · exact .pure h

theorem obeys_sysWrite (hS : S.Tame) (h : v.Rest r) (fd : Option ℤ) (src : Option (List UInt8))
    (pipe : ℤ) : Obeys r p ((opsAt S p).sysWrite fd src pipe) v fun _ w => w.Rest r := by
  refine (obeys_argfd fd).bind fun a w ha => ?_
  obtain ⟨rfl, hfd⟩ := ha
  split
  · rename_i d f src
    obtain ⟨ty, ip, hfile, -⟩ := h.typed d f (hfd d f rfl)
    exact (obeys_filewrite hS hfile src pipe).mono fun _ _ hw => hw ▸ h
  · exact .pure h

theorem obeys_sysFstat (h : v.Rest r) (fd : Option ℤ) (st : Bool) :
    Obeys r p ((opsAt S p).sysFstat fd st) v fun _ w => w.Rest r := by
  refine (obeys_argfd fd).bind fun a w ha => ?_
  obtain ⟨rfl, hfd⟩ := ha
  split
  · rename_i d f
    obtain ⟨ty, ip, hfile, -⟩ := h.typed d f (hfd d f rfl)
    exact (obeys_filestat hfile).mono fun _ _ hw => hw ▸ h
  · exact .pure h

theorem obeys_sysClose (hS : S.Tame) (h : v.Rest r) (fd : Option ℤ) :
    Obeys r p ((opsAt S p).sysClose fd) v fun _ w => w.Rest r := by
  refine (obeys_argfd fd).bind fun a w ha => ?_
  obtain ⟨rfl, hfd⟩ := ha
  split
  · exact .pure h
  · rename_i d f
    have hd := hfd d f rfl
    refine (obeys_setOfile d none).bind fun _ u hu => ?_
    rw [hu]
    refine (obeys_fileclose (v := w.setOfile d none) hS (h.fref_pos hd)).bind
      fun _ u hu => .pure ?_
    rw [hu]
    exact h.dropFd hd

/-! ### Opening -/

theorem obeys_setOpened {jp : Ptr} (ip : Ptr) (rd wr : Bool) (hone : v.fref f = 1)
    (hfile : v.file f = some (.none, jp)) : Obeys r p (do
      let file ← (opsAt S p).file f
      (opsAt S p).setFile f { file with
        type := .inode, ip := ip, off := 0, readable := rd, writable := wr }) v
      fun _ w => w = (v.add (Pi.single ip (-1))).setFile f 0 (some (.inode, ip)) := by
  rintro k0 k hok hsp rfl hc
  have hone : k.fref p f = 1 := hone
  have hpos : 0 < k.fref p f := by omega
  rw [view_file hpos] at hfile
  have htype : (k.ftable f).type = .none := (Prod.mk.inj (Option.some.inj hfile)).1
  have href : (k.ftable f).ref ≤ 1 := hok.fresh f htype
  have hle := hok.fref_le p f
  have hothers : ∀ q, q ≠ p → ¬0 < k.fref q f := fun q hq h => by
    have := hok.fref_add_le hq f
    omega
  rw [safeAt_file_bind]
  refine .setFile hok hsp hc (fun q hq h => absurd h (hothers q hq)) ?_ (fun h => ?_) (fun h => ?_) ?_
  · dsimp only
    omega
  · dsimp only at h
    omega
  · cases h
  · have hhold : (k.ftable f).hold = 0 := if_neg (by simp [htype])
    have hhold' : File.hold { k.ftable f with
        type := .inode, ip := ip, off := 0, readable := rd, writable := wr } = Pi.single ip 1 :=
      if_pos rfl
    dsimp only at hhold' ⊢
    rw [hhold, hhold', zero_sub, sub_self, add_zero, if_pos hpos, Pi.single_neg]

theorem obeys_openFile (hS : S.Tame) (h : v.Rest r) (omode : BitVec 32) :
    Obeys r p ((opsAt S p).openFile ip omode) ((v.op.ref ip).setLock ip true) fun _ w => w.Rest r := by
  have hfree := h.locked ip
  have hbad : Obeys r p (do
      (opsAt S p).iunlockput ip
      (opsAt S p).endOp
      return -1) ((v.op.ref ip).setLock ip true) fun _ w => w.Rest r :=
    (obeys_iunlockput_return (v := v) hS hfree).mono fun _ _ hw => hw ▸ h
  refine obeys_filealloc.bind fun a w ha => ?_
  split
  · rw [ha.1 rfl]
    exact hbad
  · rename_i f
    obtain ⟨hz, hnone, jp, rfl⟩ := ha.2 f rfl
    have hone : (((v.op.ref ip).setLock ip true).setFile f 1 (some (.none, jp))).fref f = 1 := by
      simp [View.setFile, hz]
    refine (obeys_fdalloc f).bind fun a w ha => ?_
    split
    · rw [ha.1 rfl]
      refine (obeys_fileclose hS (by rw [hone]; exact one_pos)).bind fun _ w hw => ?_
      · rw [hw, View.setFile_undo _ hz hnone]
        exact hbad
    · rename_i fd
      obtain ⟨hfd, rfl⟩ := ha.2 fd rfl
      set u := ((v.ref ip).setFile f 1 (some (.none, jp))).setOfile fd (some f) with hu
      refine (obeys_iunlock (v := u.op.setLock ip true)).bind fun _ w hw => ?_
      rw [hw.2, View.setLock_setLock (v := u.op) hfree]
      refine (obeys_endOp u.op_pos).bind fun _ w hw => ?_
      have hw : w = u := hw
      rw [hw]
      have hopen := obeys_setOpened (r := r) (p := p) (S := S) (v := u) ip (omode &&& O_WRONLY == 0)
        (omode &&& O_WRONLY != 0 || omode &&& O_RDWR != 0) hone (update_self ..)
      have hdone := hopen.bind (f := fun _ => pure (fd.val : ℤ)) (R := fun _ w => w.Rest r)
        fun _ w hw => .pure (by
          rw [hw, hu, View.setFile_opened]
          exact h.addFd hfd (by simp))
      simpa only [bind_assoc] using hdone

theorem obeys_sysOpen (hS : S.Tame) (h : v.Rest r) (args : Option (Str × BitVec 32)) :
    Obeys r p ((opsAt S p).sysOpen args) v fun _ w => w.Rest r := by
  cases args with
  | none => exact .pure h
  | some args =>
    obtain ⟨path, omode⟩ := args
    have hend : Obeys r p (do (opsAt S p).endOp; return (-1 : ℤ)) v.op fun _ w => w.Rest r :=
      obeys_endOp_return.mono fun _ _ hw => hw ▸ h
    refine obeys_beginOp.seq fun _ => ?_
    by_cases hcreate : omode &&& O_CREATE ≠ 0
    · rw [if_pos hcreate]
      refine (obeys_create hS path T_FILE 0 0).bind fun a w ha => ?_
      split
      · rw [ha.1 rfl]
        exact hend
      · rename_i ip
        rw [(ha.2 ip rfl).2]
        exact obeys_openFile hS h omode
    · rw [if_neg hcreate]
      refine (obeys_namei (v := v.op) hS (fun _ _ => v.op_pos)).bind fun a w ha => ?_
      split
      · rw [ha.1 rfl]
        exact hend
      · rename_i ip
        rw [ha.2 ip rfl]
        refine (obeys_ilock (v := v.op.ref ip)).bind fun _ w hw => ?_
        obtain ⟨hfree, rfl⟩ := hw
        refine obeys_inode_bind fun x => ?_
        by_cases hdir : x.d.type = T_DIR ∧ omode ≠ 0
        · rw [if_pos hdir]
          exact (obeys_iunlockput_return (v := v) hS hfree).mono fun _ _ hw => hw ▸ h
        · rw [if_neg hdir]
          exact obeys_openFile hS h omode

/-! ### The current directory -/

theorem obeys_sysChdir (hS : S.Tame) (h : v.Rest r) (path : Option Str) :
    Obeys r p ((opsAt S p).sysChdir path) v fun _ w => w.Rest r := by
  refine obeys_beginOp.seq fun _ => ?_
  have hend : Obeys r p (do (opsAt S p).endOp; return (-1 : ℤ)) v.op fun _ w => w.Rest r :=
    obeys_endOp_return.mono fun _ _ hw => hw ▸ h
  cases path with
  | none => exact hend
  | some path =>
    refine (obeys_namei (v := v.op) hS (fun _ _ => v.op_pos)).bind fun a w ha => ?_
    split
    · rw [ha.1 rfl]
      exact hend
    · rename_i ip
      rw [ha.2 ip rfl]
      refine (obeys_ilock (v := v.op.ref ip)).bind fun _ w hw => ?_
      obtain ⟨hfree, rfl⟩ := hw
      refine obeys_inode_bind fun x => ?_
      by_cases hdir : x.d.type ≠ T_DIR
      · rw [if_pos hdir]
        exact (obeys_iunlockput_return (v := v) hS hfree).mono fun _ _ hw => hw ▸ h
      · rw [if_neg hdir]
        refine (obeys_iunlock (v := (v.op.ref ip).setLock ip true)).bind fun _ w hw => ?_
        rw [hw.2, View.setLock_setLock hfree]
        refine obeys_cwd_bind (v := v.op.ref ip) ?_
        cases hcwd : v.proc.cwd with
        | none =>
          rw [show (v.op.ref ip).proc.cwd = none from hcwd]
          exact obeys_panic (by simp)
        | some jp =>
          rw [show (v.op.ref ip).proc.cwd = some jp from hcwd]
          refine (obeys_iput (v := v.op.ref ip) hS (fun _ => v.op_pos)).seq fun _ => ?_
          set u := (v.ref ip).add (Pi.single jp (-1)) with hu
          refine (obeys_endOp (v := u.op) u.op_pos).bind fun _ w hw => ?_
          have hw : w = u := hw
          rw [hw]
          refine (obeys_setCwd (some ip)).bind fun _ w hw => .pure ?_
          have hview : w = (v.add (Pi.single ip 1 + Pi.single jp (-1))).setProc
              { v.proc with cwd := some ip } := by
            rw [← View.add_add]
            exact hw
          rw [hview]
          refine h.setCwd fun kp => ?_
          rw [hcwd, Pi.add_apply, Pi.single_apply, Pi.single_apply]
          simp only [Option.some.injEq, eq_comm (b := kp)]
          split_ifs <;> rfl

theorem obeys_sysChmod (hS : S.Tame) (h : v.Rest r) (args : Option (Str × ℤ))
    (hargs : ∀ path mode, args = some (path, mode) →
      (r.inOp → skipelem path = none) ∧ (r.locked → mode > 511) ∧ ¬r.exact) :
    Obeys r p ((opsAt S p).sysChmod args) v fun _ w => w.Rest r := by
  cases args with
  | none => exact .pure h
  | some args =>
    obtain ⟨path, mode⟩ := args
    obtain ⟨hin, hmode, hexact⟩ := hargs path mode rfl
    refine (obeys_namei (v := v) hS (fun hr hs => absurd (hin hr) hs)).bind fun a w ha => ?_
    split
    · rw [ha.1 rfl]
      exact .pure h
    · rename_i ip
      rw [ha.2 ip rfl]
      exact (obeys_chmod (v := v.ref ip) hS hmode).mono fun _ _ hw =>
        hw ▸ h.leak hexact _

end Xv6
