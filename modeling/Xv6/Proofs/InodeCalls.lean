import Xv6.Proofs.Discipline

/-! The functions of the inode layer keep to the rules, and what each does to the view of the
process that calls it. -/

open Function

namespace Xv6

open Kernel View

variable {T : Type} {n : ℕ} {r : Rules T n} {p : Fin n} {v w : View n} {S : Storage T} {ip dp : Ptr}
  {path : Str} {parent : Bool} {err : Panic}

namespace View

theorem setLock_setLock {b c : Bool} (h : v.locked ip = c) : (v.setLock ip b).setLock ip c = v := by
  have hl : update (update v.locked ip b) ip c = v.locked := by
    rw [update_idem, ← h, update_eq_self]
  simp only [setLock, hl]

theorem add_single_neg (v : View n) (ip : Ptr) (z : ℤ) :
    (v.add (Pi.single ip z)).add (Pi.single ip (-z)) = v := by
  rw [add_add, ← Pi.single_add, add_neg_cancel, Pi.single_zero, add_zero]

theorem locked_setLock (v : View n) (ip : Ptr) (b : Bool) : (v.setLock ip b).locked ip = b :=
  update_self ..

theorem locked_setLock_ne (v : View n) {ip jp : Ptr} (b : Bool) (h : jp ≠ ip) :
    (v.setLock ip b).locked jp = v.locked jp := update_of_ne h ..

end View

section

variable (hS : S.Tame) (hin : r.inOp → 0 < v.depth)
include hS hin

theorem obeys_iupdate (hl : r.locked → v.locked ip = true) :
    Obeys r p ((opsAt S p).iupdate ip) v fun _ w => w = v := by
  refine (obeys_note (fun _ h => by cases h) fun hr _ => hl hr).bind ?_
  rintro _ _ rfl
  refine obeys_inode_bind fun x => ?_
  exact obeys_onVolume (A := ∅) (hS.setDinode _ _) (fun _ _ h => h.elim) hin

theorem obeys_iallocFrom (type : Short) (inums : List ℕ) :
    Obeys r p ((opsAt S p).iallocFrom type inums) v fun ip w => w = v.add (Pi.single ip 1) := by
  induction inums with
  | nil => exact obeys_panic (by simp)
  | cons inum inums ih =>
    refine obeys_dinode_bind fun d => ?_
    split_ifs
    · refine (obeys_onVolume (A := ∅) (hS.setDinode _ _) (fun _ _ h => h.elim) hin).bind ?_
      rintro _ _ rfl
      exact obeys_iget inum
    · exact ih

theorem obeys_ialloc (type : Short) :
    Obeys r p ((opsAt S p).ialloc type) v fun ip w => w = v.add (Pi.single ip 1) :=
  obeys_ninodes_bind fun _ => obeys_iallocFrom hS hin type _

end

theorem obeys_ilock : Obeys r p ((opsAt S p).ilock ip) v fun _ w =>
    v.locked ip = false ∧ w = v.setLock ip true := by
  refine obeys_inode_bind fun x => ?_
  refine (obeys_panicIf (by simp)).bind fun _ w hw' => ?_
  rw [hw'.2]
  refine obeys_acquiresleep.bind fun _ w hw' => ?_
  obtain ⟨hfree, rfl⟩ := hw'
  intro k0 k hok hsp hv hc
  have hc' : k.call p ≠ none := by
    rw [← hv] at hc
    exact hc
  rw [safeAt_inode_bind]
  split_ifs
  · exact ⟨hok, hsp, rfl, hfree, hv⟩
  · -- the copy is read from the disk under the lock
    have hload : SafeAt r p ((opsAt S p).setInode ip
        { k.icache ip with d := S.dinode k.data (k.icache ip).inum, valid := true })
        (fun _ w => w = v.setLock ip true) k0 k := by
      refine .setInode hok hsp hc' rfl (fun _ _ => ?_) ?_
      · rw [hv]
        exact locked_setLock ..
      · simp [hv]
    rw [safeAt_dinode_bind]
    refine hload.bind fun _ k1 k' hok1 hsp1 hc1 hw1 => ?_
    have hpanic := obeys_panicIf (r := r) (p := p) (S := S) (v := v.setLock ip true) (e := .ilockNoType)
      (c := (S.dinode k.data (k.icache ip).inum).type = 0) (by simp)
    exact hpanic.mono (fun _ _ h => ⟨hfree, h.2⟩) k1 k' hok1 hsp1 hw1 hc

theorem obeys_iunlock : Obeys r p ((opsAt S p).iunlock ip) v fun _ w =>
    v.locked ip = true ∧ w = v.setLock ip false := by
  rintro k0 k hok hsp rfl hc
  rw [FsOps.iunlock, safeAt_holdingsleep_bind, safeAt_inode_bind]
  refine (obeys_panicIf (by simp)).bind (fun _ w hw => ?_) k0 k hok hsp rfl hc
  obtain ⟨hheld, rfl⟩ := hw
  have hl : (k.view p).locked ip = true := by
    by_contra h
    exact hheld (.inl (by simpa using h))
  exact (obeys_releasesleep hl).mono fun _ _ hw => ⟨hl, hw⟩

section

variable (hS : S.Tame) (hin : r.inOp → 0 < v.depth)
include hS hin

theorem obeys_itrunc (hl : r.locked → v.locked ip = true) :
    Obeys r p ((opsAt S p).itrunc ip) v fun _ w => w = v := by
  refine (obeys_note (fun _ h => by cases h) fun hr _ => hl hr).seq fun _ => ?_
  refine (obeys_onVolume (hS.truncBlocks ip) (fun hr jp hj => ?_) hin).bind fun _ w hw => ?_
  · rw [Set.mem_singleton_iff.mp hj]
    exact hl hr
  rw [hw]
  refine (obeys_assign hl (by intro; rfl) (by intro; rfl)).seq fun _ => ?_
  exact obeys_iupdate hS hin hl

theorem obeys_ifree (hl : r.locked → v.locked ip = true) :
    Obeys r p ((opsAt S p).ifree ip) v fun _ w => w = v := by
  refine (obeys_itrunc hS hin hl).seq fun _ => ?_
  refine (obeys_assign hl (by intro; rfl) (by intro; rfl)).seq fun _ => ?_
  refine (obeys_iupdate hS hin hl).seq fun _ => ?_
  have h : Obeys r p ((opsAt S p).modifyInode ip fun x => { x with valid := false }) v
      fun _ w => w = v.add (Pi.single ip 0) :=
    obeys_modifyInode 0 (fun _ => rfl) (fun x => (add_zero x.ref).symm) fun _ => .inr fun _ => rfl
  rwa [Pi.single_zero, add_zero] at h

theorem obeys_iput :
    Obeys r p ((opsAt S p).iput ip) v fun _ w => w = v.add (Pi.single ip (-1)) := by
  refine (obeys_note (fun hr _ => hin hr) fun _ h => absurd rfl h).seq fun _ => ?_
  refine obeys_acquiresleep.bind fun _ w hw' => ?_
  obtain ⟨hfree, rfl⟩ := hw'
  refine obeys_inode_bind fun x => ?_
  have hlk : (v.setLock ip true).locked ip = true := locked_setLock ..
  have hmid : Obeys r p (if (x.valid && x.d.nlink == 0 && x.ref == 1) = true then
      (opsAt S p).ifree ip else pure ()) (v.setLock ip true) fun _ w => w = v.setLock ip true := by
    split_ifs
    · exact obeys_ifree hS hin fun _ => hlk
    · exact .pure rfl
  refine hmid.seq fun _ => ?_
  refine (obeys_releasesleep hlk).bind fun _ w hw' => ?_
  rw [hw', setLock_setLock hfree]
  exact obeys_modifyInode (-1) (fun _ => rfl) (fun _ => rfl) fun _ => .inr fun _ => rfl

theorem obeys_iunlockput :
    Obeys r p ((opsAt S p).iunlockput ip) v fun _ w =>
      v.locked ip = true ∧ w = (v.setLock ip false).add (Pi.single ip (-1)) := by
  refine obeys_iunlock.bind fun _ w hw' => ?_
  obtain ⟨hl, rfl⟩ := hw'
  exact (obeys_iput (v := v.setLock ip false) hS hin).mono fun _ _ h => ⟨hl, h⟩

theorem obeys_iunlockput_locked (hfree : v.locked ip = false) :
    Obeys r p ((opsAt S p).iunlockput ip) (v.setLock ip true) fun _ w =>
      w = v.add (Pi.single ip (-1)) := by
  refine (obeys_iunlockput (v := v.setLock ip true) hS hin).mono fun _ w h => ?_
  rw [h.2, setLock_setLock hfree]

end

theorem obeys_stati (hl : r.locked → v.locked ip = true) :
    Obeys r p ((opsAt S p).stati ip) v fun _ w => w = v := by
  refine (obeys_note (fun _ h => by cases h) fun hr _ => hl hr).seq fun _ => ?_
  exact obeys_inode_bind fun x => .pure rfl

/-! ### Contents -/

theorem obeys_relock {α : Type} {a : α} :
    Obeys r p (do (opsAt S p).iunlock ip; (opsAt S p).ilock ip; return a) v fun _ w => w = v := by
  refine obeys_iunlock.bind fun _ w hw => ?_
  obtain ⟨hl, rfl⟩ := hw
  refine obeys_ilock.bind fun _ w hw => .pure ?_
  rw [hw.2, setLock_setLock hl]

theorem obeys_readi (hS : S.Tame) (hin : r.inOp → 0 < v.depth ∨ v.locked ip = true ∧ r.Backed S)
    (hl : r.locked → v.locked ip = true) (off len : ℕ) :
    Obeys r p ((opsAt S p).readi ip off len) v fun _ w => w = v := by
  refine obeys_note_bind (fun _ h => by cases h) (fun hr _ => hl hr) fun k hok hg hv hc => ?_
  set k' := k.mark p .readi ip with hk'
  have hok' : Ok r k' := mark_ok hok hv (fun _ h => by cases h) fun hr _ => hl hr
  have hsp' : (protocol r).Spares p k k' := spares_of_view fun _ _ => rfl
  have hv' : k'.view p = v := hv
  have hread : ∀ len', off + len' ≤ (k'.icache ip).d.size.toNat →
      SafeAt r p ((opsAt S p).readFrom ip off len') (fun _ w => w = v) k k' := by
    intro len' hle
    have h := SafeAt.onVolume (m := S.readFrom ip off len') hok' hsp' (by rw [← hv'] at hc; exact hc)
      (hS.readFrom ip off len') (fun hr jp hj => ?_) (fun hr => ?_)
    · rwa [hv'] at h
    · rw [hv', Set.mem_singleton_iff.mp hj]
      exact hl hr
    · subst hv'
      refine (hin hr).imp id fun ⟨hlock, hback⟩ hlog =>
        hback hlog k hg ip off len' (fun hnone => ?_) hle
      have hheld : (k'.icache ip).lock = some p.val := by simpa [view] using hlock
      exact absurd (hnone.symm.trans hheld) (by simp)
  have hdone : ∀ a : ℤ × List UInt8, SafeAt r p (Pure.pure a) (fun _ w => w = v) k k' :=
    fun a => ⟨hok', hsp', rfl, hv'⟩
  rw [safeAt_inode_bind]
  dsimp only
  split_ifs with hdev hbad hlong
  · refine obeys_device_bind (fun d => ?_) k k' hok' hsp' hv' hc
    split
    · exact obeys_relock
    · exact .pure rfl
  · exact hdone _
  · exact (hread _ (by push Not at hbad; omega)).bind fun _ k1 k2 hok2 hsp2 _ hw => ⟨hok2, hsp2, rfl, hw⟩
  · exact (hread _ (by omega)).bind fun _ k1 k2 hok2 hsp2 _ hw => ⟨hok2, hsp2, rfl, hw⟩

theorem obeys_writei (hS : S.Tame) (hin : r.inOp → 0 < v.depth) (hl : r.locked → v.locked ip = true)
    (src : List UInt8) (off : ℕ) : Obeys r p ((opsAt S p).writei ip src off) v fun _ w => w = v := by
  refine (obeys_note (fun _ h => by cases h) fun hr _ => hl hr).seq fun _ => ?_
  refine obeys_inode_bind fun x => ?_
  dsimp only
  split_ifs
  · refine obeys_device_bind fun d => ?_
    split
    · exact obeys_relock
    · exact .pure rfl
  · exact .pure rfl
  · exact .pure rfl
  · refine (obeys_onVolume (hS.writeFrom ip off src)
      (fun hr jp hj => by rw [Set.mem_singleton_iff.mp hj]; exact hl hr) hin).bind fun off' w hw => ?_
    subst hw
    intro k0 k hok hsp hv hc
    rw [safeAt_inode_bind]
    split_ifs
    · have hc' : k.call p ≠ none := by
        rw [← hv] at hc
        exact hc
      have hset : SafeAt r p ((opsAt S p).setInode ip
          { k.icache ip with d := { (k.icache ip).d with size := .ofNat 32 off' } })
          (fun _ u => u = w) k0 k := by
        refine .setInode hok hsp hc' rfl (fun hr _ => ?_) ?_
        · rw [hv]
          exact hl hr
        · simp [hv]
      refine hset.bind fun _ k1 k' hok1 hsp1 hc1 hw1 => ?_
      refine ((obeys_iupdate hS hin hl).bind fun _ u hu => ?_) k1 k' hok1 hsp1 hw1 hc
      exact .pure hu
    · exact ⟨hok, hsp, rfl, hv⟩

/-! ### Directories -/

section

variable (hS : S.Tame) (hin : r.inOp → 0 < v.depth) (hl : r.locked → v.locked dp = true)
include hS hin hl

theorem obeys_scan (he : ∀ x, err ≠ .log x) (stop : Dirent → Bool) (m off : ℕ) :
    Obeys r p ((opsAt S p).scan dp err stop m off) v fun _ w => w = v := by
  induction m generalizing off with
  | zero => exact .pure rfl
  | succ m ih =>
    refine obeys_inode_bind fun x => ?_
    split_ifs
    · refine (obeys_readi hS (fun hr => .inl (hin hr)) hl off _).bind fun a w hw => ?_
      rw [hw]
      refine (obeys_panicIf he).bind fun _ w hw => ?_
      rw [hw.2]
      dsimp only
      split_ifs
      · exact .pure rfl
      · exact ih _
    · exact .pure rfl

theorem obeys_scanAll (he : ∀ x, err ≠ .log x) (stop : Dirent → Bool) (off : ℕ) :
    Obeys r p ((opsAt S p).scanAll dp err stop off) v fun _ w => w = v :=
  obeys_inode_bind fun _ => obeys_scan hS hin hl he stop _ off

theorem obeys_dirlookup (name : Str) : Obeys r p ((opsAt S p).dirlookup dp name) v fun a w =>
      (a = none → w = v) ∧ ∀ ip off, a = some (ip, off) → w = v.add (Pi.single ip 1) := by
  refine obeys_inode_bind fun x => ?_
  refine (obeys_panicIf (by simp)).bind fun _ w hw => ?_
  rw [hw.2]
  refine (obeys_scanAll hS hin hl (by simp) _ 0).bind fun a w hw => ?_
  rw [hw]
  split
  · refine (obeys_iget _).bind fun ip w hw => .pure ⟨fun h => by simp at h, ?_⟩
    rintro ip' off' h
    obtain ⟨rfl, -⟩ := Prod.mk.inj (Option.some.inj h)
    exact hw
  · exact .pure ⟨fun _ => rfl, fun _ _ h => by simp at h⟩

theorem obeys_dirlink (name : Str) (inum : ℕ) :
    Obeys r p ((opsAt S p).dirlink dp name inum) v fun _ w => w = v := by
  refine (obeys_dirlookup hS hin hl name).bind fun a w ha => ?_
  obtain ⟨hnone, hsome⟩ := ha
  split
  · rename_i ip off
    rw [hsome ip off rfl]
    refine (obeys_iput (v := v.add (Pi.single ip 1)) hS hin).bind fun _ w hw => .pure ?_
    rw [hw, add_single_neg]
  · rw [hnone rfl]
    refine (obeys_scanAll hS hin hl (by simp) _ 0).bind fun e w hw => ?_
    rw [hw]
    refine (obeys_writei hS hin hl _ _).bind fun a w hw => ?_
    rw [hw]
    exact (obeys_panicIf (by simp)).bind fun _ w hw => .pure hw.2

theorem obeys_isdirempty : Obeys r p ((opsAt S p).isdirempty dp) v fun _ w => w = v :=
  (obeys_scanAll hS hin hl (by simp) _ _).bind fun _ _ hw => .pure hw

end

/-! ### Paths -/

/-- The walk gives back the reference it starts with, and returns with one to what it finds. It
calls `iput` unless there is nothing to do. -/
theorem obeys_walk (hS : S.Tame) {names : List Str}
    (hin : r.inOp → names ≠ [] ∨ parent = true → 0 < v.depth) :
    Obeys r p ((opsAt S p).walk parent ip names) v fun a w =>
      (a = none → w = v.add (Pi.single ip (-1))) ∧ ∀ jp name, a = some (jp, name) →
        w = (v.add (Pi.single ip (-1))).add (Pi.single jp 1) := by
  induction names generalizing ip v with
  | nil =>
    unfold FsOps.walk
    split_ifs with hp
    · refine (obeys_iput hS (fun hr => hin hr (.inr hp))).bind fun _ w hw => ?_
      exact .pure ⟨fun _ => hw, fun _ _ h => by simp at h⟩
    · refine .pure ⟨fun h => by simp at h, fun jp name h => ?_⟩
      obtain ⟨rfl, -⟩ := Prod.mk.inj (Option.some.inj h)
      exact (add_single_neg v ip (-1)).symm
  | cons name rest ih =>
    have hd : r.inOp → 0 < v.depth := fun hr => hin hr (.inl (by simp))
    unfold FsOps.walk
    refine obeys_ilock.bind fun _ w hw' => ?_
    obtain ⟨hfree, rfl⟩ := hw'
    have hlk : r.locked → (v.setLock ip true).locked ip = true := fun _ => locked_setLock ..
    refine obeys_inode_bind fun x => ?_
    split_ifs
    · refine (obeys_iunlockput_locked hS hd hfree).bind fun _ w hw => ?_
      exact .pure ⟨fun _ => hw, fun _ _ h => by simp at h⟩
    · -- stop one level early
      refine obeys_iunlock.bind fun _ w hw => ?_
      refine .pure ⟨fun h => by simp at h, fun jp name h => ?_⟩
      obtain ⟨rfl, -⟩ := Prod.mk.inj (Option.some.inj h)
      rw [hw.2, setLock_setLock hfree]
      exact (add_single_neg v ip (-1)).symm
    · refine (obeys_dirlookup (v := v.setLock ip true) hS hd hlk name).bind fun a w ha => ?_
      obtain ⟨hnone, hsome⟩ := ha
      split
      · rw [hnone rfl]
        refine (obeys_iunlockput_locked hS hd hfree).bind fun _ w hw => ?_
        exact .pure ⟨fun _ => hw, fun _ _ h => by simp at h⟩
      · rename_i next off
        rw [hsome next off rfl]
        refine (obeys_iunlockput_locked (v := v.add (Pi.single next 1)) hS hd hfree).bind
          fun _ w hw' => ?_
        rw [hw']
        refine (ih (v := (v.add (Pi.single next 1)).add (Pi.single ip (-1))) fun hr _ => hd hr).mono
          fun a u hu => ?_
        have hback : ((v.add (Pi.single next 1)).add (Pi.single ip (-1))).add (Pi.single next (-1)) =
            v.add (Pi.single ip (-1)) := by
          rw [add_add, add_add, add_left_comm, ← Pi.single_add]
          simp
        rwa [hback] at hu

theorem obeys_namex (hS : S.Tame)
    (hin : r.inOp → skipelem path ≠ none ∨ parent = true → 0 < v.depth) :
    Obeys r p ((opsAt S p).namex path parent) v fun a w => (a = none → w = v) ∧
      ∀ jp name, a = some (jp, name) → w = v.add (Pi.single jp 1) := by
  have hin' : r.inOp → pathElems (path.length + 1) path ≠ [] ∨ parent = true → 0 < v.depth := by
    refine fun hr h => hin hr (h.imp_left fun hne hs => hne ?_)
    simp [pathElems, hs]
  -- the first reference is taken, and the walk gives it back
  have hwalk : ∀ ip, Obeys r p ((opsAt S p).walk parent ip (pathElems (path.length + 1) path))
      (v.add (Pi.single ip 1)) fun a w => (a = none → w = v) ∧
        ∀ jp name, a = some (jp, name) → w = v.add (Pi.single jp 1) := by
    intro ip
    refine (obeys_walk (v := v.add (Pi.single ip 1)) hS hin').mono fun a w hw => ?_
    rwa [add_single_neg] at hw
  unfold FsOps.namex
  dsimp only
  split_ifs
  · refine (obeys_iget _).bind fun ip w hw => ?_
    rw [hw]
    exact hwalk ip
  · refine obeys_cwd_bind ?_
    split
    · exact obeys_panic (by simp)
    · rename_i ip _
      refine obeys_idup.seq fun _ => ?_
      exact hwalk ip

theorem obeys_namei (hS : S.Tame)
    (hin : r.inOp → skipelem path ≠ none → 0 < v.depth) :
    Obeys r p ((opsAt S p).namei path) v fun a w => (a = none → w = v) ∧
      ∀ ip, a = some ip → w = v.add (Pi.single ip 1) := by
  refine (obeys_namex hS fun hr h => hin hr (h.resolve_right (by simp))).bind fun a w ha => ?_
  refine .pure ⟨fun h => ha.1 (by simpa using h), fun ip h => ?_⟩
  obtain ⟨⟨jp, name⟩, rfl, rfl⟩ := Option.map_eq_some_iff.mp h
  exact ha.2 jp name rfl

theorem obeys_nameiparent (hS : S.Tame) (hin : r.inOp → 0 < v.depth)
    : Obeys r p ((opsAt S p).nameiparent path) v fun a w => (a = none → w = v) ∧
      ∀ jp name, a = some (jp, name) → w = v.add (Pi.single jp 1) :=
  obeys_namex hS fun hr _ => hin hr

theorem obeys_chmod (hS : S.Tame) {mode : ℤ} (hm : r.locked → mode > 511) :
    Obeys r p ((opsAt S p).chmod ip mode) v fun _ w => w = v := by
  unfold FsOps.chmod
  split_ifs with hmode
  · exact .pure rfl
  · refine obeys_beginOp.seq fun _ => ?_
    set u := v.setDepth (v.depth + 1) with hu
    refine (obeys_ilock (v := u)).bind fun _ w hw' => ?_
    obtain ⟨hfree, rfl⟩ := hw'
    refine (obeys_assign (fun hr => absurd (hm hr) hmode) (by intro; rfl) (by intro; rfl)).bind
      fun _ w hw => ?_
    rw [hw]
    refine obeys_iunlock.bind fun _ w hw => ?_
    rw [hw.2, setLock_setLock hfree]
    refine (obeys_iupdate hS (fun _ => Nat.succ_pos v.depth) fun hr => absurd (hm hr) hmode).bind
      fun _ w hw => ?_
    rw [hw]
    refine (obeys_endOp (Nat.succ_pos v.depth)).bind fun _ w hw => .pure ?_
    rw [hw]
    rfl

end Xv6
