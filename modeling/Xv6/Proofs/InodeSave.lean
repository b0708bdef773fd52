import Xv6.Proofs.InodeEval
import Xv6.Proofs.Ownership
import Xv6.Spec.Mkfs

/-! An inode saved and loaded again: the field lists of `iupdate`, `ilock` and `mkfs.c` agree byte for
byte, and a save stays inside the 64 bytes of its inode. -/

namespace Buffer

variable {n : ℕ}

theorem patch_patch_append (b : Buffer n) (o : ℕ) (xs ys : List UInt8) :
    (b.patch o xs).patch (o + xs.length) ys = b.patch o (xs ++ ys) := by
  apply Buffer.ext
  intro k hk
  rw [get_patch _ _ _ hk, get_patch _ _ _ hk, get_patch _ _ _ hk]
  by_cases h : o ≤ k
  · rw [if_pos h, if_pos h]
    by_cases h' : o + xs.length ≤ k
    · have hnone : xs[k - o]? = none := List.getElem?_eq_none (by omega)
      rw [if_pos h', List.getElem?_append_right (by omega), hnone, Nat.sub_sub]
      rfl
    · have hlt : k - o < xs.length := by omega
      rw [if_neg h', List.getElem?_append_left hlt]
  · rw [if_neg h, if_neg h, if_neg (by omega)]

theorem patch_comm (b : Buffer n) {o q : ℕ} {xs ys : List UInt8}
    (h : o + xs.length ≤ q ∨ q + ys.length ≤ o) :
    (b.patch o xs).patch q ys = (b.patch q ys).patch o xs := by
  apply Buffer.ext
  intro k hk
  by_cases hx : k < o ∨ o + xs.length ≤ k
  · rw [get_patch_of_outside (b.patch q ys) o xs hx, get_patch _ q ys hk, get_patch _ q ys hk,
      get_patch_of_outside b o xs hx]
  · have hy : k < q ∨ q + ys.length ≤ k := by omega
    rw [get_patch_of_outside (b.patch o xs) q ys hy, get_patch _ o xs hk, get_patch _ o xs hk,
      get_patch_of_outside b q ys hy]

end Buffer

namespace Xv6

/-- The assignments of `iupdate` to the fields of `struct dinode` at byte `o`, in their order: `size`
comes before `mode`, which precedes it on disk. -/
def Dinode.storeFields (bp : Block) (o : ℕ) (d : Dinode) : Block :=
  let bp := bp.setWord 2 o d.type.toNat
  let bp := bp.setWord 2 (o + 2) d.major.toNat
  let bp := bp.setWord 2 (o + 4) d.minor.toNat
  let bp := bp.setWord 2 (o + 6) d.nlink.toNat
  let bp := bp.setWord 4 (o + 12) d.size.toNat
  let bp := bp.setWord 4 (o + 8) d.mode.toNat
  bp.patch (o + 16) (d.addrs.toList.flatMap fun a => Bytes.le 4 a.toNat)

theorem Dinode.storeFields_eq (bp : Block) (o : ℕ) (d : Dinode) :
    storeFields bp o d = bp.patch o d.encode := by
  unfold storeFields Buffer.setWord encode
  dsimp only
  rw [Buffer.patch_comm _ (o := o + 12) (q := o + 8) (by simp)]
  iterate 6 rw [← Buffer.patch_patch_append]
  simp only [List.length_append, Bytes.le_length, Nat.reduceAdd]

namespace Fs

variable {s s' : Fs} {ip : Ptr}

theorem iupdate_ok (h : ops.iupdate ip s = .ok () s') :
    s'.sb = s.sb ∧ s'.blocks = Function.update s.blocks (IBLOCK (s.icache ip).inum s.sb)
      (Dinode.storeFields (s.blocks (IBLOCK (s.icache ip).inum s.sb)) (inodeOff (s.icache ip).inum)
        (s.icache ip).d) := by
  rw [Dinode.storeFields_eq]
  change (logWrite _ : FsM Unit) _ = _ at h
  unfold logWrite at h
  split at h
  · obtain ⟨-, rfl⟩ := Res.ok.inj h
    exact ⟨rfl, rfl⟩
  · cases h

theorem get_storeFields {bp : Block} {o k : ℕ} (d : Dinode) (h : k < o ∨ o + DINODESIZE ≤ k) :
    (Dinode.storeFields bp o d).get k = bp.get k := by
  rw [Dinode.storeFields_eq]
  exact Buffer.get_patch_of_outside bp o d.encode (by rwa [Dinode.encode_length])

theorem dinode_iupdate (hsave : ops.iupdate ip s = .ok () s') (j : ℕ) : s'.toStore.dinode j =
    if j = (s.icache ip).inum then (s.icache ip).d else s.toStore.dinode j := by
  obtain ⟨hsb, hblocks⟩ := iupdate_ok hsave
  have hset := Store.setDinode_dinode (t := s.toStore) (i := (s.icache ip).inum) (d := (s.icache ip).d)
    (j := j)
  rw [Dinode.storeFields_eq] at hblocks
  unfold Store.dinode at hset ⊢
  rw [hsb, hblocks]
  exact hset

/-- An inode that `iupdate` has saved is loaded with the same fields, by `ilock` through any entry that
is not valid and by `rinode` of `mkfs.c`; no other byte of the disk changes, so the other inodes are
loaded as before. -/
theorem inode_save_load (htype : (s.icache ip).d.type ≠ 0) (hsave : ops.iupdate ip s = .ok () s') :
    (∀ (u : Fs) (q : Ptr), u.sb = s'.sb → u.blocks = s'.blocks →
      (u.icache q).inum = (s.icache ip).inum → (u.icache q).valid = false → 1 ≤ (u.icache q).ref →
      (u.icache q).lock = none → ∃ u', ops.ilock q u = .ok () u' ∧
        u'.icache q = { u.icache q with lock := some 0, valid := true, d := (s.icache ip).d }) ∧
    (∀ b k, ¬(b = IBLOCK (s.icache ip).inum s.sb ∧ inodeOff (s.icache ip).inum ≤ k ∧
        k < inodeOff (s.icache ip).inum + DINODESIZE) → (s'.blocks b).get k = (s.blocks b).get k) ∧
    (∀ j, j ≠ (s.icache ip).inum → s'.toStore.dinode j = s.toStore.dinode j) ∧
    ∀ m : Mkfs, m.sb = s'.sb → m.img = s'.blocks → IBLOCK (s.icache ip).inum m.sb < m.nsect →
      Mkfs.rinode (s.icache ip).inum m = .ok (s.icache ip).d m := by
  have hself : s'.toStore.dinode (s.icache ip).inum = (s.icache ip).d := by
    rw [dinode_iupdate hsave, if_pos rfl]
  refine ⟨fun u q hsb hblocks hinum hvalid href hlock => ?_, fun b k hk => ?_, fun j hj => ?_,
    fun m hsb himg hsect => ?_⟩
  · have hload : u.toStore.dinode (u.icache q).inum = (s.icache ip).d := by
      rw [hinum, ← hself]
      unfold Store.dinode
      rw [hsb, hblocks]
    refine ⟨_, ilock_ok href hlock fun _ => by rwa [hload], ?_⟩
    rw [put_toStore, Store.setInode_self, lockedInode, hvalid, hload]
    rfl
  · obtain ⟨-, hblocks⟩ := iupdate_ok hsave
    rw [hblocks]
    by_cases hb : b = IBLOCK (s.icache ip).inum s.sb
    · subst hb
      rw [Function.update_self]
      exact get_storeFields _ (by omega)
    · rw [Function.update_of_ne hb]
  · rw [dinode_iupdate hsave, if_neg hj]
  · have hread : Mkfs.rsect (IBLOCK (s.icache ip).inum m.sb) m =
        .ok (m.img (IBLOCK (s.icache ip).inum m.sb)) m := by
      change (if _ then _ else _ : MkfsM Block) m = _
      rw [if_pos hsect]
      rfl
    change (Mkfs.rsect (IBLOCK (s.icache ip).inum m.sb) >>= fun buf =>
      Pure.pure (Dinode.decode buf (inodeOff (s.icache ip).inum))) m = _
    rw [Exec.bind_ok hread, himg, hsb, ← hself]
    rfl

/-- A transaction in which entry 0 of the cache holds a file of one block, with mode 420, that is not
on disk yet. -/
def savingFs : Fs :=
  { rootFs with
    toStore := rootFs.toStore.setInode ⟨0, ninode_pos⟩ ⟨2, 1, some 0, true,
      ({ Dinode.zero with type := T_FILE, nlink := 1, mode := 420, size := 5 }).setAddr 0 59⟩
    log := ⟨2, 30, 1, false, []⟩ }

/-- The file is saved beside the root directory, in the same block, and loaded through an entry that
does not hold it. -/
theorem inode_save_load_savingFs : ∃ s', ops.iupdate ⟨0, ninode_pos⟩ savingFs = .ok () s' ∧
    (s'.toStore.dinode ROOTINO).type = T_DIR ∧ (∃ u, ops.ilock ⟨0, ninode_pos⟩
      { s' with toStore := s'.toStore.setInode ⟨0, ninode_pos⟩ ⟨2, 1, none, false, Dinode.zero⟩ } =
        .ok () u ∧ (u.icache ⟨0, ninode_pos⟩).d = (savingFs.icache ⟨0, ninode_pos⟩).d) ∧
    ∀ m : Mkfs, m.sb = s'.sb → m.img = s'.blocks → IBLOCK 2 m.sb < m.nsect →
      Mkfs.rinode 2 m = .ok (savingFs.icache ⟨0, ninode_pos⟩).d m := by
  obtain ⟨s', hsave⟩ : ∃ s', ops.iupdate ⟨0, ninode_pos⟩ savingFs = .ok () s' := ⟨_, rfl⟩
  obtain ⟨hload, -, hother, hmkfs⟩ := inode_save_load (by decide) hsave
  obtain ⟨u, hlock, hu⟩ := hload
    { s' with toStore := s'.toStore.setInode ⟨0, ninode_pos⟩ ⟨2, 1, none, false, Dinode.zero⟩ }
    ⟨0, ninode_pos⟩ rfl rfl rfl rfl le_rfl rfl
  refine ⟨s', hsave, ?_, ⟨u, hlock, by rw [hu]⟩, hmkfs⟩
  have hroot : savingFs.toStore.dinode ROOTINO = rootFs.toStore.dinode ROOTINO := rfl
  rw [hother ROOTINO (by decide), hroot, rootFs_dinode, if_pos rfl]

end Fs

end Xv6
