import Mathlib.Data.List.TakeWhile
import Xv6.Proofs.InodeBlocks
import Xv6.Proofs.Mkfs

/-! The kernel on an image that `mkfs` wrote: a path of one element is found in the root
directory, and `readi` returns the bytes of the host file. -/

namespace Xv6

open List Fs

/-! Names. -/

variable {de : Dirent}

theorem Dirent.decode_encode (h : 0 ∉ de.name) :
    decode de.encode = ⟨de.inum % 2 ^ 16, de.name.take DIRSIZ⟩ := by
  have hlen : (Bytes.le 2 de.inum).length = 2 := Bytes.le_length 2 _
  have htake : de.encode.take 2 = Bytes.le 2 de.inum := by
    unfold encode
    rw [append_assoc, take_left' hlen]
  have hdrop : de.encode.drop 2 = de.name.take DIRSIZ ++
      replicate (DIRSIZ - (de.name.take DIRSIZ).length) 0 := by
    unfold encode
    rw [append_assoc, drop_left' hlen]
  have hname : ∀ c ∈ de.name.take DIRSIZ, decide (c ≠ 0) = true := fun c hc => by
    rw [decide_eq_true_eq]
    rintro rfl
    exact h (mem_of_mem_take hc)
  unfold decode
  rw [htake, hdrop, Bytes.leVal_le]
  congr 1
  have hsize : (de.name.take DIRSIZ ++
      replicate (DIRSIZ - (de.name.take DIRSIZ).length) 0).length ≤ DIRSIZ := by
    simp
  rw [take_of_length_le hsize, takeWhile_append_of_pos hname]
  cases DIRSIZ - (de.name.take DIRSIZ).length with
  | zero => simp
  | succ n => simp [replicate_succ]

variable {name : Str}

theorem pathElems_single (hne : name ≠ []) (hs : slash ∉ name) {k : ℕ} (hk : 2 ≤ k) :
    pathElems k (slash :: name) = [name.take DIRSIZ] := by
  obtain ⟨k, rfl⟩ := Nat.exists_eq_add_of_le' hk
  obtain ⟨c, cs, rfl⟩ := exists_cons_of_ne_nil hne
  have hall : ∀ x ∈ c :: cs, (x != slash) = true := fun x hx => by
    rw [bne_iff_ne]
    rintro rfl
    exact hs hx
  have hc : (c == slash) = false := by
    rw [beq_eq_false_iff_ne]
    exact bne_iff_ne.mp (hall c mem_cons_self)
  have hskip : skipelem (slash :: c :: cs) = some ((c :: cs).take DIRSIZ, []) := by
    unfold skipelem
    have hdw : (slash :: c :: cs).dropWhile (· == slash) = c :: cs := by
      rw [dropWhile_cons_of_pos (by simp), dropWhile_cons_of_neg (by simp [hc])]
    rw [hdw]
    simp only
    rw [takeWhile_eq_self_iff.mpr hall, dropWhile_eq_nil_iff.mpr hall]
    rfl
  rw [pathElems, hskip]
  rfl

namespace Mkfs

open Fs (IgetTo lockedInode)

variable {img : ℕ → Block} {l : Set Ptr} {k : ℕ} {s s' : Fs} {p q : Ptr} {i : ℕ}

/-! The inode cache over the image. -/

structure Sees (img : ℕ → Block) (l : Set Ptr) (k : ℕ) (s : Fs) : Prop where
  blocks : s.blocks = img
  sb : s.sb = Superblock.decode (img 1)
  unlocked : ∀ p, p ∉ l → (s.icache p).lock = none
  agrees : ∀ p, (s.icache p).Live → (s.icache p).d = s.toStore.dinode (s.icache p).inum
  room : k ≤ (Finset.univ.filter fun p => (s.icache p).ref = 0).card

theorem Mounted.sees (h : Mounted img k s) : Sees img ∅ k s :=
  ⟨h.blocks, h.sb, fun p _ => h.unlocked p, h.agrees, h.room⟩

def setEntry (s : Fs) (p : Ptr) (n : Inode) : Fs := { s with toStore := s.toStore.setInode p n }

theorem setEntry_icache (n : Inode) (q : Ptr) :
    ((setEntry s p n).icache q) = if q = p then n else s.icache q :=
  Store.setInode_icache q

variable {n : Inode}

theorem Sees.setEntry (h : Sees img l k s) {l' : Set Ptr} {k' : ℕ}
    (hl : ∀ q, q ≠ p → q ∉ l' → q ∉ l) (hlock : p ∉ l' → n.lock = none)
    (hd : n.Live → n.d = s.toStore.dinode n.inum)
    (hk : k' ≤ (Finset.univ.filter fun q => ((Mkfs.setEntry s p n).icache q).ref = 0).card) :
    Sees img l' k' (setEntry s p n) := by
  refine ⟨h.blocks, h.sb, fun q hq => ?_, fun q hq => ?_, hk⟩
  · rw [setEntry_icache]
    split_ifs with hqp
    · exact hlock (hqp ▸ hq)
    · exact h.unlocked q (hl q hqp hq)
  · rw [setEntry_icache] at hq ⊢
    split_ifs at hq ⊢ with hqp
    · exact hd hq
    · exact h.agrees q hq

theorem card_free_le (hp : (s.icache p).ref ≠ 0) :
    (Finset.univ.filter fun q => (s.icache q).ref = 0).card ≤
      (Finset.univ.filter fun q => ((setEntry s p n).icache q).ref = 0).card := by
  refine Finset.card_le_card fun q hq => ?_
  simp only [Finset.mem_filter, Finset.mem_univ, true_and, setEntry_icache] at hq ⊢
  split_ifs with hqp
  · exact absurd (hqp ▸ hq) hp
  · exact hq

theorem card_free_erase : (Finset.univ.filter fun q => (s.icache q).ref = 0).card ≤
      (Finset.univ.filter fun q => ((setEntry s p n).icache q).ref = 0).card + 1 := by
  refine le_trans (Finset.card_le_card (t := insert p _) fun q hq => ?_) (Finset.card_insert_le p _)
  simp only [Finset.mem_filter, Finset.mem_univ, true_and, setEntry_icache, Finset.mem_insert]
    at hq ⊢
  split_ifs with hqp
  · exact .inl hqp
  · exact .inr hq

theorem ops_icache_bind {α : Type} {f : (Ptr → Inode) → FsM α} :
    (ops.icache >>= f) s = f s.icache s := rfl

theorem iget_sees (h : Sees img l (k + 1) s) (i : ℕ) :
    ∃ p n, ops.iget i s = .ok p (setEntry s p n) ∧ IgetTo s.toStore i p n ∧
      Sees img l k (setEntry s p n) := by
  simp only [FsOps.iget, ops_icache_bind]
  cases hf : (finRange NINODE).find? fun p =>
      0 < (s.icache p).ref && (s.icache p).inum == i with
  | some p =>
    have hp := find?_some hf
    simp only [Bool.and_eq_true, decide_eq_true_eq, beq_iff_eq] at hp
    refine ⟨p, { s.icache p with ref := (s.icache p).ref + 1 }, rfl, .inl ⟨hp.1, hp.2, rfl⟩, ?_⟩
    refine h.setEntry (fun _ _ hq => hq) (h.unlocked p) (fun hl => h.agrees p ⟨hp.1, hl.2⟩) ?_
    exact (Nat.le_of_succ_le h.room).trans (card_free_le hp.1.ne')
  | none =>
    have hno : ∀ q, 0 < (s.icache q).ref → (s.icache q).inum ≠ i := by
      intro q hq e
      have := find?_eq_none.mp hf q (mem_finRange q)
      simp [hq, e] at this
    dsimp only
    cases hf' : (finRange NINODE).find? fun p => (s.icache p).ref == 0 with
    | some p =>
      have hp : (s.icache p).ref = 0 := by simpa using find?_some hf'
      refine ⟨p, { s.icache p with inum := i, ref := 1, valid := false }, rfl,
        .inr ⟨hp, hno, rfl⟩, ?_⟩
      refine h.setEntry (fun _ _ hq => hq) (h.unlocked p) (fun hl => absurd hl.2 Bool.false_ne_true) ?_
      have := h.room.trans (card_free_erase (s := s) (p := p)
        (n := { s.icache p with inum := i, ref := 1, valid := false }))
      omega
    | none =>
      obtain ⟨p, hp⟩ := Finset.card_pos.mp (lt_of_lt_of_le (Nat.succ_pos k) h.room)
      have := find?_eq_none.mp hf' p (mem_finRange p)
      simp only [Finset.mem_filter, Finset.mem_univ, true_and] at hp
      simp [hp] at this

theorem setEntry_setEntry {a b : Inode} : setEntry (setEntry s p a) p b = setEntry s p b := by
  unfold setEntry
  rw [Store.setInode_setInode]

@[simp] theorem setEntry_self : (setEntry s p n).icache p = n := by
  rw [setEntry_icache, if_pos rfl]

theorem acquiresleep_entry (h : (s.icache p).lock = none) :
    ops.acquiresleep p s = .ok () (setEntry s p { s.icache p with lock := some 0 }) := by
  rw [acquiresleep_apply, h]
  rfl

theorem releasesleep_entry (s : Fs) (p : Ptr) :
    ops.releasesleep p s = .ok () (setEntry s p { s.icache p with lock := none }) := rfl

theorem modifyInode_entry (s : Fs) (p : Ptr) (f : Inode → Inode) :
    ops.modifyInode p f s = .ok () (setEntry s p (f (s.icache p))) := rfl

theorem ilock_sees (h : Sees img l k s) (hp : p ∉ l) (hr : 0 < (s.icache p).ref)
    (ht : (s.toStore.dinode (s.icache p).inum).type ≠ 0) :
    ∃ n, ops.ilock p s = .ok () (setEntry s p n) ∧ n = { s.icache p with
        lock := some 0, valid := true, d := s.toStore.dinode (s.icache p).inum } ∧
      Sees img (insert p l) k (setEntry s p n) := by
  refine ⟨_, ?_, rfl, ?_⟩
  · change ((ops.panicIf ((s.icache p).ref < 1) .ilock >>= _) : FsM Unit) s = _
    unfold FsOps.panicIf
    rw [if_neg (by omega), pure_bind, Exec.bind_apply, acquiresleep_entry (h.unlocked p hp)]
    change (if ((setEntry s p { s.icache p with lock := some 0 }).icache p).valid = true then _
      else _ : FsM Unit) _ = _
    rw [setEntry_self]
    split_ifs with hv
    · change Res.ok () (setEntry s p { s.icache p with lock := some 0 }) = _
      have hd := h.agrees p ⟨hr, hv⟩
      have hn : ({ s.icache p with lock := some 0 } : Inode) = { s.icache p with
          lock := some 0, valid := true, d := s.toStore.dinode (s.icache p).inum } := by
        rw [← hd, ← hv]
      rw [hn]
    · change ((ops.panicIf ((s.toStore.dinode (s.icache p).inum).type = 0) .ilockNoType) : FsM Unit)
        (setEntry (setEntry s p _) p _) = _
      unfold FsOps.panicIf
      rw [if_neg ht, setEntry_setEntry]
      rfl
  · refine h.setEntry (fun q _ hq hql => hq (Set.mem_insert_of_mem p hql))
      (fun hn => absurd (Set.mem_insert p l) hn) (fun _ => rfl) ?_
    exact h.room.trans (card_free_le hr.ne')

theorem iunlock_entry (hlock : (s.icache p).lock = some 0) (hr : 0 < (s.icache p).ref) :
    ops.iunlock p s = .ok () (setEntry s p { s.icache p with lock := none }) := by
  change ((ops.panicIf ((!((s.icache p).lock == some 0)) = true ∨ (s.icache p).ref < 1)
    .iunlock >>= _) : FsM Unit) s = _
  unfold FsOps.panicIf
  rw [if_neg (by rw [hlock]; simp; omega), pure_bind]
  rfl

theorem iunlockput_sees (h : Sees img l k s) (hlock : (s.icache p).lock = some 0)
    (hl : (s.icache p).Live) (hlink : (s.icache p).d.nlink ≠ 0) :
    ∃ n, ops.iunlockput p s = .ok () (setEntry s p n) ∧
      n = { s.icache p with lock := none, ref := (s.icache p).ref - 1 } ∧
      Sees img (l \ {p}) k (setEntry s p n) := by
  refine ⟨_, ?_, rfl, ?_⟩
  · have hput : ops.iput p (setEntry s p { s.icache p with lock := none }) =
        .ok () (setEntry s p { s.icache p with lock := none, ref := (s.icache p).ref - 1 }) := by
      rw [FsOps.iput, ops_note_bind, Exec.bind_apply, acquiresleep_entry (by rw [setEntry_self]), setEntry_setEntry,
        setEntry_self]
      change ((if (((setEntry s p { s.icache p with lock := some 0 }).icache p).valid &&
        ((setEntry s p { s.icache p with lock := some 0 }).icache p).d.nlink == 0 &&
        ((setEntry s p { s.icache p with lock := some 0 }).icache p).ref == 1) = true then
          ops.ifree p else pure ()) >>= _ : FsM Unit)
        (setEntry s p { s.icache p with lock := some 0 }) = _
      rw [setEntry_self, if_neg (by simpa using fun _ h0 => absurd h0 hlink), pure_bind,
        Exec.bind_apply, releasesleep_entry, setEntry_setEntry, setEntry_self]
      dsimp only
      rw [modifyInode_entry, setEntry_setEntry, setEntry_self]
    unfold FsOps.iunlockput
    rw [Exec.bind_apply, iunlock_entry hlock hl.1]
    exact hput
  · refine h.setEntry (fun q hq hql => fun hm => hql ⟨hm, hq⟩) (fun _ => rfl)
      (fun hn => h.agrees p hl) ?_
    exact h.room.trans (card_free_le hl.1.ne')

/-! The root directory. -/

variable {files : List HostFile}

theorem Sees.dinode (h : Sees img l k s) (hf : Formatted files img) (i : ℕ) :
    s.toStore.dinode i = diskInode img i := by
  unfold Store.dinode diskInode
  rw [h.blocks, h.sb, hf.super]

def FirstMatch (files : List HostFile) (name : Str) (j : ℕ) (de : Dirent) : Prop :=
  (entries files)[j]? = some de ∧ namecmp name de.name = true ∧
    ∀ j' de', j' < j → (entries files)[j']? = some de' → namecmp name de'.name = false

theorem entries_length (files : List HostFile) : (entries files).length = files.length + 2 := by
  simp [entries]

variable {j : ℕ}

theorem direntBytes (hf : Formatted files img) (hj : (entries files)[j]? = some de) :
    fileBytes img (diskInode img ROOTINO) (DIRENTSIZE * j) DIRENTSIZE = de.encode := by
  obtain ⟨hlt, rfl⟩ := List.getElem?_eq_some_iff.mp hj
  have hj' : j < files.length + 2 := entries_length files ▸ hlt
  have hall := hf.rootBytes
  have hsplit : DIRENTSIZE * (files.length + 2) =
      DIRENTSIZE * j + (DIRENTSIZE + DIRENTSIZE * (files.length + 1 - j)) := by
    simp only [DIRENTSIZE]
    omega
  rw [← Bytes.record_flatMap DIRENTSIZE Dirent.encode length_encode _ j hlt, ← hall, hsplit,
    fileBytes_add, fileBytes_add, Nat.zero_add]
  have hl1 : (fileBytes img (diskInode img ROOTINO) 0 (DIRENTSIZE * j)).length = DIRENTSIZE * j := by
    simp [fileBytes]
  have hl2 : (fileBytes img (diskInode img ROOTINO) (DIRENTSIZE * j) DIRENTSIZE).length =
      DIRENTSIZE := by
    simp [fileBytes]
  rw [drop_left' hl1, take_left' hl2]

theorem namecmp_take (name name' : Str) : namecmp name (name'.take DIRSIZ) = namecmp name name' := by
  unfold namecmp
  rw [take_take, min_self]

theorem entries_valid (hlen : files.length + 1 < NINODES) (hnul : ∀ f ∈ files, 0 ∉ f.name)
    (hj : (entries files)[j]? = some de) : 0 < de.inum ∧ de.inum < NINODES ∧ 0 ∉ de.name := by
  unfold entries at hj
  match j with
  | 0 =>
    obtain rfl := Option.some.inj hj
    exact ⟨by decide, by decide, by decide⟩
  | 1 =>
    obtain rfl := Option.some.inj hj
    exact ⟨by decide, by decide, by decide⟩
  | j + 2 =>
    rw [getElem?_cons_succ, getElem?_cons_succ, getElem?_mapIdx] at hj
    obtain ⟨f, hf, rfl⟩ := Option.map_eq_some_iff.mp hj
    have hlt := (List.getElem?_eq_some_iff.mp hf).1
    refine ⟨Nat.succ_pos _, ?_, hnul f (List.mem_of_getElem? hf)⟩
    change j + 2 < NINODES
    omega

section

variable (hf : Formatted files img) (hb : s.blocks = img)
  (hd : (s.icache p).d = diskInode img ROOTINO) (hlen : files.length + 1 < NINODES)
include hf hb hd hlen

theorem readi_root (hj : (entries files)[j]? = some de) :
    DIRENTSIZE * j < (s.icache p).d.size.toNat ∧
      ops.readi p (DIRENTSIZE * j) DIRENTSIZE s = .ok (DIRENTSIZE, de.encode) s := by
  have hlt : j < files.length + 2 := entries_length files ▸ (List.getElem?_eq_some_iff.mp hj).1
  have hsize := hf.rootSize
  rw [← hd] at hsize
  have hend : DIRENTSIZE * j + DIRENTSIZE ≤ DIRENTSIZE * (files.length + 2) := by
    simp only [DIRENTSIZE]
    omega
  have hpos : 0 < DIRENTSIZE := by decide
  have hmin : min DIRENTSIZE ((s.icache p).d.size.toNat - DIRENTSIZE * j) = DIRENTSIZE := by omega
  have hsmall : DIRENTSIZE * j + DIRENTSIZE < 2 ^ 32 := by
    simp only [DIRENTSIZE, NINODES] at hlen hend ⊢
    omega
  refine ⟨by omega, ?_⟩
  rw [readi_backed ?_ (by omega) hsmall, hmin, hb, hd, direntBytes hf hj]
  · rw [hmin, hb, hd]
    exact fun bn hbn => hf.rootBacked bn (by omega)
  · rw [hd, hf.rootType]
    decide

theorem scan_round (hnul : ∀ f ∈ files, 0 ∉ f.name) {err : Panic} {stop : Dirent → Bool}
    {j fuel : ℕ} (hj : (entries files)[j]? = some de) :
    ops.scan p err stop (fuel + 1) (DIRENTSIZE * j) s = if stop ⟨de.inum, de.name.take DIRSIZ⟩ then
        .ok (some ⟨de.inum, de.name.take DIRSIZ⟩, DIRENTSIZE * j) s
      else ops.scan p err stop fuel (DIRENTSIZE * (j + 1)) s := by
  obtain ⟨hsize, hread⟩ := readi_root hf hb hd hlen hj
  obtain ⟨-, hinum, hname⟩ := entries_valid hlen hnul hj
  have hdec : Dirent.decode de.encode = ⟨de.inum, de.name.take DIRSIZ⟩ := by
    rw [Dirent.decode_encode hname, Nat.mod_eq_of_lt (hinum.trans (by decide))]
  rw [FsOps.scan]
  change (if DIRENTSIZE * j < (s.icache p).d.size.toNat then _ else _ : FsM _) s = _
  rw [if_pos hsize, Exec.bind_apply, hread]
  change ((ops.panicIf ((DIRENTSIZE : ℤ) ≠ DIRENTSIZE) err >>= _) : FsM _) s = _
  unfold FsOps.panicIf
  rw [if_neg (not_not.mpr rfl), pure_bind]
  change (if stop (Dirent.decode de.encode) = true then _ else _ : FsM _) s = _
  rw [hdec]
  split_ifs <;> rfl

theorem scan_root (hnul : ∀ f ∈ files, 0 ∉ f.name)
    (hm : FirstMatch files name j de) {m fuel : ℕ} (hfuel : m < fuel) (hj : m ≤ j) :
    ops.scan p .dirlookupRead (fun de => de.inum ≠ 0 && namecmp name de.name) fuel
      (DIRENTSIZE * (j - m)) s = .ok (some ⟨de.inum, de.name.take DIRSIZ⟩, DIRENTSIZE * j) s := by
  obtain ⟨hde, hmatch, hfirst⟩ := hm
  induction m generalizing fuel with
  | zero =>
    obtain ⟨fuel, rfl⟩ := Nat.exists_eq_succ_of_ne_zero hfuel.ne'
    have hpos := (entries_valid hlen hnul hde).1
    rw [Nat.sub_zero, scan_round hf hb hd hlen hnul hde, if_pos]
    simp only [namecmp_take, hmatch, Bool.and_true, decide_eq_true_eq]
    exact hpos.ne'
  | succ m ih =>
    obtain ⟨fuel, rfl⟩ := Nat.exists_eq_succ_of_ne_zero (Nat.ne_of_gt (Nat.zero_lt_of_lt hfuel))
    have hlt : j - (m + 1) < (entries files).length := by
      have := (List.getElem?_eq_some_iff.mp hde).1
      omega
    have hde' := List.getElem?_eq_getElem hlt
    have hno := hfirst _ _ (by omega) hde'
    rw [scan_round hf hb hd hlen hnul hde', if_neg]
    · rw [show j - (m + 1) + 1 = j - m by omega]
      exact ih (by omega) (by omega)
    · simp only [namecmp_take, hno, Bool.and_false, Bool.false_eq_true, not_false_eq_true]

end

theorem igetTo_spec {t : Store} (h : IgetTo t i p n) : n.inum = i ∧ 0 < n.ref ∧
      (0 < (t.icache p).ref → n = { t.icache p with ref := (t.icache p).ref + 1 }) := by
  rcases h with ⟨hr, hi, rfl⟩ | ⟨hr, -, rfl⟩
  · exact ⟨hi, Int.add_pos hr one_pos, fun _ => rfl⟩
  · exact ⟨rfl, one_pos, fun h => absurd h (by omega)⟩

theorem dirlookup_root (hf : Formatted files img) (h : Sees img l 1 s)
    (hd : (s.icache p).d = diskInode img ROOTINO) (hlen : files.length + 1 < NINODES)
    (hnul : ∀ f ∈ files, 0 ∉ f.name) (hm : FirstMatch files name j de) :
    ∃ q n, ops.dirlookup p name s = .ok (some (q, DIRENTSIZE * j)) (setEntry s q n) ∧
      IgetTo s.toStore de.inum q n ∧ Sees img l 0 (setEntry s q n) := by
  obtain ⟨q, n, hget, hto, hsees⟩ := iget_sees h de.inum
  refine ⟨q, n, ?_, hto, hsees⟩
  have hj : j < files.length + 2 := entries_length files ▸ (List.getElem?_eq_some_iff.mp hm.1).1
  have hfuel : j < (s.icache p).d.size.toNat / DIRENTSIZE + 1 := by
    have := hf.rootSize
    rw [← hd] at this
    simp only [DIRENTSIZE] at *
    omega
  have hscan := scan_root hf h.blocks hd hlen hnul hm hfuel le_rfl
  rw [Nat.sub_self, Nat.mul_zero] at hscan
  have hall : ops.scanAll p .dirlookupRead (fun de => de.inum ≠ 0 && namecmp name de.name) 0 s =
      .ok (some ⟨de.inum, de.name.take DIRSIZ⟩, DIRENTSIZE * j) s := hscan
  change ((ops.panicIf ((s.icache p).d.type ≠ T_DIR) .dirlookupNotDir >>= _) : FsM _) s = _
  unfold FsOps.panicIf
  rw [if_neg (by rw [hd, hf.rootType]; exact not_not.mpr rfl), pure_bind]
  rw [Exec.bind_apply, hall]
  change (ops.iget de.inum >>= _) s = _
  rw [Exec.bind_apply, hget]
  rfl

theorem namei_root (hf : Formatted files img) (h : Mounted img 2 s)
    (hlen : files.length + 1 < NINODES) (hnul : ∀ f ∈ files, 0 ∉ f.name)
    (hne : name ≠ []) (hslash : slash ∉ name) (hm : FirstMatch files name j de) :
    ∃ p s', ops.namei (slash :: name) s = .ok (some p) s' ∧ (s'.icache p).inum = de.inum ∧
      0 < (s'.icache p).ref ∧ Sees img ∅ 0 s' := by
  have hm' : FirstMatch files (name.take DIRSIZ) j de := by
    simpa only [FirstMatch, namecmp, take_take, min_self] using hm
  -- the reference to the root directory
  obtain ⟨p, n1, hget, hto1, h1⟩ := iget_sees h.sees ROOTINO
  obtain ⟨hi1, hr1, -⟩ := igetTo_spec hto1
  set s1 := setEntry s p n1
  have hp1 : s1.icache p = n1 := setEntry_self
  have hdin : s1.toStore.dinode (s1.icache p).inum = diskInode img ROOTINO := by
    rw [hp1, hi1, h1.dinode hf]
  obtain ⟨n2, hlock, hn2, h2⟩ := ilock_sees h1 (Set.notMem_empty p) (by rwa [hp1])
    (by rw [hdin, hf.rootType]; decide)
  set s2 := setEntry s1 p n2
  have hp2 : s2.icache p = n2 := setEntry_self
  rw [hdin, hp1] at hn2
  have hd2 : (s2.icache p).d = diskInode img ROOTINO := by rw [hp2, hn2]
  obtain ⟨q, n3, hlook, hto3, h3⟩ := dirlookup_root hf h2 hd2 hlen hnul hm'
  obtain ⟨hi3, hr3, hsame⟩ := igetTo_spec hto3
  set s3 := setEntry s2 q n3
  have hq3 : s3.icache q = n3 := setEntry_self
  -- the entry of the root, which may be the one found
  have hp3 : s3.icache p = if p = q then { n2 with ref := n2.ref + 1 } else n2 := by
    rw [setEntry_icache]
    split_ifs with hpq
    · subst hpq
      rw [hsame (by rw [hp2, hn2]; exact hr1), hp2]
    · exact hp2
  have hlk3 : (s3.icache p).lock = some 0 := by
    rw [hp3]
    split_ifs <;> rw [hn2]
  have hv3 : (s3.icache p).valid = true ∧ (s3.icache p).d = diskInode img ROOTINO := by
    rw [hp3]
    split_ifs <;> rw [hn2] <;> exact ⟨rfl, rfl⟩
  have hrp3 : 0 < (s3.icache p).ref := by
    rw [hp3]
    split_ifs <;> rw [hn2]
    · exact Int.add_pos hr1 one_pos
    · exact hr1
  obtain ⟨n4, hput, hn4, h4⟩ := iunlockput_sees h3 hlk3 ⟨hrp3, hv3.1⟩ (by
    rw [hv3.2, hf.rootLink]
    decide)
  refine ⟨q, setEntry s3 p n4, ?_, ?_, ?_, ?_⟩
  · have hwalk : ops.walk false p [name.take DIRSIZ] s1 = .ok (some (q, [])) (setEntry s3 p n4) := by
      rw [FsOps.walk, Exec.bind_apply, hlock]
      change (if (s2.icache p).d.type ≠ T_DIR then _ else _ : FsM _) s2 = _
      rw [if_neg (by rw [hd2, hf.rootType]; exact not_not.mpr rfl), if_neg (by simp),
        Exec.bind_apply, hlook]
      change (ops.iunlockput p >>= _) s3 = _
      rw [Exec.bind_apply, hput]
      rfl
    have hpath : pathElems ((slash :: name).length + 1) (slash :: name) = [name.take DIRSIZ] :=
      pathElems_single hne hslash (by simp)
    unfold FsOps.namei FsOps.namex
    rw [hpath]
    dsimp only
    rw [if_pos (by rfl), Exec.bind_apply, Exec.bind_apply, hget]
    dsimp only
    rw [hwalk]
    rfl
  · rw [setEntry_icache]
    split_ifs with hqp
    · subst hqp
      rw [hn4, hq3]
      exact hi3
    · rw [hq3, hi3]
  · rw [setEntry_icache]
    split_ifs with hqp
    · subst hqp
      rw [hn4, hp3, if_pos rfl, hn2]
      simpa using hr1
    · rw [hq3]
      exact hr3
  · simpa using h4

/-! The files of the command line. -/

theorem mem_arg_of_mem_name {f : HostFile} {c : UInt8} (h : c ∈ f.name) : c ∈ f.arg := by
  unfold HostFile.name at h
  split at h
  · exact absurd h not_mem_nil
  · rename_i a as heq
    rw [heq]
    split_ifs at h
    · exact mem_cons_of_mem a h
    · exact h

theorem firstMatch_file (hdist : files.Pairwise fun f g => f.name.take DIRSIZ ≠ g.name.take DIRSIZ)
    (hdots : ∀ f ∈ files, f.name ≠ dot ∧ f.name ≠ dotdot) {f : HostFile}
    (hj : files[j]? = some f) : FirstMatch files f.name (j + 2) ⟨j + 2, f.name⟩ := by
  obtain ⟨hlt, rfl⟩ := List.getElem?_eq_some_iff.mp hj
  have hdot := hdots _ (List.getElem_mem hlt)
  have hshort : ∀ d : Str, d.length < DIRSIZ → files[j].name ≠ d → namecmp files[j].name d = false := by
    intro d hd hne
    unfold namecmp
    rw [beq_eq_false_iff_ne, take_of_length_le hd.le]
    intro e
    have hlen := congrArg length e
    rw [length_take] at hlen
    rw [take_of_length_le (by omega)] at e
    exact hne e
  refine ⟨?_, by simp [namecmp], fun j' de' hj' hde' => ?_⟩
  · unfold entries
    rw [getElem?_cons_succ, getElem?_cons_succ, getElem?_mapIdx, hj]
    rfl
  · unfold entries at hde'
    match j' with
    | 0 =>
      obtain rfl := Option.some.inj hde'
      exact hshort dot (by decide) hdot.1
    | 1 =>
      obtain rfl := Option.some.inj hde'
      exact hshort dotdot (by decide) hdot.2
    | k + 2 =>
      rw [getElem?_cons_succ, getElem?_cons_succ, getElem?_mapIdx] at hde'
      obtain ⟨g, hg, rfl⟩ := Option.map_eq_some_iff.mp hde'
      obtain ⟨hk, rfl⟩ := List.getElem?_eq_some_iff.mp hg
      have hne := List.pairwise_iff_getElem.mp hdist k j hk hlt (by omega)
      exact beq_eq_false_iff_ne.mpr (Ne.symm hne)

theorem fileBytes_drop (d : Dinode) (off m n : ℕ) (h : off + m ≤ n) :
    fileBytes img d off m = ((fileBytes img d 0 n).drop off).take m := by
  obtain ⟨r, rfl⟩ := Nat.exists_eq_add_of_le h
  have hl : ∀ o len, (fileBytes img d o len).length = len := fun o len => by simp [fileBytes]
  rw [Nat.add_assoc, fileBytes_add, fileBytes_add, Nat.zero_add, drop_left' (hl 0 off),
    take_left' (hl off m)]

theorem readi_file {d : Dinode} {bs : List UInt8} {own : Set ℕ} (hh : Holds img d T_FILE bs own)
    (hb : s.blocks = img) (hd : (s.icache p).d = d) {off n : ℕ} (hn : off + n < 2 ^ 32) :
    ∃ r, ops.readi p off n s = .ok (r, (bs.drop off).take n) s ∧
      (off ≤ bs.length → r = ((bs.drop off).take n).length) := by
  have hsize : (s.icache p).d.size.toNat = bs.length := by rw [hd, hh.size]
  have hdev : (s.icache p).d.type ≠ T_DEV := by
    rw [hd, hh.type]
    decide
  by_cases hoff : off ≤ bs.length
  · have hle : off + min n (bs.length - off) ≤ bs.length := by omega
    have hlen : min n (bs.length - off) = ((bs.drop off).take n).length := by
      rw [length_take, length_drop]
    have htake : (bs.drop off).take (min n (bs.length - off)) = (bs.drop off).take n := by
      rw [take_eq_take_iff, length_drop]
      omega
    refine ⟨((bs.drop off).take n).length, ?_, fun _ => rfl⟩
    rw [readi_backed hdev (by rwa [hsize]) hn, hsize, hb, hd, fileBytes_drop d off _ _ hle,
      hh.bytes, htake, hlen]
    rw [hsize, hb, hd]
    exact fun bn hbn => hh.backed bn (by omega)
  · refine ⟨-1, ?_, fun h => absurd h hoff⟩
    rw [drop_eq_nil_of_le (by omega), take_nil]
    change (if (s.icache p).d.type = T_DEV then _ else _ : FsM _) s = _
    rw [if_neg hdev]
    dsimp only
    rw [if_pos (.inl (by rw [hsize]; omega))]
    rfl

/-- For every command line that fits and has no file named "." or "..", `mkfs` completes with
the blocks that the files need, and the kernel reads each file back. -/
theorem mkfs_kernel_agree (hin : Inputs files) (hdots : ∀ f ∈ files, f.name ≠ dot ∧ f.name ≠ dotdot) :
    ∃ s, main files start = .ok () s ∧ s.freeblock = blocksUsed files ∧
      ∀ f ∈ files, Readable s.img f := by
  obtain ⟨s, own, hrun, hfin⟩ := main_image (hin.inodes.trans_le ninodes_le) hin.blocks
    (fun f hf => (hin.arg f hf).2) hin.size
  have hform := hfin.formatted
  have hnul : ∀ f ∈ files, 0 ∉ f.name := fun f hf hm => (hin.arg f hf).1 (mem_arg_of_mem_name hm)
  refine ⟨s, hrun, hfin.freeblock, fun f hf t ht => ?_⟩
  obtain ⟨j, hj⟩ := mem_iff_getElem?.mp hf
  obtain ⟨own, hh⟩ := hform.file j f hj
  obtain ⟨p, t1, hname, hi, hr, hsees⟩ := namei_root hform ht hin.inodes hnul (hin.nonempty f hf)
    (fun hm => (hin.arg f hf).2 (mem_arg_of_mem_name hm)) (firstMatch_file hin.distinct hdots hj)
  have hdin : t1.toStore.dinode (t1.icache p).inum = diskInode s.img (j + 2) := by
    rw [hi, hsees.dinode hform]
  obtain ⟨n, hlock, hn, hsees'⟩ := ilock_sees hsees (Set.notMem_empty p) hr (by
    rw [hdin, hh.type]
    decide)
  have hd : ((setEntry t1 p n).icache p).d = diskInode s.img (j + 2) := by
    rw [setEntry_self, hn, hdin]
  refine ⟨p, t1, setEntry t1 p n, hname, hlock, ?_, ?_, ?_, ?_, fun off m hm => ?_⟩
  · rw [hd, hh.type]
  · rw [hd, hh.nlink]
  · rw [hd, hh.mode]
  · rw [hd, hh.size]
  · exact readi_file hh hsees'.blocks hd hm

def boot (img : ℕ → Block) : Fs where
  sb := Superblock.decode (img 1)
  blocks := img
  icache _ := ⟨0, 0, none, false, Dinode.zero⟩
  log := ⟨2, nlog, 0, false, []⟩
  brackets := []
  granted := []
  ftable _ := ⟨.none, 0, false, false, ⟨0, ninode_pos⟩, 0⟩
  ofile _ := none
  cwd := none
  devsw _ := ⟨none, none⟩
  isInit := false

theorem boot_mounted (img : ℕ → Block) : Mounted img 2 (boot img) where
  blocks := rfl
  sb := rfl
  unlocked _ := rfl
  agrees _ hp := absurd hp.1 (lt_irrefl 0)
  room := by
    have hall : ∀ p ∈ Finset.univ, ((boot img).icache p).ref = 0 := fun _ _ => rfl
    rw [Finset.filter_true_of_mem hall, Finset.card_univ, Fintype.card_fin]
    decide

def catFile : HostFile := ⟨[95, 99, 97, 116], [[1, 2], [3]], by decide, by decide⟩

theorem mkfs_kernel_agree_cat : ∃ s, main [catFile] start = .ok () s ∧
    Mounted s.img 2 (boot s.img) ∧ Readable s.img catFile := by
  have hin : Inputs [catFile] := by
    refine ⟨by decide, by decide, by decide, by decide, by decide, pairwise_singleton _ _⟩
  obtain ⟨s, hrun, -, hread⟩ := mkfs_kernel_agree hin (by decide)
  exact ⟨s, hrun, boot_mounted s.img, hread catFile (mem_singleton_self _)⟩

def dotFile : HostFile := ⟨[95, 46], [], by decide, HostFile.length_le_nil⟩

/-- `mkfs` accepts it, but the kernel finds the root directory under that name. -/
theorem dotFile_not_readable : Inputs [dotFile] ∧
    ∃ s, main [dotFile] start = .ok () s ∧ ¬Readable s.img dotFile := by
  have hin : Inputs [dotFile] := by
    refine ⟨by decide, by decide, by decide, by decide, by decide, pairwise_singleton _ _⟩
  obtain ⟨s, own, hrun, hfin⟩ := main_image (hin.inodes.trans_le ninodes_le) hin.blocks
    (fun f hf => (hin.arg f hf).2) hin.size
  have hform := hfin.formatted
  refine ⟨hin, s, hrun, fun hread => ?_⟩
  have hm : FirstMatch [dotFile] dotFile.name 0 ⟨ROOTINO, dot⟩ :=
    ⟨rfl, by decide, fun _ _ h => absurd h (Nat.not_lt_zero _)⟩
  obtain ⟨p, t, hname, hi, hr, hsees⟩ := namei_root hform (boot_mounted s.img) hin.inodes
    (by decide) (by decide) (by decide) hm
  obtain ⟨p', t1, t2, hname', hlock', htype, -⟩ := hread (boot s.img) (boot_mounted s.img)
  obtain ⟨rfl, rfl⟩ : p = p' ∧ t = t1 := by
    rw [hname] at hname'
    injection hname' with h1 h2
    exact ⟨Option.some.inj h1, h2⟩
  have hdin : t.toStore.dinode (t.icache p).inum = diskInode s.img ROOTINO := by
    rw [hi, hsees.dinode hform]
  obtain ⟨n, hlock, hn, -⟩ := ilock_sees hsees (Set.notMem_empty p) hr (by
    rw [hdin, hform.rootType]
    decide)
  rw [hlock] at hlock'
  injection hlock' with _ h2
  rw [← h2, setEntry_self, hn, hdin, hform.rootType] at htype
  exact absurd htype (by decide)

end Mkfs

end Xv6
