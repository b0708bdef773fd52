import Mathlib
import Xv6.Proofs.Iappend

/-! `mkfs` completes and leaves an image in which every inode holds the bytes appended to
it. -/

open Function List Buffer

open Exec (bind_apply get)

namespace Xv6.Mkfs

open Store (slotOf slotIdx)

variable {s : Mkfs} {d : Dinode} {own : ℕ → Set ℕ} {bytes : ℕ → List UInt8} {i : ℕ}

/-! Disk inodes. -/

def store (s : Mkfs) : Store := ⟨s.sb, s.img, fun _ => ⟨0, 0, none, false, Dinode.zero⟩⟩

theorem rinode_ok (h : IBLOCK i s.sb < s.nsect) : rinode i s = .ok (s.store.dinode i) s := by
  change (rsect (IBLOCK i s.sb) >>= _) s = _
  rw [bind_apply, rsect_ok h]
  rfl

theorem winode_ok (h : IBLOCK i s.sb < s.nsect) : winode i d s = .ok () { s with
      img := (s.store.setDinode i d).blocks
      inodeSects := IBLOCK i s.sb :: s.inodeSects } := by
  change (rsect (IBLOCK i s.sb) >>= _) s = _
  rw [bind_apply, rsect_ok h]
  change (wsect (IBLOCK i s.sb) _ >>= _) s = _
  rw [bind_apply, wsect_ok h]
  rfl

theorem ninodes_le : NINODES ≤ inodeRoom := by decide

theorem iblock_mem (hi : i < inodeRoom) :
    superblock.inodestart ≤ IBLOCK i superblock ∧ IBLOCK i superblock < superblock.bmapstart := by
  simp only [IBLOCK, superblock, inodeRoom, ninodeblocks, NINODES, nlog, LOGSIZE, MAXOPBLOCKS, IPB,
    BSIZE, DINODESIZE] at *
  omega

theorem iblock_lt (hi : i < inodeRoom) :
    1 < IBLOCK i superblock ∧ IBLOCK i superblock < superblock.bmapstart :=
  ⟨lt_of_lt_of_le (by decide) (iblock_mem hi).1, (iblock_mem hi).2⟩

theorem bmapstart_lt : superblock.bmapstart < nmeta := by decide

theorem nmeta_le : nmeta ≤ FSSIZE := by decide

/-- The inode has the given type and one link, and holds the bytes in the blocks `own`. -/
structure Holds (img : ℕ → Block) (d : Dinode) (type : Short) (bytes : List UInt8)
    (own : Set ℕ) : Prop where
  type : d.type = type
  nlink : d.nlink = 1
  mode : d.mode = 493
  size : d.size.toNat = bytes.length
  extent : Extent img d (dataBlocks bytes.length) own
  bytes : fileBytes img d 0 bytes.length = bytes

variable {type : Short} {bs : List UInt8}

theorem Holds.congr {img img' : ℕ → Block} {own : Set ℕ}
    (h : Holds img d type bs own) (hown : ∀ b ∈ own, img' b = img b) : Holds img' d type bs own := by
  have hind : NDIRECT < dataBlocks bs.length → img' (d.addr NDIRECT) = img (d.addr NDIRECT) :=
    fun hi => hown _ (h.extent.ind_mem hi)
  refine { h with extent := h.extent.congr hind, bytes := ?_ }
  refine Eq.trans (map_congr_left fun k hk => ?_) h.bytes
  have hk := mem_range.mp hk
  have hb := dataBlocks_bounds bs.length
  have hkb : (0 + k) / BSIZE < dataBlocks bs.length := by
    simp only [BSIZE] at *
    omega
  unfold fileByte
  rw [h.extent.slot_congr hind, hown _ (h.extent.mem _ hkb)]

/-! The image while it is written. -/

def typeOf (i : ℕ) : Short := if i = ROOTINO then T_DIR else T_FILE

def cost (bytes : ℕ → List UInt8) (n : ℕ) : ℕ := ∑ i ∈ Finset.range n, fileBlocks (bytes i).length

theorem cost_update (bytes : ℕ → List UInt8) {n : ℕ} (hi : i < n) (bs : List UInt8) :
    cost (update bytes i bs) n + fileBlocks (bytes i).length =
      cost bytes n + fileBlocks bs.length := by
  have hmem : i ∈ Finset.range n := Finset.mem_range.mpr hi
  have hrest : ∑ j ∈ (Finset.range n).erase i, fileBlocks (update bytes i bs j).length =
      ∑ j ∈ (Finset.range n).erase i, fileBlocks (bytes j).length :=
    Finset.sum_congr rfl fun j hj => by rw [update_of_ne (Finset.ne_of_mem_erase hj)]
  unfold cost
  rw [← Finset.add_sum_erase _ _ hmem, ← Finset.add_sum_erase _ _ hmem, hrest, update_self]
  omega

theorem cost_mono {bytes' : ℕ → List UInt8} {m n : ℕ} (hmn : m ≤ n)
    (h : ∀ i < m, (bytes i).length ≤ (bytes' i).length) : cost bytes m ≤ cost bytes' n := by
  calc cost bytes m ≤ cost bytes' m :=
        Finset.sum_le_sum fun i hi => fileBlocks_mono (h i (Finset.mem_range.mp hi))
    _ ≤ cost bytes' n := Finset.sum_le_sum_of_subset (Finset.range_subset_range.mpr hmn)

structure Image (bytes : ℕ → List UInt8) (own : ℕ → Set ℕ) (s : Mkfs) : Prop where
  sb : s.sb = superblock
  super : s.img 1 = zero.patch 0 superblock.encode
  nsect : s.nsect = FSSIZE
  inodes : 0 < s.freeinode ∧ s.freeinode ≤ inodeRoom
  used : s.freeblock = nmeta + cost bytes s.freeinode
  room : s.freeblock ≤ FSSIZE
  fresh : ∀ b, s.freeblock ≤ b → s.img b = zero
  holds : ∀ i, 0 < i → i < s.freeinode → Holds s.img (s.store.dinode i) (typeOf i) (bytes i) (own i)
  range : ∀ i, ∀ b ∈ own i, nmeta ≤ b ∧ b < s.freeblock
  disjoint : ∀ i j, i ≠ j → Disjoint (own i) (own j)
  rest : ∀ i, i = 0 ∨ s.freeinode ≤ i → bytes i = [] ∧ own i = ∅
  blank : ∀ i < inodeRoom, i = 0 ∨ s.freeinode ≤ i → s.store.dinode i = Dinode.zero
  wrote : ∀ b ∈ s.inodeSects, superblock.inodestart ≤ b ∧ b < superblock.bmapstart

section

variable (h : Image bytes own s)
include h

theorem Image.iblock_lt (hi : i < inodeRoom) : IBLOCK i s.sb < s.nsect := by
  have hb := Mkfs.iblock_lt hi
  rw [h.sb, h.nsect]
  exact hb.2.trans (bmapstart_lt.trans_le nmeta_le)

theorem Image.iblock_notMem {j : ℕ} (hi : i < inodeRoom) : IBLOCK i s.sb ∉ own j := by
  intro hm
  have hb := Mkfs.iblock_lt hi
  have hr := (h.range j _ hm).1
  have := bmapstart_lt
  rw [h.sb] at hr
  omega

theorem Image.ready (i : ℕ) : Ready (own i) s where
  lt b hb := (h.range i b hb).2
  pos := by
    rw [h.used]
    exact Nat.add_pos_left (by decide) _
  fresh := h.fresh
  nsect := by
    rw [h.nsect]
    decide

theorem Image.setDinode (hi : i < inodeRoom) {e : Dinode} {j : ℕ}
    (hj : Holds s.img e type bs (own j)) :
    Holds (s.store.setDinode i d).blocks e type bs (own j) := by
  refine hj.congr fun b hb => Store.setDinode_blocks_ne ?_
  rintro rfl
  exact h.iblock_notMem hi hb

theorem Image.wrote_cons (hi : i < inodeRoom) :
    ∀ b ∈ IBLOCK i s.sb :: s.inodeSects, superblock.inodestart ≤ b ∧ b < superblock.bmapstart := by
  intro b hb
  rcases mem_cons.mp hb with rfl | hb
  · rw [h.sb]
    exact iblock_mem hi
  · exact h.wrote b hb

theorem ialloc_image (hn : s.freeinode < inodeRoom) (ht : type = typeOf s.freeinode) :
    ∃ s', ialloc type s = .ok s.freeinode s' ∧ Image bytes own s' ∧
      s'.freeinode = s.freeinode + 1 := by
  obtain ⟨hb, ho⟩ := h.rest s.freeinode (.inr le_rfl)
  have hib := Mkfs.iblock_lt hn
  have hm := bmapstart_lt
  set d : Dinode := { Dinode.zero with type := type, nlink := 1, size := 0, mode := 493 } with hd
  have hnil : Holds s.img d (typeOf s.freeinode) (bytes s.freeinode) (own s.freeinode) := by
    rw [hb, ho]
    exact ⟨ht, rfl, rfl, rfl, extent_nil (Dinode.addr_of_zero rfl), rfl⟩
  have hdin : ∀ j, (s.store.setDinode s.freeinode d).dinode j =
      if j = s.freeinode then d else s.store.dinode j := fun j => Store.setDinode_dinode
  have hne : ∀ c, c ≠ IBLOCK s.freeinode superblock →
      (s.store.setDinode s.freeinode d).blocks c = s.img c := fun c hc =>
    Store.setDinode_blocks_ne (t := s.store) (by
      change c ≠ IBLOCK s.freeinode s.sb
      rwa [h.sb])
  refine ⟨{ s with
    img := (s.store.setDinode s.freeinode d).blocks
    freeinode := s.freeinode + 1
    inodeSects := IBLOCK s.freeinode s.sb :: s.inodeSects }, ?_, ?_, rfl⟩
  · change (winode s.freeinode d >>= _) { s with freeinode := s.freeinode + 1 } = _
    rw [bind_apply, winode_ok (by exact h.iblock_lt hn)]
    rfl
  · refine ⟨h.sb, ?_, h.nsect, ⟨by simp, hn⟩, ?_, h.room, fun b hb' => ?_, fun j hj hj' => ?_, h.range,
      h.disjoint, fun j hj => h.rest j (by simp only at hj; omega), fun j hj hj' => ?_,
      h.wrote_cons hn⟩
    · change (s.store.setDinode s.freeinode d).blocks 1 = _
      rw [hne 1 (by omega), h.super]
    · change s.freeblock = nmeta + cost bytes (s.freeinode + 1)
      unfold cost
      rw [Finset.sum_range_succ, hb, h.used]
      rfl
    · have hb' : s.freeblock ≤ b := hb'
      have := h.used
      change (s.store.setDinode s.freeinode d).blocks b = _
      rw [hne b (by omega), h.fresh b hb']
    · change Holds (s.store.setDinode s.freeinode d).blocks
        ((s.store.setDinode s.freeinode d).dinode j) (typeOf j) (bytes j) (own j)
      rw [hdin]
      split_ifs with hjn
      · subst hjn
        exact h.setDinode hn hnil
      · have hj' : j < s.freeinode + 1 := hj'
        exact h.setDinode hn (h.holds j hj (by omega))
    · have hpos := h.inodes.1
      have hj' : j = 0 ∨ s.freeinode + 1 ≤ j := hj'
      change (s.store.setDinode s.freeinode d).dinode j = _
      rw [hdin, if_neg (by omega)]
      exact h.blank j hj (by omega)

theorem iappend_image {p : List UInt8} (hi : 0 < i) (hlt : i < s.freeinode)
    (hmax : (bytes i).length + p.length ≤ MAXFILE * BSIZE)
    (hroom : nmeta + cost (update bytes i (bytes i ++ p)) s.freeinode ≤ FSSIZE) :
    ∃ s' own', iappend i p s = .ok () s' ∧ Image (update bytes i (bytes i ++ p)) own' s' ∧
      s'.freeinode = s.freeinode := by
  have hd := h.holds i hi hlt
  have hn : i < inodeRoom := hlt.trans_le h.inodes.2
  have hib := Mkfs.iblock_lt hn
  have hm := bmapstart_lt
  have hused := h.used
  have hnsect := h.nsect
  have hcost := cost_update bytes hlt (bytes i ++ p)
  rw [length_append] at hcost
  obtain ⟨d', img', F', hrun, ha⟩ := appendFrom_spec (p := p) hd.extent (h.ready i)
    (by rw [hnsect]; exact h.room) hmax (by omega)
  have hg := ha.grown
  have hF := hg.le
  have hF' := ha.used
  set t : Mkfs := { s with img := img', freeblock := F' } with ht
  set d'' : Dinode := { d' with size := .ofNat 32 ((bytes i).length + p.length) } with hd''
  set own' := update own i (own i ∪ Set.Ico s.freeblock F') with hown'
  have hne : ∀ c, c ≠ IBLOCK i superblock → (t.store.setDinode i d'').blocks c = img' c :=
    fun c hc => Store.setDinode_blocks_ne (t := t.store) (by
      change c ≠ IBLOCK i s.sb
      rwa [h.sb])
  have hdin : ∀ j, (t.store.setDinode i d'').dinode j = if j = i then d'' else t.store.dinode j :=
    fun j => Store.setDinode_dinode
  -- blocks that are neither of inode `i` nor taken now are as before
  have hsame : ∀ c, c ∉ own i → c < s.freeblock ∨ F' ≤ c → img' c = s.img c := hg.frame
  have hrange : ∀ j, ∀ b ∈ own' j, nmeta ≤ b ∧ b < F' := by
    intro j b hb
    rw [hown', update_apply] at hb
    split_ifs at hb
    · rcases hb with hb | ⟨h₁, h2⟩
      · have := h.range i b hb
        omega
      · omega
    · have := h.range j b hb
      omega
  -- appending leaves the inode blocks alone
  have hdj : ∀ j < inodeRoom, t.store.dinode j = s.store.dinode j := by
    intro j hj
    have hjb := Mkfs.iblock_lt hj
    have hblk : img' (IBLOCK j s.sb) = s.img (IBLOCK j s.sb) := by
      rw [h.sb]
      refine hsame _ (fun hb => ?_) (.inl (by omega))
      have := (h.range i _ hb).1
      omega
    change Dinode.decode (img' (IBLOCK j s.sb)) _ = Dinode.decode (s.img (IBLOCK j s.sb)) _
    rw [hblk]
  refine ⟨{ t with
    img := (t.store.setDinode i d'').blocks
    inodeSects := IBLOCK i s.sb :: s.inodeSects }, own', ?_, ⟨h.sb, ?_, hnsect, h.inodes,
    ?_, ?_, fun b hb => ?_, fun j hj hj' => ?_, hrange, fun j k hjk => ?_, fun j hj => ?_,
    fun j hj hj' => ?_, h.wrote_cons hn⟩, rfl⟩
  · unfold iappend
    rw [bind_apply, rinode_ok (h.iblock_lt hn)]
    change (appendFrom (s.store.dinode i) (s.store.dinode i).size.toNat p >>= _) s = _
    rw [bind_apply, hd.size, hrun]
    exact winode_ok (s := t) (h.iblock_lt hn)
  · change (t.store.setDinode i d'').blocks 1 = _
    rw [hne 1 (by omega), hsame 1 (fun hb => ?_) (.inl (by omega)), h.super]
    have := (h.range i 1 hb).1
    omega
  · change F' = nmeta + cost _ s.freeinode
    omega
  · change F' ≤ FSSIZE
    omega
  · have hb : F' ≤ b := hb
    change (t.store.setDinode i d'').blocks b = _
    rw [hne b (by omega), hsame b (fun hb' => ?_) (.inr hb), h.fresh b (by omega)]
    have := (h.range i b hb').2
    omega
  · change Holds (t.store.setDinode i d'').blocks ((t.store.setDinode i d'').dinode j) (typeOf j)
      (update bytes i (bytes i ++ p) j) (own' j)
    have hown : ∀ b ∈ own' j, (t.store.setDinode i d'').blocks b = img' b := fun b hb =>
      hne b (by have := (hrange j b hb).1; omega)
    rw [hdin]
    by_cases hji : j = i
    · subst hji
      rw [if_pos rfl, update_self]
      refine Holds.congr ?_ hown
      rw [hown', update_self]
      refine ⟨?_, ?_, ?_, ?_, ?_, ?_⟩
      · exact (congrArg Dinode.type hg.addrs).trans hd.type
      · exact (congrArg Dinode.nlink hg.addrs).trans hd.nlink
      · exact (congrArg Dinode.mode hg.addrs).trans hd.mode
      · rw [length_append]
        refine Nat.mod_eq_of_lt (lt_of_le_of_lt hmax (by decide))
      · rw [length_append]
        exact ha.extent.of_addrs rfl
      · rw [length_append]
        exact ha.bytes.trans (congrArg (· ++ p) hd.bytes)
    · -- the blocks of the other inodes and their disk inodes
      have hj' : j < s.freeinode := hj'
      rw [if_neg hji, update_of_ne hji, hdj j (hj'.trans_le h.inodes.2)]
      refine Holds.congr ?_ hown
      rw [hown', update_of_ne hji]
      refine (h.holds j hj hj').congr fun b hb => hsame b ?_ (.inl (h.range j b hb).2)
      exact Set.disjoint_left.mp (h.disjoint j i hji) hb
  · -- a block taken now is above those taken before
    have hnew : ∀ k, k ≠ i → Disjoint (own i ∪ Set.Ico s.freeblock F') (own k) := by
      intro k hk
      refine Set.disjoint_union_left.mpr ⟨h.disjoint i k hk.symm, ?_⟩
      refine Set.disjoint_left.mpr fun b hb hbk => ?_
      have := (h.range k b hbk).2
      have := hb.1
      omega
    rw [hown']
    by_cases hji : j = i
    · subst hji
      rw [update_self, update_of_ne (Ne.symm hjk)]
      exact hnew k (Ne.symm hjk)
    · rw [update_of_ne hji]
      by_cases hki : k = i
      · subst hki
        rw [update_self]
        exact (hnew j hji).symm
      · rw [update_of_ne hki]
        exact h.disjoint j k hjk
  · have hji : j ≠ i := by
      rintro rfl
      simp only [ht] at hj
      omega
    rw [hown', update_of_ne hji, update_of_ne hji]
    exact h.rest j hj
  · have hj' : j = 0 ∨ s.freeinode ≤ j := hj'
    change (t.store.setDinode i d'').dinode j = _
    rw [hdin, if_neg (by omega), hdj j hj]
    exact h.blank j hj hj'

end

theorem cost_append_le (bytes : ℕ → List UInt8) (i n : ℕ) (p q : List UInt8) :
    cost (update bytes i (bytes i ++ p)) n ≤ cost (update bytes i (bytes i ++ (p ++ q))) n := by
  refine cost_mono le_rfl fun j _ => ?_
  by_cases hj : j = i
  · subst hj
    simp
  · rw [update_of_ne hj, update_of_ne hj]

theorem copyIn_image (bufs : List (List UInt8)) (h : Image bytes own s) (hi : 0 < i)
    (hlt : i < s.freeinode) (hmax : (bytes i).length + bufs.flatten.length ≤ MAXFILE * BSIZE)
    (hroom : nmeta + cost (update bytes i (bytes i ++ bufs.flatten)) s.freeinode ≤ FSSIZE) :
    ∃ s' own', copyIn i bufs s = .ok () s' ∧
      Image (update bytes i (bytes i ++ bufs.flatten)) own' s' ∧ s'.freeinode = s.freeinode := by
  induction bufs generalizing s bytes own with
  | nil =>
    refine ⟨s, own, rfl, ?_, rfl⟩
    rwa [flatten_nil, append_nil, update_eq_self]
  | cons buf bufs ih =>
    rw [flatten_cons] at hmax hroom
    rw [length_append] at hmax
    have hle := cost_append_le bytes i s.freeinode buf bufs.flatten
    obtain ⟨s1, own1, hrun, himg, hfree⟩ :=
      iappend_image (p := buf) h hi hlt (by omega) (by omega)
    have hself : update bytes i (bytes i ++ buf) i = bytes i ++ buf :=
      update_self ..
    obtain ⟨s2, own2, hrest, himg2, hfree2⟩ := ih himg (by omega)
      (by rw [hself, length_append]; omega)
      (by rw [hself, update_idem, append_assoc, hfree]; exact hroom)
    refine ⟨s2, own2, ?_, ?_, hfree2.trans hfree⟩
    · rw [copyIn, bind_apply, hrun]
      exact hrest
    · rwa [hself, update_idem, append_assoc, ← flatten_cons] at himg2

/-! The files of the command line. -/

def entries (files : List HostFile) : List Dirent :=
  ⟨ROOTINO, dot⟩ :: ⟨ROOTINO, dotdot⟩ :: files.mapIdx fun k f => ⟨k + 2, f.name⟩

def tree (files : List HostFile) : ℕ → List UInt8
  | 0 => []
  | 1 => (entries files).flatMap Dirent.encode
  | k + 2 => (files[k]?).elim [] HostFile.contents

theorem length_encode (de : Dirent) : de.encode.length = DIRENTSIZE := by
  simp only [Dirent.encode, length_append, Bytes.le_length, length_replicate,
    length_take, DIRSIZ, DIRENTSIZE]
  omega

theorem length_entries (files : List HostFile) :
    ((entries files).flatMap Dirent.encode).length = DIRENTSIZE * (files.length + 2) := by
  simp only [length_flatMap, length_encode, map_const', sum_replicate, entries,
    length_cons, length_mapIdx, smul_eq_mul]
  ring

theorem entries_snoc (files : List HostFile) (f : HostFile) :
    entries (files ++ [f]) = entries files ++ [⟨files.length + 2, f.name⟩] := by
  simp [entries, mapIdx_append]

theorem tree_snoc (files : List HostFile) (f : HostFile) : tree (files ++ [f]) = update
      (update (tree files) ROOTINO
        (tree files ROOTINO ++ Dirent.encode ⟨files.length + 2, f.name⟩))
      (files.length + 2) f.contents := by
  funext i
  match i with
  | 0 => rfl
  | 1 =>
    rw [update_of_ne (by omega)]
    change (entries (files ++ [f])).flatMap Dirent.encode = _
    rw [entries_snoc, flatMap_append, flatMap_singleton]
    rfl
  | k + 2 =>
    change ((files ++ [f])[k]?).elim [] HostFile.contents = _
    by_cases hk : k = files.length
    · subst hk
      simp
    · rw [update_of_ne (by omega), update_of_ne (by simp [ROOTINO])]
      change _ = (files[k]?).elim [] HostFile.contents
      rw [getElem?_append]
      split_ifs with hlt
      · rfl
      · rw [getElem?_eq_none (by simp; omega), getElem?_eq_none (by omega)]

variable {files : List HostFile}

theorem tree_beyond {k : ℕ} (h : files.length ≤ k) : tree files (k + 2) = [] := by
  change (files[k]?).elim [] HostFile.contents = _
  rw [getElem?_eq_none h]
  rfl

theorem addFile_image {f : HostFile} (h : Image (tree files) own s)
    (hn : s.freeinode = files.length + 2) (hlt : files.length + 2 < inodeRoom)
    (harg : slash ∉ f.arg) (hmax : f.contents.length ≤ MAXFILE * BSIZE)
    (hroom : nmeta + cost (tree (files ++ [f])) (files.length + 3) ≤ FSSIZE) :
    ∃ s' own', addFile ROOTINO f s = .ok () s' ∧ Image (tree (files ++ [f])) own' s' ∧
      s'.freeinode = files.length + 3 := by
  rw [tree_snoc] at hroom
  have hty : T_FILE = typeOf s.freeinode := by
    rw [typeOf, if_neg (by rw [hn, ROOTINO]; omega)]
  obtain ⟨s1, hrun1, himg1, hfree1⟩ := ialloc_image h (by omega) hty
  set de := Dirent.encode ⟨files.length + 2, f.name⟩ with hde
  have hroot : (tree files ROOTINO).length = DIRENTSIZE * (files.length + 2) := length_entries files
  have hbeyond := tree_beyond (le_refl files.length)
  have hb1 : update (tree files) ROOTINO (tree files ROOTINO ++ de) (files.length + 2) = [] := by
    rw [update_of_ne (by rw [ROOTINO]; omega), hbeyond]
  have hle : cost (update (tree files) ROOTINO (tree files ROOTINO ++ de)) (files.length + 3) ≤
      cost (update (update (tree files) ROOTINO (tree files ROOTINO ++ de))
        (files.length + 2) f.contents) (files.length + 3) := by
    refine cost_mono le_rfl fun j _ => ?_
    by_cases hj : j = files.length + 2
    · subst hj
      rw [hb1]
      exact Nat.zero_le _
    · rw [update_of_ne hj]
  obtain ⟨s2, own2, hrun2, himg2, hfree2⟩ := iappend_image (i := ROOTINO) (p := de) himg1
    (by decide) (by rw [hfree1, ROOTINO]; omega)
    (by
      rw [hroot, hde, length_encode]
      simp only [inodeRoom, ninodeblocks, IPB, DINODESIZE, DIRENTSIZE, MAXFILE, NDIRECT, NINDIRECT,
        BSIZE, NINODES] at *
      omega)
    (by rw [hfree1, hn]; exact le_trans (Nat.add_le_add_left hle _) hroom)
  obtain ⟨s3, own3, hrun3, himg3, hfree3⟩ := copyIn_image (i := files.length + 2) f.reads
    himg2 (by omega) (by omega) (by rw [hb1]; simpa [HostFile.contents] using hmax)
    (by rw [hb1, nil_append, hfree2, hfree1, hn]; exact hroom)
  rw [hb1, nil_append] at himg3
  refine ⟨s3, own3, ?_, by rwa [tree_snoc], by omega⟩
  unfold addFile
  rw [bind_apply, assert_ok harg]
  change (ialloc T_FILE >>= _) s = _
  rw [bind_apply, hrun1, hn]
  change (iappend ROOTINO de >>= _) s1 = _
  rw [bind_apply, hrun2]
  exact hrun3

theorem cost_tree_le (files rest : List HostFile) :
    cost (tree files) (files.length + 2) ≤ cost (tree (files ++ rest)) ((files ++ rest).length + 2) := by
  refine cost_mono (by simp) fun i hi => ?_
  match i with
  | 0 => exact le_rfl
  | 1 =>
    change ((entries files).flatMap Dirent.encode).length ≤
      ((entries (files ++ rest)).flatMap Dirent.encode).length
    rw [length_entries, length_entries]
    exact Nat.mul_le_mul_left _ (by simp)
  | k + 2 =>
    change ((files[k]?).elim [] HostFile.contents).length ≤
      (((files ++ rest)[k]?).elim [] HostFile.contents).length
    rw [getElem?_append_left (by omega)]

theorem addFiles_image (files rest : List HostFile) (h : Image (tree files) own s)
    (hn : s.freeinode = files.length + 2) (hlt : files.length + rest.length + 1 < inodeRoom)
    (harg : ∀ f ∈ rest, slash ∉ f.arg) (hmax : ∀ f ∈ rest, f.contents.length ≤ MAXFILE * BSIZE)
    (hroom : nmeta + cost (tree (files ++ rest)) ((files ++ rest).length + 2) ≤ FSSIZE) :
    ∃ s' own', addFiles ROOTINO rest s = .ok () s' ∧ Image (tree (files ++ rest)) own' s' ∧
      s'.freeinode = (files ++ rest).length + 2 := by
  induction rest generalizing s files own with
  | nil =>
    refine ⟨s, own, rfl, ?_, ?_⟩
    · rwa [append_nil]
    · rwa [append_nil]
  | cons f rest ih =>
    have happ : files ++ f :: rest = files ++ [f] ++ rest := by simp
    have hle := cost_tree_le (files ++ [f]) rest
    rw [length_append, length_singleton] at hle
    rw [happ] at hroom ⊢
    rw [length_cons] at hlt
    obtain ⟨s1, own1, hrun1, himg1, hfree1⟩ := addFile_image h hn (by omega)
      (harg f mem_cons_self) (hmax f mem_cons_self)
      (le_trans (Nat.add_le_add_left hle _) hroom)
    obtain ⟨s2, own2, hrun2, himg2, hfree2⟩ := ih (files ++ [f]) himg1 (by simpa using hfree1)
      (by rw [length_append, length_singleton]; omega)
      (fun g hg => harg g (mem_cons_of_mem f hg))
      (fun g hg => hmax g (mem_cons_of_mem f hg)) hroom
    refine ⟨s2, own2, ?_, himg2, hfree2⟩
    rw [addFiles, bind_apply, hrun1]
    exact hrun2

/-! The main program. -/

theorem zeroSects_start (n : ℕ) : zeroSects (range n) start = .ok () { start with nsect := n } := by
  have hloop : ∀ m k, zeroSects (range' k m) { start with nsect := k } =
      .ok () { start with nsect := k + m } := by
    intro m
    induction m with
    | zero => exact fun k => rfl
    | succ m ih =>
      intro k
      rw [range'_succ, zeroSects, bind_apply]
      have hz : update start.img k zero = start.img := update_eq_self k _
      have hw : wsect k zero { start with nsect := k } = .ok () { start with nsect := k + 1 } := by
        change Res.ok () { start with
          img := update start.img k zero, nsect := max k (k + 1) } = _
        rw [hz, max_eq_right (Nat.le_succ k)]
      rw [hw]
      change zeroSects (range' (k + 1) m) { start with nsect := k + 1 } = _
      rw [ih, show k + 1 + m = k + (m + 1) by omega]
  have := hloop n 0
  rwa [← range_eq_range', Nat.zero_add] at this

theorem decode_zero (off : ℕ) : Dinode.decode zero off = Dinode.zero := by
  unfold Dinode.decode
  simp only [word_zero]
  decide

def blank : Mkfs :=
  { start with
    nsect := FSSIZE
    img := Function.update start.img 1 (zero.patch 0 superblock.encode) }

theorem writeSuper_start : writeSuper start = .ok () blank := by
  unfold writeSuper
  rw [bind_apply, zeroSects_start]
  exact wsect_ok (Nat.lt_of_lt_of_le (by decide : 1 < nmeta) nmeta_le)

theorem image_blank : Image (fun _ => []) (fun _ => ∅) blank where
  sb := rfl
  super := by
    change update start.img 1 (zero.patch 0 superblock.encode) 1 = _
    rw [update_self]
  nsect := rfl
  inodes := ⟨Nat.one_pos, by decide⟩
  used := by
    change nmeta = nmeta + cost (fun _ => []) 1
    rw [cost, Finset.sum_range_one]
    rfl
  room := nmeta_le
  fresh b hb := by
    have hb : nmeta ≤ b := hb
    have hm : 1 < nmeta := by decide
    change update start.img 1 (zero.patch 0 superblock.encode) b = _
    rw [update_of_ne (by omega)]
    rfl
  holds i hi hi' := by
    have hi' : i < 1 := hi'
    omega
  range := by simp
  disjoint := by simp
  rest := by simp
  blank i hi _ := by
    have hb := iblock_lt hi
    change Dinode.decode (update start.img 1 (zero.patch 0 superblock.encode)
      (IBLOCK i superblock)) (inodeOff i) = _
    rw [update_of_ne (by omega)]
    exact decode_zero _
  wrote := by simp [blank, start]

theorem makeRoot_image : ∃ s' own', makeRoot blank = .ok ROOTINO s' ∧ Image (tree []) own' s' ∧
    s'.freeinode = 2 := by
  obtain ⟨s1, hrun1, himg1, hfree1⟩ := ialloc_image image_blank (by decide) (by rfl : T_DIR = _)
  have hfree1 : s1.freeinode = 2 := hfree1
  have hle : ∀ bs : List UInt8, bs.length ≤ 2 * DIRENTSIZE →
      nmeta + cost (update (fun _ => []) ROOTINO bs) 2 ≤ FSSIZE := by
    intro bs hbs
    have hcost := cost_update (fun _ => []) (n := 2) (i := ROOTINO) (by decide) bs
    have hz : cost (fun _ => ([] : List UInt8)) 2 = 0 := by
      unfold cost
      rw [Finset.sum_range_succ, Finset.sum_range_one]
      rfl
    have hone : fileBlocks bs.length ≤ fileBlocks (2 * DIRENTSIZE) := fileBlocks_mono hbs
    have hval : nmeta + fileBlocks (2 * DIRENTSIZE) ≤ FSSIZE := by decide
    omega
  obtain ⟨s2, own2, hrun2, himg2, hfree2⟩ := iappend_image (i := ROOTINO)
    (p := Dirent.encode ⟨ROOTINO, dot⟩) himg1 (by decide) (by rw [hfree1]; decide)
    (by rw [length_encode]; decide)
    (by rw [hfree1]; exact hle _ (by rw [nil_append, length_encode]; decide))
  have hself : update (fun _ => []) ROOTINO ([] ++ Dirent.encode ⟨ROOTINO, dot⟩) ROOTINO =
      Dirent.encode ⟨ROOTINO, dot⟩ := update_self ..
  obtain ⟨s3, own3, hrun3, himg3, hfree3⟩ := iappend_image (i := ROOTINO)
    (p := Dirent.encode ⟨ROOTINO, dotdot⟩) himg2 (by decide) (by rw [hfree2, hfree1]; decide)
    (by rw [hself, length_encode, length_encode]; decide)
    (by
      rw [hself, update_idem, hfree2, hfree1]
      exact hle _ (by rw [length_append, length_encode, length_encode]; decide))
  rw [hself, update_idem] at himg3
  have htree : tree [] = update (fun _ => []) ROOTINO
      (Dirent.encode ⟨ROOTINO, dot⟩ ++ Dirent.encode ⟨ROOTINO, dotdot⟩) := by
    funext i
    match i with
    | 0 => rfl
    | 1 =>
      change (entries []).flatMap Dirent.encode = _
      simp [entries, ROOTINO]
    | k + 2 =>
      rw [update_of_ne (by simp [ROOTINO])]
      rfl
  refine ⟨s3, own3, ?_, by rwa [htree], by rw [hfree3, hfree2, hfree1]⟩
  unfold makeRoot
  rw [bind_apply, hrun1]
  change (assert (ROOTINO = ROOTINO) >>= _) s1 = _
  rw [bind_apply, assert_ok rfl]
  change (iappend ROOTINO (Dirent.encode ⟨ROOTINO, dot⟩) >>= _) s1 = _
  rw [bind_apply, hrun2]
  change (iappend ROOTINO (Dirent.encode ⟨ROOTINO, dotdot⟩) >>= _) s2 = _
  rw [bind_apply, hrun3]
  rfl

theorem cost_tree (files : List HostFile) :
    nmeta + cost (tree files) (files.length + 2) = blocksUsed files := by
  have hsum : ∀ fs : List HostFile, ∑ k ∈ Finset.range fs.length,
      fileBlocks ((fs[k]?).elim [] HostFile.contents).length =
        (fs.map fun f => fileBlocks f.contents.length).sum := by
    intro fs
    induction fs with
    | nil => rfl
    | cons f fs ih =>
      rw [length_cons, Finset.sum_range_succ', map_cons, sum_cons, ← ih]
      simp [add_comm]
  unfold cost blocksUsed
  rw [Finset.sum_range_succ', Finset.sum_range_succ', ← hsum]
  change nmeta + (_ + fileBlocks ((entries files).flatMap Dirent.encode).length + fileBlocks 0) = _
  rw [length_entries]
  have hz : fileBlocks 0 = 0 := rfl
  simp only [tree, hz]
  omega

/-! The finished image. -/

structure Formatted (files : List HostFile) (img : ℕ → Block) : Prop where
  super : Superblock.decode (img 1) = superblock
  file : ∀ k f, files[k]? = some f → ∃ own,
    Holds img (diskInode img (k + 2)) T_FILE f.contents own
  rootType : (diskInode img ROOTINO).type = T_DIR
  rootLink : (diskInode img ROOTINO).nlink = 1
  rootSize : DIRENTSIZE * (files.length + 2) ≤ (diskInode img ROOTINO).size.toNat
  rootBacked : Backed img (diskInode img ROOTINO) (DIRENTSIZE * (files.length + 2))
  rootBytes : fileBytes img (diskInode img ROOTINO) 0 (DIRENTSIZE * (files.length + 2)) =
    (entries files).flatMap Dirent.encode

theorem decode_superblock : Superblock.decode (zero.patch 0 superblock.encode) = superblock := by
  have hw : ∀ k, k + 4 ≤ 28 → (zero.patch 0 superblock.encode : Block).word 4 k =
      Bytes.leVal ((superblock.encode.drop k).take 4) := fun k hk => by
    have := word_patch_inside 4 (zero : Block) 0 superblock.encode k
      (hk.trans (by decide)) (by decide)
    rwa [Nat.zero_add] at this
  unfold Superblock.decode
  rw [hw 0 (by decide), hw 4 (by decide), hw 8 (by decide), hw 12 (by decide), hw 16 (by decide),
    hw 20 (by decide), hw 24 (by decide)]
  decide

theorem Holds.backed {img : ℕ → Block} {own : Set ℕ}
    (h : Holds img d type bs own) : Backed img d bs.length := by
  intro bn hbn
  have hb := dataBlocks_bounds bs.length
  have hlt : bn < dataBlocks bs.length := by
    simp only [BSIZE] at *
    omega
  exact ⟨hlt.trans_le h.extent.le, (h.extent.pos _ (h.extent.mem bn hlt)).ne'⟩

/-- The image `mkfs` leaves. The root directory has the size its entries need, rounded up past the
next block boundary. -/
structure Finished (files : List HostFile) (own : ℕ → Set ℕ) (s : Mkfs) : Prop where
  super : s.img 1 = zero.patch 0 superblock.encode
  freeinode : s.freeinode = files.length + 2
  freeblock : s.freeblock = blocksUsed files
  inodes : files.length + 2 ≤ inodeRoom
  room : blocksUsed files ≤ FSSIZE
  file : ∀ i, 1 < i → i < files.length + 2 →
    Holds s.img (diskInode s.img i) T_FILE (tree files i) (own i)
  root : ∃ d, Holds s.img d T_DIR (tree files ROOTINO) (own ROOTINO) ∧
    diskInode s.img ROOTINO =
      { d with size := .ofNat 32 ((DIRENTSIZE * (files.length + 2) / BSIZE + 1) * BSIZE) }
  blank : ∀ i < inodeRoom, i = 0 ∨ files.length + 2 ≤ i → diskInode s.img i = Dinode.zero
  range : ∀ i, ∀ b ∈ own i, nmeta ≤ b ∧ b < blocksUsed files
  wrote : ∀ b ∈ s.inodeSects, superblock.inodestart ≤ b ∧ b < superblock.bmapstart

theorem finish_image (h : Image (tree files) own s) (hn : s.freeinode = files.length + 2) :
    ∃ s', (do
        fixRoot ROOTINO
        let s ← get
        balloc s.freeblock : MkfsM Unit) s = .ok () s' ∧ Finished files own s' := by
  have hroot := h.holds ROOTINO (by decide) (by rw [hn, ROOTINO]; omega)
  have hlen : (tree files ROOTINO).length = DIRENTSIZE * (files.length + 2) := length_entries files
  have hmax := h.inodes.2
  have hused : s.freeblock = blocksUsed files := by rw [h.used, hn, cost_tree]
  have hone : ROOTINO < inodeRoom := by decide
  set d := s.store.dinode ROOTINO with hd
  set off := (d.size.toNat / BSIZE + 1) * BSIZE with hoff
  set d' : Dinode := { d with size := .ofNat 32 off } with hd'
  set img1 := (s.store.setDinode ROOTINO d').blocks with himg1
  set map : Block := (range s.freeblock).foldl setBit zero with hmap
  set img2 := update img1 superblock.bmapstart map with himg2
  have hne : ∀ c, c ≠ superblock.bmapstart → img2 c = img1 c := fun c hc =>
    update_of_ne hc ..
  have hkeep : ∀ {j type bs} {e : Dinode}, Holds s.img e type bs (own j) →
      Holds img2 e type bs (own j) := by
    intro j type bs e hj
    refine (h.setDinode (i := ROOTINO) (d := d') hone hj).congr fun b hb => hne b ?_
    have := (h.range j b hb).1
    have := bmapstart_lt
    omega
  have hdin : ∀ j < inodeRoom, diskInode img2 j = if j = ROOTINO then d' else s.store.dinode j := by
    intro j hj
    rw [← Store.setDinode_dinode (t := s.store)]
    unfold diskInode Store.dinode
    rw [hne _ (iblock_lt hj).2.ne, Store.setDinode_sb]
    change _ = Dinode.decode (img1 (IBLOCK j s.sb)) _
    rw [h.sb]
  refine ⟨{ s with img := img2, inodeSects := IBLOCK ROOTINO s.sb :: s.inodeSects }, ?_, ?_⟩
  · unfold fixRoot
    simp only [bind_assoc]
    rw [bind_apply, rinode_ok (h.iblock_lt hone)]
    change (winode ROOTINO d' >>= _) s = _
    rw [bind_apply, winode_ok (h.iblock_lt hone)]
    change balloc s.freeblock { s with
      img := img1, inodeSects := IBLOCK ROOTINO s.sb :: s.inodeSects } = _
    unfold balloc
    have hroom := h.room
    have hfs : FSSIZE < BSIZE * 8 := by decide
    rw [bind_apply, assert_ok (by omega)]
    change wsect s.sb.bmapstart map { s with
      img := img1, inodeSects := IBLOCK ROOTINO s.sb :: s.inodeSects } = _
    rw [h.sb, wsect_ok]
    change superblock.bmapstart < s.nsect
    rw [h.nsect]
    decide
  · have h1 := iblock_lt hone
    refine ⟨?_, hn, hused, hn ▸ hmax, hused ▸ h.room, fun i hi hlt => ?_, ⟨d, hkeep hroot, ?_⟩,
      fun i hi hrest => ?_, hused ▸ h.range, h.wrote_cons hone⟩
    · change img2 1 = _
      rw [hne 1 (by decide), himg1, Store.setDinode_blocks_ne (by
        change 1 ≠ IBLOCK ROOTINO s.sb
        rw [h.sb]
        omega)]
      exact h.super
    · have hi1 : i ≠ ROOTINO := by
        rw [ROOTINO]
        omega
      have hj := h.holds i (by omega) (by omega)
      rw [typeOf, if_neg hi1] at hj
      change Holds img2 (diskInode img2 i) T_FILE _ _
      rw [hdin i (by omega), if_neg hi1]
      exact hkeep hj
    · change diskInode img2 ROOTINO = _
      rw [hdin _ hone, if_pos rfl, hd', hoff, hroot.size, hlen]
    · change diskInode img2 i = _
      rw [hdin i hi, if_neg (by rw [ROOTINO]; omega)]
      exact h.blank i hi (by omega)

theorem Finished.rootSize (h : Finished files own s) :
    (diskInode s.img ROOTINO).size.toNat = (DIRENTSIZE * (files.length + 2) / BSIZE + 1) * BSIZE := by
  obtain ⟨d, -, hd⟩ := h.root
  have hmax := h.inodes
  rw [hd]
  refine Nat.mod_eq_of_lt ?_
  simp only [inodeRoom, ninodeblocks, IPB, DINODESIZE, DIRENTSIZE, NINODES, BSIZE] at *
  omega

theorem Finished.formatted (h : Finished files own s) : Formatted files s.img := by
  have hlen : (tree files ROOTINO).length = DIRENTSIZE * (files.length + 2) := length_entries files
  obtain ⟨d, hroot, hd⟩ := h.root
  have hslot : ∀ k, slotOf s.img (diskInode s.img ROOTINO) k = slotOf s.img d k := by
    rw [hd]
    exact fun _ => rfl
  refine ⟨by rw [h.super, decode_superblock], fun k f hk => ?_, ?_, ?_, ?_, ?_, ?_⟩
  · have hlt : k < files.length := (List.getElem?_eq_some_iff.mp hk).1
    have hf : tree files (k + 2) = f.contents := by
      change (files[k]?).elim [] HostFile.contents = _
      rw [hk]
      rfl
    exact ⟨own (k + 2), hf ▸ h.file (k + 2) (by omega) (by omega)⟩
  · rw [hd]
    exact hroot.type
  · rw [hd]
    exact hroot.nlink
  · rw [h.rootSize]
    have := Nat.div_add_mod' (DIRENTSIZE * (files.length + 2)) BSIZE
    have := Nat.mod_lt (DIRENTSIZE * (files.length + 2)) (show 0 < BSIZE by decide)
    rw [Nat.add_mul]
    omega
  · rw [← hlen]
    intro bn hbn
    rw [hslot]
    exact hroot.backed bn hbn
  · rw [← hlen]
    refine Eq.trans (map_congr_left fun k _ => ?_) hroot.bytes
    unfold fileByte
    rw [hslot]

theorem main_image (hlt : files.length + 1 < inodeRoom)
    (hroom : blocksUsed files ≤ FSSIZE) (harg : ∀ f ∈ files, slash ∉ f.arg)
    (hmax : ∀ f ∈ files, f.contents.length ≤ MAXFILE * BSIZE) :
    ∃ s own, main files start = .ok () s ∧ Finished files own s := by
  obtain ⟨s1, own1, hrun1, himg1, hfree1⟩ := makeRoot_image
  obtain ⟨s2, own2, hrun2, himg2, hfree2⟩ := addFiles_image [] files himg1
    hfree1 (by simpa using hlt) harg hmax (by rw [nil_append, cost_tree]; exact hroom)
  rw [nil_append] at himg2 hfree2
  obtain ⟨s3, hrun3, hfin⟩ := finish_image himg2 hfree2
  refine ⟨s3, own2, ?_, hfin⟩
  unfold main
  rw [bind_apply, writeSuper_start]
  change (makeRoot >>= _) blank = _
  rw [bind_apply, hrun1]
  change (addFiles ROOTINO files >>= _) s1 = _
  rw [bind_apply, hrun2]
  exact hrun3

end Xv6.Mkfs
