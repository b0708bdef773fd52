import Xv6.Proofs.Mkfs

/-! What follows when `mkfs` runs to the end: the files fit into the image, because a sector past
its end cannot be read and a block past the largest file fails an assertion. Nothing of the kind
bounds the inode numbers. -/

open Function List

namespace Xv6.Mkfs

open Store (slotOf slotIdx)

variable {s s' : Mkfs} {own : ℕ → Set ℕ} {bytes : ℕ → List UInt8} {i : ℕ}
  {files : List HostFile} {f : HostFile}

theorem iappend_room {p : List UInt8} (h : Image bytes own s) (hi : 0 < i) (hlt : i < s.freeinode)
    (hok : iappend i p s = .ok () s') : (bytes i).length + p.length ≤ MAXFILE * BSIZE ∧
      nmeta + cost (update bytes i (bytes i ++ p)) s.freeinode ≤ FSSIZE := by
  have hd := h.holds i hi hlt
  have hused := h.used
  have hnsect := h.nsect
  have hcost := cost_update bytes hlt (bytes i ++ p)
  rw [length_append] at hcost
  unfold iappend at hok
  rw [Exec.bind_apply, rinode_ok (h.iblock_lt (hlt.trans_le h.inodes.2))] at hok
  obtain ⟨r, s1, happend, -⟩ := Exec.bind_eq_ok.mp hok
  rw [hd.size] at happend
  obtain ⟨hmax, hs⟩ := appendFrom_room hd.extent (h.ready i) (by rw [hnsect]; exact h.room) happend
  exact ⟨hmax, by omega⟩

theorem copyIn_room (bufs : List (List UInt8)) (h : Image bytes own s) (hi : 0 < i)
    (hlt : i < s.freeinode) (hok : copyIn i bufs s = .ok () s')
    (hlen : (bytes i).length ≤ MAXFILE * BSIZE) :
    (bytes i).length + bufs.flatten.length ≤ MAXFILE * BSIZE ∧
      nmeta + cost (update bytes i (bytes i ++ bufs.flatten)) s.freeinode ≤ FSSIZE := by
  induction bufs generalizing s bytes own with
  | nil =>
    have hused := h.used
    have hroom := h.room
    rw [flatten_nil, append_nil, update_eq_self]
    exact ⟨hlen, by omega⟩
  | cons buf bufs ih =>
    rw [copyIn] at hok
    obtain ⟨_, s1, happend, hrest⟩ := Exec.bind_eq_ok.mp hok
    obtain ⟨hmax, hroom⟩ := iappend_room h hi hlt happend
    obtain ⟨s1', own1, hrun, himg, hfree⟩ := iappend_image h hi hlt hmax hroom
    rw [hrun] at happend
    cases happend
    have hself : update bytes i (bytes i ++ buf) i = bytes i ++ buf :=
      update_self ..
    obtain ⟨hmax', hroom'⟩ := ih himg (by omega) hrest (by rw [hself, length_append]; exact hmax)
    rw [hself, length_append] at hmax'
    rw [hself, update_idem, append_assoc, hfree] at hroom'
    rw [flatten_cons, length_append]
    exact ⟨by omega, hroom'⟩

theorem addFile_room (h : Image (tree files) own s) (hn : s.freeinode = files.length + 2)
    (hlt : files.length + 2 < inodeRoom) (hok : addFile ROOTINO f s = .ok () s') :
    slash ∉ f.arg ∧ f.contents.length ≤ MAXFILE * BSIZE ∧
      nmeta + cost (tree (files ++ [f])) (files.length + 3) ≤ FSSIZE := by
  have hty : T_FILE = typeOf s.freeinode := by
    rw [typeOf, if_neg (by rw [hn, ROOTINO]; omega)]
  unfold addFile at hok
  obtain ⟨_, s0, hassert, hok0⟩ := Exec.bind_eq_ok.mp hok
  obtain ⟨harg, hs0⟩ := assert_eq_ok hassert
  rw [hs0] at hok0
  obtain ⟨s1, hrun1, himg1, hfree1⟩ := ialloc_image h (by omega) hty
  rw [Exec.bind_apply, hrun1, hn] at hok0
  obtain ⟨_, s2, happend, hcopy⟩ := Exec.bind_eq_ok.mp hok0
  obtain ⟨hmax, hroom⟩ := iappend_room himg1 (by decide) (by rw [hfree1, ROOTINO]; omega) happend
  obtain ⟨s2', own2, hrun2, himg2, hfree2⟩ := iappend_image himg1 (by decide)
    (by rw [hfree1, ROOTINO]; omega) hmax hroom
  rw [hrun2] at happend
  cases happend
  have hb : update (tree files) ROOTINO (tree files ROOTINO ++
      Dirent.encode ⟨files.length + 2, f.name⟩) (files.length + 2) = [] := by
    rw [update_of_ne (by rw [ROOTINO]; omega), tree_beyond le_rfl]
  obtain ⟨hmax', hroom'⟩ := copyIn_room (i := files.length + 2) f.reads himg2 (by omega) (by omega)
    hcopy (by rw [hb]; exact Nat.zero_le _)
  rw [hb] at hmax' hroom'
  rw [length_nil, Nat.zero_add] at hmax'
  rw [nil_append, hfree2, hfree1, hn] at hroom'
  exact ⟨harg, hmax', by rw [tree_snoc]; exact hroom'⟩

theorem addFiles_room (files rest : List HostFile) (h : Image (tree files) own s)
    (hn : s.freeinode = files.length + 2) (hlt : files.length + rest.length + 1 < inodeRoom)
    (hok : addFiles ROOTINO rest s = .ok () s') : (∀ f ∈ rest, slash ∉ f.arg) ∧
      (∀ f ∈ rest, f.contents.length ≤ MAXFILE * BSIZE) ∧
      nmeta + cost (tree (files ++ rest)) ((files ++ rest).length + 2) ≤ FSSIZE := by
  induction rest generalizing s files own with
  | nil =>
    have hused := h.used
    have hroom := h.room
    refine ⟨by simp, by simp, ?_⟩
    rw [append_nil, ← hn]
    omega
  | cons f rest ih =>
    rw [length_cons] at hlt
    rw [addFiles] at hok
    obtain ⟨_, s1, hadd, hrest⟩ := Exec.bind_eq_ok.mp hok
    obtain ⟨harg, hmax, hroom⟩ := addFile_room h hn (by omega) hadd
    obtain ⟨s1', own1, hrun, himg, hfree⟩ := addFile_image h hn (by omega) harg hmax hroom
    rw [hrun] at hadd
    cases hadd
    obtain ⟨hargs, hmaxs, hrooms⟩ := ih (files ++ [f]) himg (by simpa using hfree)
      (by rw [length_append, length_singleton]; omega) hrest
    rw [append_assoc, singleton_append] at hrooms
    exact ⟨forall_mem_cons.mpr ⟨harg, hargs⟩, forall_mem_cons.mpr ⟨hmax, hmaxs⟩, hrooms⟩

theorem main_room (hlt : files.length + 1 < inodeRoom) (hok : main files start = .ok () s) :
    (∀ f ∈ files, slash ∉ f.arg) ∧ (∀ f ∈ files, f.contents.length ≤ MAXFILE * BSIZE) ∧
      blocksUsed files ≤ FSSIZE := by
  obtain ⟨s1, own1, hrun1, himg1, hfree1⟩ := makeRoot_image
  unfold main at hok
  rw [Exec.bind_apply, writeSuper_start] at hok
  change (makeRoot >>= _) blank = _ at hok
  rw [Exec.bind_apply, hrun1] at hok
  obtain ⟨_, s2, hadd, -⟩ := Exec.bind_eq_ok.mp hok
  obtain ⟨hargs, hmaxs, hroom⟩ := addFiles_room [] files himg1 hfree1 (by simpa using hlt) hadd
  rw [nil_append, cost_tree] at hroom
  exact ⟨hargs, hmaxs, hroom⟩

/-- Every image that `mkfs` completes, as long as the inode blocks have room for the inodes. -/
theorem main_finished (hlt : files.length + 1 < inodeRoom) (hok : main files start = .ok () s) :
    ∃ own, Finished files own s := by
  obtain ⟨hargs, hmaxs, hroom⟩ := main_room hlt hok
  obtain ⟨s', own, hrun, hfin⟩ := main_image hlt hroom hargs hmaxs
  rw [hrun] at hok
  cases hok
  exact ⟨own, hfin⟩

/-! The inodes taken. -/

def Takes {α : Type} (n : ℕ) (m : MkfsM α) : Prop := ∀ s a s', m s = .ok a s' → s'.freeinode = s.freeinode + n

section

variable {α β : Type} {m : MkfsM α} {g : α → MkfsM β} {n k : ℕ}

theorem Takes.bind (h : Takes n m) (hg : ∀ a, Takes k (g a)) : Takes (n + k) (m >>= g) := by
  intro s b s'' hok
  obtain ⟨a, s', hm, hrest⟩ := Exec.bind_eq_ok.mp hok
  rw [hg a s' b s'' hrest, h s a s' hm, Nat.add_assoc]

theorem Takes.bind0 (h : Takes 0 m) (hg : ∀ a, Takes k (g a)) : Takes k (m >>= g) := by
  have := h.bind hg
  rwa [Nat.zero_add] at this

theorem takes_pure (a : α) : Takes 0 (pure a : MkfsM α) := by
  rintro s _ _ ⟨⟩
  rfl

theorem takes_get : Takes 0 (Exec.get : MkfsM Mkfs) := by
  rintro s _ _ ⟨⟩
  rfl

theorem takes_modify {f : Mkfs → Mkfs} (hf : ∀ s, (f s).freeinode = s.freeinode + n) :
    Takes n (Exec.modify f : MkfsM Unit) := by
  rintro s _ _ ⟨⟩
  exact hf s

theorem takes_ite {c : Prop} [Decidable c] {m' : MkfsM α} (h : Takes n m) (h' : Takes n m') :
    Takes n (if c then m else m') := by
  split_ifs
  · exact h
  · exact h'

theorem takes_halt (e : MkfsStop) : Takes n (Exec.halt e : MkfsM α) := by
  rintro s _ _ ⟨⟩

end

theorem takes_wsect (sec : ℕ) (buf : Block) : Takes 0 (wsect sec buf) := takes_modify fun _ => rfl

theorem takes_rsect (sec : ℕ) : Takes 0 (rsect sec) :=
  takes_get.bind0 fun _ => takes_ite (takes_pure _) (takes_halt _)

theorem takes_winode (inum : ℕ) (d : Dinode) : Takes 0 (winode inum d) :=
  takes_get.bind0 fun _ => (takes_rsect _).bind0 fun _ => (takes_wsect _ _).bind0 fun _ =>
    takes_modify fun _ => rfl

theorem takes_rinode (inum : ℕ) : Takes 0 (rinode inum) :=
  takes_get.bind0 fun _ => (takes_rsect _).bind0 fun _ => takes_pure _

theorem takes_takeBlock : Takes 0 takeBlock :=
  takes_get.bind0 fun _ => (takes_modify fun _ => rfl).bind0 fun _ => takes_pure _

theorem takes_ialloc (type : Short) : Takes 1 (ialloc type) :=
  takes_get.bind0 fun _ => (takes_modify (n := 1) fun _ => rfl).bind fun _ =>
    (takes_winode _ _).bind0 fun _ => takes_pure _

theorem takes_blockAt (din : Dinode) (fbn : ℕ) : Takes 0 (blockAt din fbn) := by
  refine takes_ite (takes_ite (takes_takeBlock.bind0 fun _ => takes_pure _) (takes_pure _)) ?_
  refine Takes.bind0 (takes_ite (takes_takeBlock.bind0 fun _ => takes_pure _) (takes_pure _))
    fun din => (takes_rsect _).bind0 fun _ => takes_ite (takes_takeBlock.bind0 fun _ => ?_) (takes_pure _)
  exact (takes_wsect _ _).bind0 fun _ => takes_pure _

theorem takes_appendFrom (din : Dinode) (off : ℕ) (p : List UInt8) : Takes 0 (appendFrom din off p) := by
  induction din, off, p using appendFrom.induct with
  | case1 din off p hnil =>
    rw [appendFrom, if_pos hnil]
    exact takes_pure _
  | case2 din off p hnil ih =>
    rw [appendFrom, if_neg hnil]
    exact (takes_ite (takes_pure _) (takes_halt _)).bind0 fun _ => (takes_blockAt _ _).bind0 fun r =>
      (takes_rsect _).bind0 fun _ => (takes_wsect _ _).bind0 fun _ => ih r

theorem takes_iappend (inum : ℕ) (p : List UInt8) : Takes 0 (iappend inum p) :=
  (takes_rinode _).bind0 fun _ => (takes_appendFrom _ _ _).bind0 fun _ => takes_winode _ _

theorem takes_copyIn (inum : ℕ) (bufs : List (List UInt8)) : Takes 0 (copyIn inum bufs) := by
  induction bufs with
  | nil => exact takes_pure _
  | cons buf bufs ih => exact (takes_iappend _ _).bind0 fun _ => ih

theorem takes_zeroSects (is : List ℕ) : Takes 0 (zeroSects is) := by
  induction is with
  | nil => exact takes_pure _
  | cons i is ih => exact (takes_wsect _ _).bind0 fun _ => ih

theorem takes_addFiles (rootino : ℕ) (files : List HostFile) :
    Takes files.length (addFiles rootino files) := by
  induction files with
  | nil => exact takes_pure _
  | cons f files ih =>
    rw [length_cons, Nat.add_comm]
    refine Takes.bind (n := 1) ?_ fun _ => ih
    exact (takes_ite (takes_pure _) (takes_halt _)).bind0 fun _ => (takes_ialloc _).bind (k := 0)
      fun _ => (takes_iappend _ _).bind0 fun _ => takes_copyIn _ _

/-- Nothing bounds the number of inodes: there is one for each file, and one for the root. -/
theorem main_takes (files : List HostFile) : Takes (1 + files.length) (main files) := by
  have hroot : Takes 1 makeRoot := (takes_ialloc _).bind (k := 0) fun _ =>
    (takes_ite (takes_pure _) (takes_halt _)).bind0 fun _ => (takes_iappend _ _).bind0 fun _ =>
      (takes_iappend _ _).bind0 fun _ => takes_pure _
  refine Takes.bind0 ((takes_zeroSects _).bind0 fun _ => takes_get.bind0 fun _ => takes_wsect _ _)
    fun _ => hroot.bind fun _ => (takes_addFiles _ _).bind (k := 0) fun _ => ?_
  refine Takes.bind0 ((takes_rinode _).bind0 fun _ => takes_winode _ _) fun _ => takes_get.bind0 fun _ => ?_
  exact (takes_ite (takes_pure _) (takes_halt _)).bind0 fun _ => takes_get.bind0 fun _ => takes_wsect _ _

/-! The limits of the image. -/

theorem Extent.stored {img : ℕ → Block} {d : Dinode} {nb b : ℕ} {own : Set ℕ}
    (h : Extent img d nb own) (hb : Stored img d b) : b ∈ own := by
  obtain ⟨hne, ⟨k, hk, rfl⟩ | ⟨hind, k, hk, rfl⟩⟩ := hb
  · rcases hk.lt_or_eq with hlt | rfl
    · -- a direct block
      have hslot : slotOf img d (slotIdx k) = d.addr k := slotOf_direct hlt
      rw [← hslot] at hne ⊢
      by_cases hnb : k < nb
      · exact h.mem k hnb
      · exact absurd (h.zero k (not_lt.mp hnb) (hlt.trans (by decide))) hne
    · by_cases hnb : NDIRECT < nb
      · exact h.ind_mem hnb
      · exact absurd (h.ind_zero (not_lt.mp hnb)) hne
  · -- an entry of the indirect block
    have hslot : slotOf img d (slotIdx (NDIRECT + k)) = (img (d.addr NDIRECT)).word 4 (4 * k) := by
      rw [slotOf_indirect (Nat.le_add_right _ _), if_neg hind, Nat.add_sub_cancel_left]
    rw [← hslot] at hne ⊢
    by_cases hnb : NDIRECT + k < nb
    · exact h.mem _ hnb
    · exact absurd (h.zero _ (not_lt.mp hnb) (Nat.add_lt_add_left hk _)) hne

/-- The blocks of every inode: those of its size, except that the root directory has those of its
entries. -/
theorem Finished.inode (h : Finished files own s) (hi : i < inodeRoom) :
    ∃ nb x, Extent s.img (diskInode s.img i) nb x ∧ (∀ b ∈ x, nmeta ≤ b ∧ b < blocksUsed files) ∧
      (diskInode s.img i).type ≠ T_DEV ∧
      nb = dataBlocks (if i = ROOTINO then DIRENTSIZE * (files.length + 2)
        else (diskInode s.img i).size.toNat) := by
  by_cases hrest : i = 0 ∨ files.length + 2 ≤ i
  · rw [h.blank i hi hrest, if_neg (by rw [ROOTINO]; omega)]
    exact ⟨0, ∅, extent_nil (Dinode.addr_of_zero rfl), by simp, by decide, rfl⟩
  · by_cases hroot : i = ROOTINO
    · subst hroot
      obtain ⟨d, hd, heq⟩ := h.root
      have htype : (diskInode s.img ROOTINO).type = T_DIR := by
        rw [heq]
        exact hd.type
      have hlen : (tree files ROOTINO).length = DIRENTSIZE * (files.length + 2) :=
        length_entries files
      refine ⟨_, _, hd.extent.of_addrs (by rw [heq]), h.range _, ?_, by rw [hlen, if_pos rfl]⟩
      rw [htype]
      decide
    · have hone : 1 < i := by
        rw [ROOTINO] at hroot
        omega
      have hf := h.file i hone (by omega)
      refine ⟨_, _, hf.extent, h.range _, ?_, by rw [if_neg hroot, hf.size]⟩
      rw [hf.type]
      decide

/-- An image that `mkfs` completes is within its limits exactly when there is a number below `NINODES`
for the inode of each file; the other limits are checked. -/
theorem mkfs_limits (hok : main files start = .ok () s) :
    (WithinLimits s ∧ blocksUsed files ≤ FSSIZE ∧ ∀ f ∈ files, f.contents.length ≤ MAXFILE * BSIZE) ↔
      files.length + 1 < NINODES := by
  constructor
  · rintro ⟨h, -⟩
    have hfree : s.freeinode = 1 + (1 + files.length) := main_takes files _ _ _ hok
    have := h.inodes (files.length + 1) (by omega) (by omega)
    omega
  · intro hlt
    have hroom : files.length + 1 < inodeRoom := hlt.trans_le ninodes_le
    obtain ⟨-, hmaxs, hblocks⟩ := main_room hroom hok
    obtain ⟨own, hfin⟩ := main_finished hroom hok
    refine ⟨⟨fun inum _ hi => ?_, fun inum hi b hb => ?_, hfin.wrote⟩, hblocks, hmaxs⟩
    · rw [hfin.freeinode] at hi
      omega
    · obtain ⟨nb, x, hext, hrange, -⟩ := hfin.inode (hi.trans_le ninodes_le)
      have hmem := hrange b (hext.stored hb)
      exact ⟨hmem.1, hmem.2.trans_le hblocks⟩

def emptyFile (k : ℕ) : HostFile := ⟨[UInt8.ofNat (65 + k / 16), UInt8.ofNat (65 + k % 16)], [],
  by simp, HostFile.length_le_nil⟩

def emptyFiles (n : ℕ) : List HostFile := (range n).map emptyFile

theorem mkfs_limits_one : ∃ s, main (emptyFiles 1) start = .ok () s ∧ WithinLimits s := by
  obtain ⟨s, -, hrun, -⟩ := @main_image (emptyFiles 1) (by decide) (by decide) (by decide)
    (by decide)
  exact ⟨s, hrun, ((mkfs_limits hrun).mpr (by decide)).1⟩

/-- With 199 files the last one gets the inode number `NINODES`, which the kernel takes for out
of range. -/
theorem too_many_files : ∃ s, main (emptyFiles 199) start = .ok () s ∧ ¬WithinLimits s := by
  obtain ⟨s, own, hrun, hfin⟩ := @main_image (emptyFiles 199) (by decide +kernel)
    (by decide +kernel) (by decide +kernel) (by decide +kernel)
  refine ⟨s, hrun, fun h => ?_⟩
  have hlast : NINODES < s.freeinode := by
    rw [hfin.freeinode]
    decide +kernel
  exact lt_irrefl _ (h.inodes NINODES (by decide) hlast)

/-! Holes. -/

theorem readi_state {t : Fs} {p : Ptr} {off n : ℕ} (hdev : (t.icache p).d.type ≠ T_DEV)
    (hb : Backed t.blocks (t.icache p).d (t.icache p).d.size.toNat) (hn : n < 2 ^ 32) :
    (Fs.ops.readi p off n t).state = t := by
  by_cases hbad : off > (t.icache p).d.size.toNat ∨ (off + n) % 2 ^ 32 < off
  · change ((if (t.icache p).d.type = T_DEV then _ else _ : FsM _) t).state = _
    rw [if_neg hdev]
    dsimp only
    rw [if_pos hbad]
    rfl
  · have hlen : off + n < 2 ^ 32 := by omega
    rw [Fs.readi_backed hdev (by omega) hlen fun bn hbn => hb bn (by omega)]
    rfl

/-- Unless its entries fill their last block, the size of the root directory rounded up is that of
its blocks. -/
theorem Finished.extent (h : Finished files own s)
    (hmod : (files.length + 2) % (BSIZE / DIRENTSIZE) ≠ 0) (hi : i < inodeRoom) :
    ∃ x, Extent s.img (diskInode s.img i) (dataBlocks (diskInode s.img i).size.toNat) x := by
  obtain ⟨nb, x, hext, -, -, hnb⟩ := h.inode hi
  by_cases hroot : i = ROOTINO
  · subst hroot
    have hsize : dataBlocks (DIRENTSIZE * (files.length + 2)) =
        dataBlocks (diskInode s.img ROOTINO).size.toNat := by
      rw [h.rootSize]
      simp only [dataBlocks, DIRENTSIZE, BSIZE] at *
      omega
    rw [hnb, if_pos rfl, hsize] at hext
    exact ⟨x, hext⟩
  · rw [hnb, if_neg hroot] at hext
    exact ⟨x, hext⟩

theorem Finished.hole (h : Finished files own s) (hlt : files.length + 1 < inodeRoom)
    (hmod : (files.length + 2) % (BSIZE / DIRENTSIZE) = 0) :
    ¬NoHoles s.img (diskInode s.img ROOTINO) := by
  intro hno
  obtain ⟨nb, x, hext, -, -, hnb⟩ := h.inode (i := ROOTINO) (by decide)
  rw [if_pos rfl] at hnb
  refine hno nb ?_ (hext.zero nb le_rfl ?_)
  · rw [h.rootSize, hnb]
    simp only [dataBlocks, DIRENTSIZE, BSIZE] at *
    omega
  · rw [hnb]
    have hroom : inodeRoom = 208 := rfl
    have hmax : 8 ≤ MAXFILE := by decide
    simp only [dataBlocks, DIRENTSIZE, BSIZE] at *
    omega

/-- As long as the inode blocks have room for the inodes, an image has no hole, and no `readi` changes
it, exactly when the entries of the root directory do not fill their last block. -/
theorem mkfs_no_holes (hlt : files.length + 1 < inodeRoom) (hok : main files start = .ok () s) :
    (∀ i < inodeRoom, NoHoles s.img (diskInode s.img i) ∧
      ∀ (t : Fs) (p : Ptr), t.blocks = s.img → (t.icache p).d = diskInode s.img i →
        ∀ off n, off < 2 ^ 32 → n < 2 ^ 32 → (Fs.ops.readi p off n t).state = t) ↔
      (files.length + 2) % (BSIZE / DIRENTSIZE) ≠ 0 := by
  obtain ⟨own, hfin⟩ := main_finished hlt hok
  refine ⟨fun h hmod => hfin.hole hlt hmod (h ROOTINO (by decide)).1, fun hmod i hi => ?_⟩
  obtain ⟨-, -, -, -, hdev, -⟩ := hfin.inode hi
  obtain ⟨x, hext⟩ := hfin.extent hmod hi
  have hno : NoHoles s.img (diskInode s.img i) := fun bn hbn => (hext.pos _ (hext.mem bn hbn)).ne'
  refine ⟨hno, fun t p hblocks hd off n _ hn => readi_state (by rwa [hd]) ?_ hn⟩
  rw [hblocks, hd]
  intro bn hbn
  have hb := dataBlocks_bounds (diskInode s.img i).size.toNat
  have hbelow : bn < dataBlocks (diskInode s.img i).size.toNat := by
    simp only [BSIZE] at *
    omega
  exact ⟨hbelow.trans_le hext.le, hno bn hbelow⟩

theorem mkfs_no_holes_one : ∃ s, main (emptyFiles 1) start = .ok () s ∧
    NoHoles s.img (diskInode s.img ROOTINO) := by
  obtain ⟨s, -, hrun, -⟩ := @main_image (emptyFiles 1) (by decide) (by decide) (by decide)
    (by decide)
  exact ⟨s, hrun, ((mkfs_no_holes (by decide) hrun).mpr (by decide) ROOTINO (by decide)).1⟩

/-- The 32 entries for 30 files fill a block, and the root directory is a block too long. -/
theorem full_root_has_hole : ∃ s, main (emptyFiles 30) start = .ok () s ∧
    ¬NoHoles s.img (diskInode s.img ROOTINO) := by
  obtain ⟨s, own, hrun, hfin⟩ := @main_image (emptyFiles 30) (by decide) (by decide)
    (by decide) (by decide)
  exact ⟨s, hrun, hfin.hole (by decide) (by decide)⟩

end Xv6.Mkfs
