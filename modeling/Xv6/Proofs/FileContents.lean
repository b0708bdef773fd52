import Xv6.Proofs.Contents
import Xv6.Proofs.InodeEval
import Xv6.Proofs.Ownership

/-! The contents of inodes as lists of bytes: `readi` and `writei` read and replace a range of
the list. -/

namespace Xv6

open List Store

namespace Store

variable {t t' : Store} {p : Ptr} {i j k b : ℕ} {W : Set (ℕ × ℕ)}

def content (t : Store) (i : ℕ) : List UInt8 :=
  (range (t.view i).size.toNat).map (t.byteAt i)

def Whole (t : Store) (i : ℕ) : Prop :=
  ∀ bn, bn * BSIZE < (t.view i).size.toNat → ∃ b, t.held (i, slotIdx bn) = some b

@[simp] theorem length_content : (t.content i).length = (t.view i).size.toNat := by simp [content]

theorem getElem?_content :
    (t.content i)[k]? = if k < (t.view i).size.toNat then some (t.byteAt i k) else none := by
  unfold content
  rw [getElem?_map]
  split_ifs with h
  · rw [getElem?_range h]
    rfl
  · rw [getElem?_eq_none (by simpa using h)]
    rfl

theorem Whole.held (h : t.Whole i) (hk : k < (t.view i).size.toNat) :
    ∃ b, t.held (i, slotIdx (k / BSIZE)) = some b :=
  h _ ((Nat.div_mul_le_self k BSIZE).trans_lt hk)

theorem Edits.content (h : Edits W t t') (hw : t.Whole i) (hsize : (t'.view i).size = (t.view i).size)
    (hW : ∀ k, (i, k) ∉ W) : t'.content i = t.content i := by
  unfold Store.content
  rw [hsize]
  refine map_congr_left fun k hk => ?_
  obtain ⟨b, hb⟩ := hw.held (mem_range.mp hk)
  exact h.byte i k b hb (hW k)

theorem view_congr (hp : (t'.icache p).inum ≠ i) (hp' : (t.icache p).inum ≠ i)
    (ho : ∀ q, q ≠ p → t'.icache q = t.icache q) (hd : t'.dinode i = t.dinode i) :
    t'.view i = t.view i := by
  have hput : (t'.setInode p (t.icache p)).icache = t.icache := by
    funext q
    rw [setInode_icache]
    split_ifs with hq
    · rw [hq]
    · exact ho q hq
  rw [← view_setInode (n := t.icache p) (fun h => hp h.2) fun h => hp' h.2]
  unfold view cached
  rw [hput, setInode_dinode, hd]

end Store

/-! `readi`. -/

theorem fileByte_eq_byteAt {t : Store} {i : ℕ} {d : Dinode} (h : t.view i = d) (k : ℕ) :
    fileByte t.blocks d k = t.byteAt i k := by
  unfold fileByte byteAt slot
  rw [h]

theorem fileBytes_eq_content {t : Store} {i : ℕ} {d : Dinode} (h : t.view i = d) (off n : ℕ) :
    fileBytes t.blocks d off (min n (d.size.toNat - off)) = ((t.content i).drop off).take n := by
  apply ext_getElem?
  intro k
  unfold fileBytes
  rw [getElem?_take, getElem?_drop, getElem?_content, h, getElem?_map]
  by_cases hk : k < min n (d.size.toNat - off)
  · rw [getElem?_range hk, if_pos (by omega), if_pos (by omega), ← fileByte_eq_byteAt h]
    rfl
  · rw [getElem?_eq_none (by rw [length_range]; omega)]
    split_ifs <;> first | rfl | omega

namespace Fs

variable {s : Fs} {p : Ptr} {P : Prop} {K L : Finset ℕ} {t t0 : Store} {off n : ℕ} {src : List UInt8}

structure FileAt (t : Store) (p : Ptr) : Prop where
  wf : t.Wf
  live : (t.icache p).Live
  type : (t.icache p).d.type ≠ T_DEV
  full : Full t p

namespace FileAt

theorem view (h : FileAt t p) : t.view (t.icache p).inum = (t.icache p).d :=
  h.wf.unique.view_live h.live

theorem length (h : FileAt t p) :
    (t.content (t.icache p).inum).length = (t.icache p).d.size.toNat := by
  rw [length_content, h.view]

theorem whole (h : FileAt t p) : t.Whole (t.icache p).inum := by
  intro bn hbn
  rw [h.view] at hbn
  exact h.full bn hbn

theorem backed (h : FileAt t p) {len : ℕ} (hlen : len ≤ (t.icache p).d.size.toNat) :
    Backed t.blocks (t.icache p).d len := by
  intro bn hbn
  obtain ⟨b, hb⟩ := h.full bn (hbn.trans_le hlen)
  obtain ⟨-, hmax, hslot, hb0⟩ := held_iff.mp hb
  have hbn : bn < MAXFILE := by
    have hpos : NDIRECT < MAXFILE := by decide
    unfold slotIdx at hmax
    split_ifs at hmax <;> omega
  refine ⟨hbn, ?_⟩
  unfold slot at hslot
  rw [h.view] at hslot
  rwa [hslot]

end FileAt

theorem readi_content (h : FileAt s.toStore p) (hoff : off < 2 ^ 32) (hn : n < 2 ^ 32) :
    ops.readi p off n s =
      if off > (s.toStore.content (s.icache p).inum).length ∨ 2 ^ 32 ≤ off + n then .ok (-1, []) s
      else .ok ((min n ((s.toStore.content (s.icache p).inum).length - off) : ℕ),
        ((s.toStore.content (s.icache p).inum).drop off).take n) s := by
  rw [h.length]
  split_ifs with hc
  · change (if (s.icache p).d.type = T_DEV then _ else if _ then _ else _ : FsM _) s = _
    rw [if_neg h.type, if_pos]
    · rfl
    rcases hc with hc | hc
    · exact .inl hc
    · right
      rw [Nat.mod_eq_sub_mod hc, Nat.mod_eq_of_lt (by omega)]
      omega
  · rw [readi_backed h.type (by omega) (by omega) (h.backed (by omega)), fileBytes_eq_content h.view]

/-! `writei`. -/

section

variable (h : Written P p L t0 t off src)
include h

theorem Written.size (hmax : off + src.length < 2 ^ 32) :
    (t.icache p).d.size.toNat = max (t0.icache p).d.size.toNat (off + src.length) := by
  obtain ⟨addrs, hself⟩ := h.self
  rw [hself]
  have := (t0.icache p).d.size.isLt
  exact Nat.mod_eq_of_lt (by omega)

theorem Written.inum : (t.icache p).inum = (t0.icache p).inum := by
  obtain ⟨addrs, hself⟩ := h.self
  rw [hself]

theorem Written.fileAt (hf : FileAt t0 p) (hmax : off + src.length < 2 ^ 32) : FileAt t p := by
  have hsize := h.size hmax
  have hinum := h.inum
  obtain ⟨addrs, hself⟩ := h.self
  refine ⟨h.wf, ?_, ?_, fun bn hbn => ?_⟩
  · rw [hself]
    exact hf.live
  · rw [hself]
    exact hf.type
  · rw [hsize] at hbn
    rw [hinum]
    exact h.full hf.full bn hbn

theorem Written.content (hf : FileAt t0 p) (hoff : off ≤ (t0.icache p).d.size.toNat)
    (hmax : off + src.length < 2 ^ 32) :
    t.content (t0.icache p).inum = (t0.content (t0.icache p).inum).take off ++ src ++
      (t0.content (t0.icache p).inum).drop (off + src.length) := by
  have hview := (h.fileAt hf hmax).view
  rw [h.inum] at hview
  have hlen : ((t0.content (t0.icache p).inum).take off).length = off := by
    rw [length_take, hf.length]
    omega
  apply ext_getElem?
  intro k
  rw [getElem?_content, hview, h.size hmax, append_assoc]
  by_cases hlo : k < off
  · -- before the range
    obtain ⟨b, hb⟩ := hf.whole.held (k := k) (by rw [hf.view]; omega)
    rw [getElem?_append_left (by omega), getElem?_take_of_lt hlo, getElem?_content,
      hf.view, if_pos (by omega), if_pos (by omega),
      h.edits.byte _ _ _ hb fun hin => absurd hin.2.1 (by omega)]
  rw [getElem?_append_right (by omega), hlen]
  by_cases hin : k - off < src.length
  · rw [getElem?_append_left hin, h.bytes _ hin, if_pos (by omega),
      show off + (k - off) = k by omega]
  · -- after it
    rw [getElem?_append_right (by omega), getElem?_drop, getElem?_content, hf.view,
      show off + src.length + (k - off - src.length) = k by omega]
    by_cases hk : k < (t0.icache p).d.size.toNat
    · obtain ⟨b, hb⟩ := hf.whole.held (k := k) (by rwa [hf.view])
      rw [if_pos (by omega), if_pos hk,
        h.edits.byte _ _ _ hb fun hin => absurd hin.2.2 (by omega)]
    · rw [if_neg (by omega), if_neg hk]

theorem Written.view_other {j : ℕ} (hj : j ≠ (t0.icache p).inum) (hlt : j < t0.sb.ninodes) :
    t.view j = t0.view j :=
  view_congr (h.inum ▸ hj.symm) hj.symm h.others (h.dinode j hlt hj)

theorem Written.content_other {j : ℕ} (hj : j ≠ (t0.icache p).inum) (hlt : j < t0.sb.ninodes)
    (hw : t0.Whole j) : t.content j = t0.content j :=
  h.edits.content hw (by rw [h.view_other hj hlt]) fun _ hin => hj hin.1

end

theorem slotsFor_le (off len : ℕ) : (slotsFor off len).card ≤ MAXFILE + 1 := by
  rw [← Finset.card_range (MAXFILE + 1)]
  refine Finset.card_le_card fun k hk => Finset.mem_range.mpr ?_
  have := (Finset.mem_filter.mp hk).2
  omega

theorem slotsFor_subset {off' len len' : ℕ} (hlo : off ≤ off') (hhi : off' + len' ≤ off + len) :
    slotsFor off' len' ⊆ slotsFor off len := by
  refine Finset.filter_subset_filter _ (Finset.union_subset_union ?_ ?_)
  · refine Finset.image_subset_image fun bn hbn => ?_
    obtain ⟨h1, h2⟩ := Finset.mem_Ico.mp hbn
    have hlen' : len' ≠ 0 := fun h0 => by
      rw [rounds, if_pos h0] at h2
      omega
    have hbn := (lt_rounds_iff hlen').mp h2
    exact Finset.mem_Ico.mpr ⟨(Nat.div_le_div_right hlo).trans h1,
      (lt_rounds_iff (by omega)).mpr (by omega)⟩
  · split_ifs <;> first | omega | simp

/-- How much room `writei` needs in the log: the free map, the block of the inode, the
indirect block and the blocks of the range. -/
def needs (sb : Superblock) (off len : ℕ) : ℕ := sb.size / BPB + 3 + rounds off len

theorem writei_written (h : FileAt s.toStore p) (hoff : off ≤ (s.icache p).d.size.toNat)
    (hmax : off + src.length ≤ MAXFILE * BSIZE) (hL : slotsFor off src.length ⊆ L)
    (hfree : Store.Supply (s.icache p).inum L s.toStore)
    (hroom : s.log.Room (needs s.sb off src.length)) :
    ∃ t g bs, ops.writei p src off s = .ok src.length (s.after t g bs) ∧
      Written True p L s.toStore t off src := by
  have hsave := writei_saves (P := True) h.wf h.live h.type hoff hmax (slots_slotsFor hmax) hL
    fun _ => hfree
  obtain ⟨r, t, g, bs, hrun, -, rfl, hwritten, -⟩ := hsave.exists_ok trivial fun t bs hspent => by
    have hbs := hspent.card_le
    have hcard := card_slotsFor off src.length
    have hmeta := card_metaOf s.sb (s.icache p).inum
    refine ⟨hroom.1, lt_of_le_of_lt ?_ hroom.2⟩
    unfold needs
    omega
  exact ⟨t, g, bs, hrun, hwritten⟩

theorem writei_refused (hdev : (s.icache p).d.type ≠ T_DEV) (hoff : off < 2 ^ 32)
    (hn : src.length < 2 ^ 32) (hbad : off > (s.icache p).d.size.toNat ∨ 2 ^ 32 ≤ off + src.length ∨
      MAXFILE * BSIZE < off + src.length) : ops.writei p src off s = .ok (-1) s := by
  change (if (s.icache p).d.type = T_DEV then _ else if off > _ ∨ _ then _ else
    if _ then _ else _ : FsM _) s = _
  rw [if_neg hdev]
  by_cases hc : off > (s.icache p).d.size.toNat ∨ (off + src.length) % 2 ^ 32 < off
  · rw [if_pos hc]
    rfl
  · have hlt : off + src.length < 2 ^ 32 := by
      by_contra hge
      rw [Nat.mod_eq_sub_mod (by omega), Nat.mod_eq_of_lt (by omega)] at hc
      omega
    rw [if_neg hc, if_pos (by omega)]
    rfl

/-- `readi` and `writei` implement an array of bytes. -/
theorem readi_writei_array {s : Fs} {p : Ptr} {i : ℕ} {c : List UInt8} (h : FileAt s.toStore p)
    (hi : (s.icache p).inum = i) (hc : s.toStore.content i = c) (off n : ℕ) (src : List UInt8)
    (hoff : off < 2 ^ 32) (hn : n < 2 ^ 32) (hsrc : src.length < 2 ^ 32)
    (hroom : off + src.length ≤ MAXFILE * BSIZE →
      Store.Supply i (slotsFor off src.length) s.toStore ∧ s.log.Room (needs s.sb off src.length)) :
    ((ops.writei p src off s = .ok (-1) s ↔
        off > c.length ∨ 2 ^ 32 ≤ off + src.length ∨ MAXFILE * BSIZE < off + src.length) ∧
      (¬(off > c.length ∨ 2 ^ 32 ≤ off + src.length ∨ MAXFILE * BSIZE < off + src.length) →
        ∃ s', ops.writei p src off s = .ok src.length s' ∧
          s'.toStore.content i = c.take off ++ src ++ c.drop (off + src.length) ∧
          ∀ j, j ≠ i → s.toStore.Allocated j → s.toStore.Whole j →
            s'.toStore.content j = s.toStore.content j)) ∧
    ((ops.readi p off n s = .ok (-1, []) s ↔ off > c.length ∨ 2 ^ 32 ≤ off + n) ∧
      (¬(off > c.length ∨ 2 ^ 32 ≤ off + n) →
        ops.readi p off n s = .ok ((min n (c.length - off) : ℕ), (c.drop off).take n) s)) := by
  subst hi hc
  have hread := readi_content h hoff hn
  rw [h.length] at hread ⊢
  -- the other direction of each equivalence: the results of the two cases differ
  have hwrite : ¬(off > (s.icache p).d.size.toNat ∨ 2 ^ 32 ≤ off + src.length ∨
      MAXFILE * BSIZE < off + src.length) → ∃ s', ops.writei p src off s = .ok src.length s' ∧
      s'.toStore.content (s.icache p).inum = (s.toStore.content (s.icache p).inum).take off ++ src ++
        (s.toStore.content (s.icache p).inum).drop (off + src.length) ∧
      ∀ j, j ≠ (s.icache p).inum → s.toStore.Allocated j → s.toStore.Whole j →
        s'.toStore.content j = s.toStore.content j := by
    intro hok
    obtain ⟨hfree, hroom⟩ := hroom (by omega)
    obtain ⟨t, g, bs, hrun, hw⟩ := writei_written h (by omega) (by omega) subset_rfl hfree hroom
    exact ⟨_, hrun, hw.content h (by omega) (by omega), fun j hj ha hwhole =>
      hw.content_other hj ha.1 hwhole⟩
  refine ⟨⟨⟨fun hrun => ?_, writei_refused h.type hoff hsrc⟩, hwrite⟩, ⟨fun hrun => ?_, fun hbad => ?_⟩,
    fun hok => ?_⟩
  · by_contra hok
    obtain ⟨s', hrun', -⟩ := hwrite hok
    have hr : (-1 : ℤ) = src.length := (Res.ok.inj (hrun.symm.trans hrun')).1
    omega
  · by_contra hok
    rw [if_neg hok, hrun] at hread
    have hr : (-1 : ℤ) = (min n ((s.icache p).d.size.toNat - off) : ℕ) :=
      (Prod.mk.inj (Res.ok.inj hread).1).1
    omega
  · rwa [if_pos hbad] at hread
  · rwa [if_neg hok] at hread

/-- A transaction cannot log more blocks than the log holds: `writei` of a range that touches
more of them stops with "too big a transaction". -/
theorem writei_tooBig (h : FileAt s.toStore p) (hoff : off ≤ (s.icache p).d.size.toNat)
    (hmax : off + src.length ≤ MAXFILE * BSIZE)
    (hfree : Store.Supply (s.icache p).inum (slotsFor off src.length) s.toStore)
    (hout : 1 ≤ s.log.outstanding) (hbig : s.log.cap < rounds off src.length) :
    ∃ s', ops.writei p src off s = .halt (.panic (.log .tooBig)) s' := by
  have hsave := writei_saves (P := True) h.wf h.live h.type hoff hmax (slots_slotsFor hmax)
    subset_rfl fun _ => hfree
  have hlen : 0 < src.length := by
    by_contra h0
    rw [rounds, if_pos (by omega)] at hbig
    omega
  unfold Saves lwp Exec.wp at hsave
  cases hrun : ops.writei p src off s with
  | ok r s' =>
    rw [hrun] at hsave
    obtain ⟨t, g, bs, rfl, -, hcap, -, -, hw, hblocks⟩ := hsave
    -- the blocks of the range are different and have all been logged
    have hsub : (Finset.Ico (off / BSIZE) (off / BSIZE + rounds off src.length)).image
        (fun bn => t.slot (s.icache p).inum (slotIdx bn)) ⊆ bs.toFinset := by
      intro b hb
      obtain ⟨bn, hbn, rfl⟩ := Finset.mem_image.mp hb
      obtain ⟨hlo, hhi⟩ := Finset.mem_Ico.mp hbn
      obtain ⟨b, hb, hheld⟩ := hblocks bn hlo ((lt_rounds_iff (by omega)).mp hhi) hlen
      rw [slot_of_held hheld]
      exact mem_toFinset.mpr hb
    have hinj : Set.InjOn (fun bn => t.slot (s.icache p).inum (slotIdx bn))
        (Finset.Ico (off / BSIZE) (off / BSIZE + rounds off src.length)) := by
      intro bn hbn bm hbm heq
      obtain ⟨hlo, hhi⟩ := Finset.mem_Ico.mp hbn
      obtain ⟨hlo', hhi'⟩ := Finset.mem_Ico.mp hbm
      obtain ⟨b, -, hb⟩ := hblocks bn hlo ((lt_rounds_iff (by omega)).mp hhi) hlen
      obtain ⟨b', -, hb'⟩ := hblocks bm hlo' ((lt_rounds_iff (by omega)).mp hhi') hlen
      have hbb : b = b' := by
        simpa [slot_of_held hb, slot_of_held hb'] using heq
      have hidx := (Prod.mk.inj (hw.wf.sound.unique _ _ _ hb (hbb ▸ hb'))).2
      unfold slotIdx at hidx
      split_ifs at hidx <;> omega
    have hcard := Finset.card_le_card hsub
    rw [Finset.card_image_of_injOn hinj, Nat.card_Ico, Nat.add_sub_cancel_left] at hcard
    have hlh := Log.card_le_length_writes s.log bs
    have hne : bs ≠ [] := by
      rintro rfl
      simp at hcard
      omega
    have := hcap hne
    omega
  | halt e s' =>
    rw [hrun] at hsave
    obtain ⟨t, g, bs, rfl, -, hfault, -⟩ := hsave
    cases hfault with
    | log herr =>
      rcases Log.logWrite_error herr with ⟨rfl, -⟩ | ⟨-, hlt⟩
      · exact ⟨_, rfl⟩
      · change s.log.outstanding < 1 at hlt
        omega
    | full hfull => exact absurd trivial hfull

/-! A file system as `mkfs` lays it out. -/

def emptyFile : Dinode := { Dinode.zero with type := T_FILE, nlink := 1, mode := 420 }

/-- The blank disk with the empty file 2 in entry 0 of the inode cache and open in entry 0 of
the file table. -/
def fileFs (lock : Option ℕ) (outstanding : ℤ) : Fs :=
  { blankFs with
    toStore := (blankFs.toStore.setDinode 2 emptyFile).setInode ⟨0, ninode_pos⟩
      ⟨2, 1, lock, true, emptyFile⟩
    log := ⟨2, 30, outstanding, false, []⟩
    ftable := fun _ => ⟨.inode, 1, true, true, ⟨0, ninode_pos⟩, 0⟩ }

theorem fileFs_fileAt (lock : Option ℕ) (o : ℤ) : FileAt (fileFs lock o).toStore ⟨0, by decide⟩ := by
  have hself : (fileFs lock o).icache ⟨0, by decide⟩ = ⟨2, 1, lock, true, emptyFile⟩ :=
    setInode_self
  have hw := blankFs_wf.clear (i := 2) (d := emptyFile) (by decide)
    (fun p hp => absurd hp.1 (lt_irrefl 0)) (.inr (Dinode.addr_of_zero rfl))
  have hd : (blankFs.toStore.setDinode 2 emptyFile).dinode 2 = emptyFile := by
    rw [setDinode_dinode, if_pos rfl]
  have hq : Store.Quiet (blankFs.toStore.setDinode 2 emptyFile) ⟨0, by decide⟩
      ⟨2, 1, lock, true, emptyFile⟩ := by
    refine ⟨fun _ q _ hr => absurd hr (lt_irrefl 0), fun hp => absurd hp.1 (lt_irrefl 0),
      fun _ _ => ?_, fun _ => ⟨⟨show 2 < 200 by decide, ?_⟩, show emptyFile.type ≠ 0 by decide⟩⟩
    · rw [hd]
    · rw [hd]
      decide
  refine ⟨hw.quiet hq, ?_, ?_, fun bn hbn => ?_⟩
  · rw [hself]
    exact ⟨one_pos, rfl⟩
  · rw [hself]
    exact show emptyFile.type ≠ T_DEV by decide
  · rw [hself] at hbn
    exact absurd hbn (Nat.not_lt_zero _)

theorem fileFs_supply (lock : Option ℕ) (o : ℤ) (i : ℕ) {K : Finset ℕ} (hK : K.card ≤ 941) :
    Store.Supply i K (fileFs lock o).toStore := by
  have hfree : Finset.Ico 59 1000 ⊆ (fileFs lock o).toStore.free := by
    intro b hb
    obtain ⟨hlo, hhi⟩ := Finset.mem_Ico.mp hb
    refine mem_free.mpr ⟨hhi, fun hu => ?_⟩
    have hu : blankFs.toStore.used b := (blankFs_wf.used_setDinode (by decide)).mp hu
    exact absurd ((blankFs_used hhi).mp hu) (by omega)
  calc (missing _ i K).card ≤ K.card := Finset.card_filter_le _ _
    _ ≤ (Finset.Ico 59 1000).card := by rwa [Nat.card_Ico]
    _ ≤ _ := Finset.card_le_card hfree

/-- The first three bytes of an empty file. -/
theorem readi_writei_array_first : ∃ s', ops.writei ⟨0, by decide⟩ [1, 2, 3] 0 (fileFs (some 0) 1) =
    .ok 3 s' ∧ s'.toStore.content 2 = [1, 2, 3] := by
  have hempty : (fileFs (some 0) 1).toStore.content 2 = [] := by
    have hlen := (fileFs_fileAt (some 0) 1).length
    exact eq_nil_of_length_eq_zero hlen
  obtain ⟨s', hrun, hc, -⟩ := (readi_writei_array (fileFs_fileAt (some 0) 1) rfl hempty 0 0 [1, 2, 3]
    (by decide) (by decide) (by decide)
    fun _ => ⟨fileFs_supply _ _ _ (by decide), by decide, by decide⟩).1.2 (by decide)
  exact ⟨s', hrun, hc⟩

/-- In a transaction of its own, with 941 free blocks, `writei` of 30 blocks to an empty file
is neither refused nor returns: the log holds 29. -/
theorem writei_array_panics : FileAt (fileFs (some 0) 1).toStore ⟨0, by decide⟩ ∧
    Store.Supply 2 (slotsFor 0 15360) (fileFs (some 0) 1).toStore ∧
    (fileFs (some 0) 1).log = ⟨2, 30, 1, false, []⟩ ∧
    ∃ s', ops.writei ⟨0, by decide⟩ (List.replicate 15360 1) 0 (fileFs (some 0) 1) =
      .halt (.panic (.log .tooBig)) s' := by
  have hfree : Store.Supply 2 (slotsFor 0 15360) (fileFs (some 0) 1).toStore :=
    fileFs_supply _ _ _ ((slotsFor_le _ _).trans (by decide))
  refine ⟨fileFs_fileAt _ _, hfree, rfl, ?_⟩
  refine writei_tooBig (fileFs_fileAt _ _) (Nat.zero_le _) ?_ ?_ (by decide) ?_
  · rw [length_replicate]
    decide
  · rw [length_replicate]
    exact hfree
  · rw [length_replicate]
    decide

end Fs

end Xv6
