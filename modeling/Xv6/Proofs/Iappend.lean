import Xv6.Proofs.Contents
import Xv6.Spec.Mkfs

/-! What `iappend` leaves in the image is what `bmap` and `readi` of the kernel expect. -/

open Function List Buffer Set

namespace Xv6.Mkfs

open Store (slotOf slotIdx)

variable {s : Mkfs} {d : Dinode} {nb fbn : ℕ} {own : Set ℕ} {img img' : ℕ → Block}

/-! Sectors. -/

variable {sec : ℕ}

theorem rsect_ok (h : sec < s.nsect) : rsect sec s = .ok (s.img sec) s := by
  change (if sec < s.nsect then (pure (s.img sec) : MkfsM Block) else Exec.halt .exit) s = _
  rw [if_pos h]
  rfl

variable {s' : Mkfs} {buf : Block}

theorem rsect_eq_ok (h : rsect sec s = .ok buf s') : sec < s.nsect := by
  by_contra hsec
  change (if sec < s.nsect then (pure (s.img sec) : MkfsM Block) else Exec.halt .exit) s = _ at h
  rw [if_neg hsec] at h
  cases h

theorem wsect_ok (h : sec < s.nsect) :
    wsect sec buf s = .ok () { s with img := update s.img sec buf } := by
  change Res.ok () { s with img := update s.img sec buf, nsect := max s.nsect (sec + 1) } = _
  rw [max_eq_left h]

theorem assert_ok {c : Prop} [Decidable c] (h : c) : assert c s = .ok () s := by
  unfold assert
  rw [if_pos h]
  rfl

theorem assert_eq_ok {c : Prop} [Decidable c] (h : assert c s = .ok () s') : c ∧ s' = s := by
  unfold assert at h
  split_ifs at h with hc
  · cases h
    exact ⟨hc, rfl⟩
  · cases h

theorem takeBlock_ok : takeBlock s = .ok s.freeblock { s with freeblock := s.freeblock + 1 } := rfl

/-! The blocks of one inode. -/

/-- The inode has `nb` data blocks, all different and, with the indirect block, in `own`. -/
structure Extent (img : ℕ → Block) (d : Dinode) (nb : ℕ) (own : Set ℕ) : Prop where
  le : nb ≤ MAXFILE
  mem : ∀ bn < nb, slotOf img d (slotIdx bn) ∈ own
  zero : ∀ bn, nb ≤ bn → bn < MAXFILE → slotOf img d (slotIdx bn) = 0
  ind_mem : NDIRECT < nb → d.addr NDIRECT ∈ own
  ind_zero : nb ≤ NDIRECT → d.addr NDIRECT = 0
  inj : ∀ bn bn', bn < nb → bn' < nb → slotOf img d (slotIdx bn) = slotOf img d (slotIdx bn') →
    bn = bn'
  ne_ind : ∀ bn < nb, NDIRECT < nb → slotOf img d (slotIdx bn) ≠ d.addr NDIRECT
  pos : ∀ b ∈ own, 0 < b

theorem extent_nil (h : ∀ k, d.addr k = 0) : Extent img d 0 ∅ := by
  refine ⟨Nat.zero_le _, by simp, fun bn _ _ => ?_, by simp, fun _ => h _, by simp, by simp, by simp⟩
  by_cases hbn : bn < NDIRECT
  · rw [slotOf_direct hbn, h]
  · rw [slotOf_indirect (by omega), h, if_pos rfl]

theorem Extent.slot_congr (h : Extent img d nb own)
    (hi : NDIRECT < nb → img' (d.addr NDIRECT) = img (d.addr NDIRECT)) (bn : ℕ) :
    slotOf img' d (slotIdx bn) = slotOf img d (slotIdx bn) := by
  by_cases hbn : bn < NDIRECT
  · rw [slotOf_direct hbn, slotOf_direct hbn]
  · rw [slotOf_indirect (by omega), slotOf_indirect (by omega)]
    by_cases hn : NDIRECT < nb
    · rw [hi hn]
    · rw [h.ind_zero (by omega), if_pos rfl, if_pos rfl]

theorem Extent.congr (h : Extent img d nb own)
    (hi : NDIRECT < nb → img' (d.addr NDIRECT) = img (d.addr NDIRECT)) : Extent img' d nb own := by
  have hs := h.slot_congr hi
  refine { h with mem := ?_, zero := ?_, inj := ?_, ne_ind := ?_ }
  all_goals simp only [hs]
  · exact h.mem
  · exact h.zero
  · exact h.inj
  · exact h.ne_ind

variable {d' : Dinode} {r : Dinode × ℕ}

theorem Extent.of_addrs (h : Extent img d nb own) (hd : d'.addrs = d.addrs) :
    Extent img d' nb own := by
  have haddr : ∀ k, d'.addr k = d.addr k := fun k => by
    unfold Dinode.addr
    rw [hd]
  have hs : ∀ k, slotOf img d' k = slotOf img d k := fun k => by
    unfold slotOf
    rw [haddr, haddr]
  refine ⟨h.le, ?_, ?_, ?_, ?_, ?_, ?_, h.pos⟩
  all_goals simp only [hs, haddr]
  · exact h.mem
  · exact h.zero
  · exact h.ind_mem
  · exact h.ind_zero
  · exact h.inj
  · exact h.ne_ind

theorem Extent.snoc {own' : Set ℕ} (h : Extent img d nb own) (hnb : nb < MAXFILE)
    (hsub : own ⊆ own') (hpos : ∀ b ∈ own', 0 < b) (hslot : ∀ bn, bn ≠ nb → bn < MAXFILE →
      slotOf img' d' (slotIdx bn) = slotOf img d (slotIdx bn))
    (hnew : slotOf img' d' (slotIdx nb) ∈ own' \ own)
    (hind : if NDIRECT < nb then d'.addr NDIRECT = d.addr NDIRECT
      else if nb = NDIRECT then d'.addr NDIRECT ∈ own' \ own ∧
        d'.addr NDIRECT ≠ slotOf img' d' (slotIdx nb)
      else d'.addr NDIRECT = 0) : Extent img' d' (nb + 1) own' := by
  have hlt : ∀ bn, bn < nb → slotOf img' d' (slotIdx bn) = slotOf img d (slotIdx bn) :=
    fun bn hbn => hslot bn (by omega) (by omega)
  have hmem : ∀ bn < nb, slotOf img' d' (slotIdx bn) ∈ own := fun bn hbn => by
    rw [hlt bn hbn]
    exact h.mem bn hbn
  refine ⟨hnb, fun bn hbn => ?_, fun bn hbn hmax => ?_, fun hn => ?_, fun hn => ?_,
    fun bn bn' hbn hbn' e => ?_, fun bn hbn hn => ?_, hpos⟩
  · rcases Nat.lt_succ_iff_lt_or_eq.mp hbn with hbn | rfl
    · exact hsub (hmem bn hbn)
    · exact hnew.1
  · rw [hslot bn (by omega) hmax]
    exact h.zero bn (by omega) hmax
  · split_ifs at hind with h1 h2
    · rw [hind]
      exact hsub (h.ind_mem h1)
    · exact hind.1.1
    · omega
  · rw [if_neg (by omega), if_neg (by omega)] at hind
    exact hind
  · -- the new block is none of the old ones
    rcases Nat.lt_succ_iff_lt_or_eq.mp hbn with hbn | rfl <;>
      rcases Nat.lt_succ_iff_lt_or_eq.mp hbn' with hbn' | rfl
    · rw [hlt bn hbn, hlt bn' hbn'] at e
      exact h.inj bn bn' hbn hbn' e
    · exact absurd (e ▸ hmem bn hbn) hnew.2
    · exact absurd (e ▸ hmem bn' hbn') hnew.2
    · rfl
  · split_ifs at hind with h1 h2
    · rcases Nat.lt_succ_iff_lt_or_eq.mp hbn with hbn | rfl
      · rw [hlt bn hbn, hind]
        exact h.ne_ind bn hbn h1
      · intro e
        rw [e, hind] at hnew
        exact hnew.2 (h.ind_mem h1)
    · rcases Nat.lt_succ_iff_lt_or_eq.mp hbn with hbn | rfl
      · intro e
        exact hind.1.2 (e ▸ hmem bn hbn)
      · exact hind.2.symm
    · omega

/-- Blocks are taken from `F` up to `F'`, and nothing changes but them and the inode's own. -/
structure Grown (own : Set ℕ) (img : ℕ → Block) (d : Dinode) (F : ℕ) (img' : ℕ → Block)
    (d' : Dinode) (F' : ℕ) : Prop where
  le : F ≤ F'
  addrs : d' = { d with addrs := d'.addrs }
  frame : ∀ b, b ∉ own → b < F ∨ F' ≤ b → img' b = img b

theorem Grown.refl {F : ℕ} : Grown own img d F img d F := ⟨le_rfl, rfl, fun _ _ _ => rfl⟩

theorem Grown.trans {img'' : ℕ → Block} {d' d'' : Dinode} {F F' F'' : ℕ}
    (h : Grown own img d F img' d' F')
    (h' : Grown (own ∪ Ico F F') img' d' F' img'' d'' F'') : Grown own img d F img'' d'' F'' := by
  refine ⟨h.le.trans h'.le, ?_, fun b hb hF => ?_⟩
  · rw [h'.addrs, h.addrs]
  · have hle := h.le
    have hle' := h'.le
    rw [h'.frame b ?_ (by omega), h.frame b hb (by omega)]
    rintro (hm | ⟨h1, h2⟩)
    · exact hb hm
    · omega

/-- What `blockAt` needs of the image: the inode's blocks were taken before, and no other
block has been written. -/
structure Ready (own : Set ℕ) (s : Mkfs) : Prop where
  lt : ∀ b ∈ own, b < s.freeblock
  pos : 0 < s.freeblock
  fresh : ∀ b, s.freeblock ≤ b → s.img b = zero
  nsect : s.nsect < 2 ^ 32

section

variable (h : Extent s.img d nb own) (hr : Ready own s) (hs : s.freeblock ≤ s.nsect)
include h hr hs

theorem blockAt_mapped (hfbn : fbn < nb) :
    blockAt d fbn s = .ok (d, slotOf s.img d (slotIdx fbn)) s := by
  have hne : slotOf s.img d (slotIdx fbn) ≠ 0 := (h.pos _ (h.mem fbn hfbn)).ne'
  unfold blockAt
  by_cases hd : fbn < NDIRECT
  · rw [slotOf_direct hd] at hne ⊢
    rw [if_pos hd, if_neg hne]
    rfl
  · have hi := h.ind_mem (by omega)
    have hi0 := (h.pos _ hi).ne'
    have hlt := hr.lt _ hi
    rw [slotOf_indirect (by omega), if_neg hi0] at hne ⊢
    rw [if_neg hd, if_neg hi0, pure_bind, Exec.bind_apply, rsect_ok (by omega)]
    change (if _ then _ else _ : MkfsM _) s = _
    rw [if_neg hne]
    rfl

theorem blockAt_direct (hnb : nb < NDIRECT) :
    blockAt d nb s = .ok (d.setAddr nb s.freeblock, s.freeblock)
        { s with freeblock := s.freeblock + 1 } ∧
      slotOf s.img (d.setAddr nb s.freeblock) (slotIdx nb) = s.freeblock ∧
      Extent s.img (d.setAddr nb s.freeblock) (nb + 1) (own ∪ Ico s.freeblock (s.freeblock + 1)) := by
  have hn := hr.nsect
  have hpos := hr.pos
  have hz : d.addr nb = 0 := by
    have := h.zero nb le_rfl (hnb.trans (by decide))
    rwa [slotOf_direct hnb] at this
  have haddr : ∀ k ≤ NDIRECT, (d.setAddr nb s.freeblock).addr k =
      if k = nb then s.freeblock else d.addr k := fun k hk => by
    rw [Dinode.addr_setAddr _ _ _ _ hk, Nat.mod_eq_of_lt (by omega)]
  have hind : (d.setAddr nb s.freeblock).addr NDIRECT = d.addr NDIRECT := by
    rw [haddr _ le_rfl, if_neg (by omega)]
  have hnew : slotOf s.img (d.setAddr nb s.freeblock) (slotIdx nb) = s.freeblock := by
    rw [slotOf_direct hnb, haddr nb hnb.le, if_pos rfl]
  refine ⟨?_, hnew, h.snoc (hnb.trans (by decide)) subset_union_left ?_ ?_ ?_ ?_⟩
  · unfold blockAt
    rw [if_pos hnb, if_pos hz]
    change Res.ok (d.setAddr nb s.freeblock, (d.setAddr nb s.freeblock).addr nb) _ = _
    rw [haddr nb hnb.le, if_pos rfl]
  · rintro b (hb | ⟨hb, -⟩)
    · exact h.pos b hb
    · omega
  · intro bn hbn hmax
    by_cases hd : bn < NDIRECT
    · rw [slotOf_direct hd, slotOf_direct hd, haddr bn hd.le, if_neg hbn]
    · rw [slotOf_indirect (by omega), slotOf_indirect (by omega), hind]
  · rw [hnew]
    exact ⟨.inr ⟨le_rfl, Nat.lt_succ_self _⟩, fun hm => lt_irrefl _ (hr.lt _ hm)⟩
  · rw [if_neg (by omega), if_neg (by omega), hind]
    exact h.ind_zero hnb.le

theorem blockAt_entry (hnb : NDIRECT < nb) (hmax : nb < MAXFILE) :
    ∃ img', blockAt d nb s = .ok (d, s.freeblock)
        { s with img := img', freeblock := s.freeblock + 1 } ∧ img' = update s.img (d.addr NDIRECT)
        ((s.img (d.addr NDIRECT)).setWord 4 (4 * (nb - NDIRECT)) s.freeblock) ∧
      slotOf img' d (slotIdx nb) = s.freeblock ∧
      Extent img' d (nb + 1) (own ∪ Ico s.freeblock (s.freeblock + 1)) := by
  have hn := hr.nsect
  have hpos := hr.pos
  have hi := h.ind_mem hnb
  have hi0 := (h.pos _ hi).ne'
  have hilt := hr.lt _ hi
  set ind := s.img (d.addr NDIRECT) with hindef
  have hin : 4 * (nb - NDIRECT) + 4 ≤ BSIZE := by
    simp only [MAXFILE, NINDIRECT, BSIZE] at *
    omega
  have hself : (ind.setWord 4 (4 * (nb - NDIRECT)) s.freeblock).word 4 (4 * (nb - NDIRECT)) =
      s.freeblock := by
    rw [word_setWord_self _ _ _ _ hin]
    exact Nat.mod_eq_of_lt (by omega)
  have hz : ind.word 4 (4 * (nb - NDIRECT)) = 0 := by
    have := h.zero nb le_rfl hmax
    rwa [slotOf_indirect hnb.le, if_neg hi0] at this
  set img' := update s.img (d.addr NDIRECT)
    (ind.setWord 4 (4 * (nb - NDIRECT)) s.freeblock) with himg
  have hind' : img' (d.addr NDIRECT) = ind.setWord 4 (4 * (nb - NDIRECT)) s.freeblock :=
    update_self ..
  have hnew : slotOf img' d (slotIdx nb) = s.freeblock := by
    rw [slotOf_indirect hnb.le, if_neg hi0, hind', hself]
  refine ⟨img', ?_, rfl, hnew, h.snoc hmax subset_union_left ?_ ?_ ?_ ?_⟩
  · unfold blockAt
    rw [if_neg (by omega), if_neg hi0, pure_bind, Exec.bind_apply, rsect_ok (by omega)]
    change (if ind.word 4 (4 * (nb - NDIRECT)) = 0 then _ else _ : MkfsM _) s = _
    rw [if_pos hz, Exec.bind_apply, takeBlock_ok]
    change (wsect (d.addr NDIRECT) (ind.setWord 4 (4 * (nb - NDIRECT)) s.freeblock) >>= _)
      { s with freeblock := s.freeblock + 1 } = _
    rw [Exec.bind_apply, wsect_ok (by exact hilt.trans_le hs)]
    change Res.ok (d, (ind.setWord 4 (4 * (nb - NDIRECT)) s.freeblock).word 4 (4 * (nb - NDIRECT))) _ = _
    rw [hself]
  · rintro b (hb | ⟨hb, -⟩)
    · exact h.pos b hb
    · omega
  · intro bn hbn _
    by_cases hd : bn < NDIRECT
    · rw [slotOf_direct hd, slotOf_direct hd]
    · rw [slotOf_indirect (by omega), slotOf_indirect (by omega), if_neg hi0, if_neg hi0, hind',
        word_setWord_of_disjoint _ _ _ _ _ _ (by omega)]
  · rw [hnew]
    exact ⟨.inr ⟨le_rfl, Nat.lt_succ_self _⟩, fun hm => lt_irrefl _ (hr.lt _ hm)⟩
  · rw [if_pos hnb]

end

theorem blockAt_indirect (h : Extent s.img d NDIRECT own) (hr : Ready own s)
    (hs : s.freeblock < s.nsect) :
    ∃ img', blockAt d NDIRECT s = .ok (d.setAddr NDIRECT s.freeblock, s.freeblock + 1)
        { s with img := img', freeblock := s.freeblock + 2 } ∧
      img' = update s.img s.freeblock (zero.setWord 4 0 (s.freeblock + 1)) ∧
      slotOf img' (d.setAddr NDIRECT s.freeblock) (slotIdx NDIRECT) = s.freeblock + 1 ∧
      Extent img' (d.setAddr NDIRECT s.freeblock) (NDIRECT + 1)
        (own ∪ Ico s.freeblock (s.freeblock + 2)) := by
  have hn := hr.nsect
  have hpos := hr.pos
  have hz : d.addr NDIRECT = 0 := h.ind_zero le_rfl
  set d' := d.setAddr NDIRECT s.freeblock with hd'
  have hind : d'.addr NDIRECT = s.freeblock := by
    rw [hd', Dinode.addr_setAddr _ _ _ _ le_rfl, if_pos rfl, Nat.mod_eq_of_lt (by omega)]
  have haddr : ∀ k < NDIRECT, d'.addr k = d.addr k := fun k hk => by
    rw [hd', Dinode.addr_setAddr _ _ _ _ hk.le, if_neg hk.ne]
  set buf : Block := zero.setWord 4 0 (s.freeblock + 1) with hbuf
  have hself : buf.word 4 0 = s.freeblock + 1 := by
    rw [hbuf, word_setWord_self _ _ _ _ (by decide)]
    exact Nat.mod_eq_of_lt (by omega)
  set img' := update s.img s.freeblock buf with himg
  have hblk : img' (d'.addr NDIRECT) = buf := by
    rw [hind, himg, update_self]
  have hnew : slotOf img' d' (slotIdx NDIRECT) = s.freeblock + 1 := by
    rw [slotOf_indirect le_rfl, hblk, hind, if_neg hpos.ne', Nat.sub_self, Nat.mul_zero, hself]
  refine ⟨img', ?_, rfl, hnew, h.snoc (by decide) subset_union_left ?_ ?_ ?_ ?_⟩
  · unfold blockAt
    rw [if_neg (lt_irrefl _), if_pos hz]
    change (rsect (d'.addr NDIRECT) >>= _) { s with freeblock := s.freeblock + 1 } = _
    rw [Exec.bind_apply, hind, rsect_ok (by exact hs)]
    change (if (s.img s.freeblock).word 4 (4 * (NDIRECT - NDIRECT)) = 0 then _ else _ : MkfsM _)
      { s with freeblock := s.freeblock + 1 } = _
    rw [hr.fresh _ le_rfl, if_pos (word_zero _ _), Exec.bind_apply, takeBlock_ok]
    change (wsect s.freeblock buf >>= _) { s with freeblock := s.freeblock + 1 + 1 } = _
    rw [Exec.bind_apply, wsect_ok (by exact hs)]
    change Res.ok (d', buf.word 4 0) _ = _
    rw [hself]
  · rintro b (hb | ⟨hb, -⟩)
    · exact h.pos b hb
    · omega
  · intro bn hbn hmax
    by_cases hd : bn < NDIRECT
    · rw [slotOf_direct hd, slotOf_direct hd, haddr bn hd]
    · -- the other entries of the new indirect block are zero
      rw [slotOf_indirect (by omega), slotOf_indirect (by omega), hz, if_pos rfl, hblk, hbuf,
        word_setWord_of_disjoint _ _ _ _ _ _ (by omega), word_zero, ite_self]
  · rw [hnew]
    exact ⟨.inr ⟨Nat.le_succ _, Nat.lt_succ_self _⟩, fun hm => absurd (hr.lt _ hm) (by omega)⟩
  · rw [if_neg (lt_irrefl _), if_pos rfl, hnew, hind]
    exact ⟨⟨.inr ⟨le_rfl, by omega⟩, fun hm => lt_irrefl _ (hr.lt _ hm)⟩, by omega⟩

section

variable (h : Extent s.img d nb own) (hr : Ready own s) (hle : fbn ≤ nb) (hmax : fbn < MAXFILE)
  (hF : s.freeblock ≤ s.nsect)
include h hr hle hmax hF

/-- `blockAt` finds the sector of block `fbn`, of an inode that has it or lacks just this one,
and leaves the other data blocks alone. -/
theorem blockAt_spec
    (hs : s.freeblock + extentBlocks (max nb (fbn + 1)) ≤ s.nsect + extentBlocks nb) :
    ∃ d' img' F', blockAt d fbn s = .ok (d', slotOf img' d' (slotIdx fbn))
        { s with img := img', freeblock := F' } ∧
      Extent img' d' (max nb (fbn + 1)) (own ∪ Ico s.freeblock F') ∧
      F' + extentBlocks nb = s.freeblock + extentBlocks (max nb (fbn + 1)) ∧
      Grown own s.img d s.freeblock img' d' F' ∧
      ∀ bn < nb, slotOf img' d' (slotIdx bn) = slotOf s.img d (slotIdx bn) ∧
        img' (slotOf s.img d (slotIdx bn)) = s.img (slotOf s.img d (slotIdx bn)) := by
  rcases hle.lt_or_eq with hlt | rfl
  · rw [max_eq_left hlt] at hs ⊢
    refine ⟨d, s.img, s.freeblock, blockAt_mapped h hr hF hlt, ?_, rfl, .refl, fun _ _ => ⟨rfl, rfl⟩⟩
    rwa [Ico_self, union_empty]
  · rw [max_eq_right (show fbn ≤ fbn + 1 by omega)] at hs ⊢
    unfold extentBlocks at hs ⊢
    rcases lt_trichotomy fbn NDIRECT with hd | rfl | hd
    · rw [if_neg (show ¬NDIRECT < fbn + 1 by omega), if_neg (by omega)] at hs ⊢
      obtain ⟨hrun, hnew, hext⟩ := blockAt_direct h hr (by omega) hd
      refine ⟨_, _, _, by rw [hnew]; exact hrun, hext, by omega, ⟨Nat.le_succ _, rfl, fun _ _ _ => rfl⟩,
        fun bn hbn => ⟨?_, rfl⟩⟩
      rw [slotOf_direct (by omega), slotOf_direct (by omega), Dinode.addr_setAddr _ _ _ _ (by omega),
        if_neg hbn.ne]
    · rw [if_pos (Nat.lt_succ_self _), if_neg (lt_irrefl _)] at hs ⊢
      obtain ⟨img', hrun, himg, hnew, hext⟩ := blockAt_indirect h hr (by omega)
      refine ⟨_, img', _, by rw [hnew]; exact hrun, hext, by omega,
        ⟨by omega, rfl, fun b _ hb => ?_⟩, fun bn hbn => ⟨?_, ?_⟩⟩
      · rw [himg, update_of_ne (by omega)]
      · rw [slotOf_direct hbn, slotOf_direct hbn, Dinode.addr_setAddr _ _ _ _ hbn.le,
          if_neg hbn.ne]
      · rw [himg, update_of_ne (hr.lt _ (h.mem bn hbn)).ne]
    · rw [if_pos (show NDIRECT < fbn + 1 by omega), if_pos hd] at hs ⊢
      obtain ⟨img', hrun, himg, hnew, hext⟩ := blockAt_entry h hr (by omega) hd hmax
      refine ⟨_, img', _, by rw [hnew]; exact hrun, hext, by omega,
        ⟨by omega, rfl, fun b hb _ => ?_⟩, fun bn hbn => ⟨?_, ?_⟩⟩
      · rw [himg, update_of_ne]
        rintro rfl
        exact hb (h.ind_mem hd)
      · have hi0 := (h.pos _ (h.ind_mem hd)).ne'
        by_cases hbd : bn < NDIRECT
        · rw [slotOf_direct hbd, slotOf_direct hbd]
        · rw [slotOf_indirect (by omega), slotOf_indirect (by omega), if_neg hi0, if_neg hi0, himg,
            update_self, word_setWord_of_disjoint _ _ _ _ _ _ (by omega)]
      · rw [himg, update_of_ne (h.ne_ind bn hbn hd)]

theorem blockAt_full
    (hs : s.nsect + extentBlocks nb < s.freeblock + extentBlocks (max nb (fbn + 1)))
    (hok : blockAt d fbn s = .ok r s') : s'.nsect ≤ r.2 := by
  rcases hle.lt_or_eq with hlt | rfl
  · rw [max_eq_left hlt] at hs
    omega
  · rw [max_eq_right (show fbn ≤ fbn + 1 by omega)] at hs
    unfold extentBlocks at hs
    rcases lt_trichotomy fbn NDIRECT with hd | rfl | hd
    · rw [if_neg (show ¬NDIRECT < fbn + 1 by omega), if_neg (by omega)] at hs
      rw [(blockAt_direct h hr hF hd).1] at hok
      cases hok
      change s.nsect ≤ s.freeblock
      omega
    · rw [if_pos (Nat.lt_succ_self _), if_neg (lt_irrefl _)] at hs
      by_cases hfree : s.freeblock < s.nsect
      · obtain ⟨img', hrun, -⟩ := blockAt_indirect h hr hfree
        rw [hrun] at hok
        cases hok
        change s.nsect ≤ s.freeblock + 1
        omega
      · -- the new indirect block cannot even be read
        have hind : (d.setAddr NDIRECT s.freeblock).addr NDIRECT = s.freeblock := by
          have hn := hr.nsect
          rw [Dinode.addr_setAddr _ _ _ _ le_rfl, if_pos rfl, Nat.mod_eq_of_lt (by omega)]
        unfold blockAt at hok
        rw [if_neg (lt_irrefl _), if_pos (h.ind_zero le_rfl)] at hok
        change (rsect ((d.setAddr NDIRECT s.freeblock).addr NDIRECT) >>= _)
          { s with freeblock := s.freeblock + 1 } = _ at hok
        obtain ⟨_, _, hread, -⟩ := Exec.bind_eq_ok.mp hok
        rw [hind] at hread
        exact absurd (rsect_eq_ok hread) hfree
    · rw [if_pos (show NDIRECT < fbn + 1 by omega), if_pos hd] at hs
      obtain ⟨img', hrun, -⟩ := blockAt_entry h hr hF hd hmax
      rw [hrun] at hok
      cases hok
      change s.nsect ≤ s.freeblock
      omega

end

/-! Appending. -/

theorem dataBlocks_bounds (len : ℕ) :
    len ≤ dataBlocks len * BSIZE ∧ dataBlocks len * BSIZE < len + BSIZE := by
  simp only [dataBlocks, BSIZE]
  omega

variable {p : List UInt8} {off : ℕ}

theorem fileBytes_patch (h : Extent img d nb own)
    (hfbn : off / BSIZE < nb) (hp : off % BSIZE + p.length ≤ BSIZE) :
    fileBytes (update img (slotOf img d (slotIdx (off / BSIZE)))
        ((img (slotOf img d (slotIdx (off / BSIZE)))).patch (off % BSIZE) p)) d 0 (off + p.length) =
      fileBytes img d 0 off ++ p := by
  set x := slotOf img d (slotIdx (off / BSIZE)) with hx
  set img' := update img x ((img x).patch (off % BSIZE) p) with himg
  have hslot : ∀ bn, slotOf img' d (slotIdx bn) = slotOf img d (slotIdx bn) := by
    refine h.slot_congr fun hi => ?_
    rw [himg, update_of_ne (h.ne_ind _ hfbn hi).symm]
  have hself : img' x = (img x).patch (off % BSIZE) p := update_self ..
  rw [fileBytes_add, Nat.zero_add]
  congr 1
  · refine map_congr_left fun k hk => ?_
    have hk := mem_range.mp hk
    rw [Nat.zero_add]
    unfold fileByte
    rw [hslot]
    by_cases hblk : k / BSIZE = off / BSIZE
    · rw [hblk, ← hx, hself, get_patch_of_outside]
      simp only [BSIZE] at *
      omega
    · have hkb : k / BSIZE < nb := (Nat.div_le_div_right hk.le).trans_lt hfbn
      rw [himg, update_of_ne]
      exact fun e => hblk (h.inj _ _ hkb hfbn e)
  · rw [← slice_eq_fileBytes img' d (by omega), hslot, ← hx, hself,
      slice_patch_self _ _ _ hp]

theorem fileBlocks_mono {m n : ℕ} (h : m ≤ n) : fileBlocks m ≤ fileBlocks n := by
  have hd : dataBlocks m ≤ dataBlocks n := Nat.div_le_div_right (by omega)
  unfold fileBlocks extentBlocks
  split_ifs <;> omega

theorem Ready.grow {F' : ℕ} (hr : Ready own s) (hg : Grown own s.img d s.freeblock img' d' F') :
    Ready (own ∪ Ico s.freeblock F') { s with img := img', freeblock := F' } := by
  have hle := hg.le
  refine ⟨?_, hr.pos.trans_le hle, fun b hb => ?_, hr.nsect⟩
  · rintro b (hb | ⟨-, hb⟩)
    · exact (hr.lt b hb).trans_le hle
    · exact hb
  · have hb : F' ≤ b := hb
    have hown : b ∉ own := fun hm => absurd (hr.lt b hm) (by omega)
    exact (hg.frame b hown (.inr hb)).trans (hr.fresh b (by omega))

structure Appended (own : Set ℕ) (s : Mkfs) (d : Dinode) (off : ℕ) (p : List UInt8)
    (img' : ℕ → Block) (d' : Dinode) (F' : ℕ) : Prop where
  extent : Extent img' d' (dataBlocks (off + p.length)) (own ∪ Ico s.freeblock F')
  used : F' + fileBlocks off = s.freeblock + fileBlocks (off + p.length)
  grown : Grown own s.img d s.freeblock img' d' F'
  bytes : fileBytes img' d' 0 (off + p.length) = fileBytes s.img d 0 off ++ p

theorem round_spec (h : Extent s.img d (dataBlocks off) own)
    (hr : Ready own s) (hF : s.freeblock ≤ s.nsect) (hp : 0 < p.length)
    (hin : off % BSIZE + p.length ≤ BSIZE) (hmax : off + p.length ≤ MAXFILE * BSIZE)
    (hs : s.freeblock + fileBlocks (off + p.length) ≤ s.nsect + fileBlocks off) :
    ∃ d' img1 img' F' x, blockAt d (off / BSIZE) s = .ok (d', x) { s with img := img1, freeblock := F' } ∧
      x < s.nsect ∧ img' = update img1 x ((img1 x).patch (off % BSIZE) p) ∧
      F' ≤ s.nsect ∧ Appended own s d off p img' d' F' := by
  have hb := dataBlocks_bounds off
  have hb' := dataBlocks_bounds (off + p.length)
  have hmod := Nat.div_add_mod' off BSIZE
  have hmlt : off % BSIZE < BSIZE := Nat.mod_lt _ (by decide)
  have hle : off / BSIZE ≤ dataBlocks off := by
    simp only [dataBlocks, BSIZE] at *
    omega
  have hnew : max (dataBlocks off) (off / BSIZE + 1) = dataBlocks (off + p.length) := by
    simp only [dataBlocks, BSIZE] at *
    omega
  have hfbn : off / BSIZE < MAXFILE := by
    simp only [MAXFILE, NDIRECT, NINDIRECT, BSIZE] at *
    omega
  obtain ⟨d', img1, F', hrun, hext, hused, hg, hold⟩ :=
    blockAt_spec h hr hle hfbn hF (by rw [hnew]; exact hs)
  rw [hnew] at hext hused
  have hlt : off / BSIZE < dataBlocks (off + p.length) := by
    rw [← hnew]
    omega
  have hr' := hr.grow hg
  have hF' : F' ≤ s.nsect := by
    unfold fileBlocks at hs
    omega
  have hx := hr'.lt _ (hext.mem _ hlt)
  refine ⟨d', img1, _, F', _, hrun, lt_of_lt_of_le hx hF', rfl, hF', ?_⟩
  refine ⟨hext.congr fun hi => ?_, hused, ⟨hg.le, hg.addrs, fun b hb hbF => ?_⟩, ?_⟩
  · rw [update_of_ne (hext.ne_ind _ hlt hi).symm]
  · rw [update_of_ne, hg.frame b hb hbF]
    rintro rfl
    rcases hext.mem _ hlt with hm | ⟨h1, h2⟩
    · exact hb hm
    · omega
  · rw [fileBytes_patch hext hlt hin]
    congr 1
    -- the data blocks that were there are as before
    refine map_congr_left fun k hk => ?_
    have hk := mem_range.mp hk
    have hkb : (0 + k) / BSIZE < dataBlocks off := by
      simp only [BSIZE] at *
      omega
    obtain ⟨h1, h2⟩ := hold _ hkb
    unfold fileByte
    rw [h1, h2]

theorem Appended.trans {p q : List UInt8} {img1 img2 : ℕ → Block} {d1 d2 : Dinode}
    {F1 F2 : ℕ} (h : Appended own s d off p img1 d1 F1)
    (h' : Appended (own ∪ Ico s.freeblock F1) { s with img := img1, freeblock := F1 } d1
      (off + p.length) q img2 d2 F2) : Appended own s d off (p ++ q) img2 d2 F2 := by
  have hset : own ∪ Ico s.freeblock F1 ∪ Ico F1 F2 = own ∪ Ico s.freeblock F2 := by
    rw [union_assoc, Ico_union_Ico_eq_Ico h.grown.le h'.grown.le]
  have hlen : off + (p ++ q).length = off + p.length + q.length := by
    rw [length_append, Nat.add_assoc]
  refine ⟨?_, ?_, h.grown.trans h'.grown, ?_⟩
  · rw [hlen, ← hset]
    exact h'.extent
  · have h1 := h.used
    have h2 := h'.used
    simp only at h2
    rw [hlen]
    omega
  · rw [hlen, h'.bytes, h.bytes, append_assoc]

theorem appendFrom_spec (h : Extent s.img d (dataBlocks off) own)
    (hr : Ready own s) (hF : s.freeblock ≤ s.nsect) (hmax : off + p.length ≤ MAXFILE * BSIZE)
    (hs : s.freeblock + fileBlocks (off + p.length) ≤ s.nsect + fileBlocks off) :
    ∃ d' img' F', appendFrom d off p s =
        .ok (d', off + p.length) { s with img := img', freeblock := F' } ∧
      Appended own s d off p img' d' F' := by
  induction hn : p.length using Nat.strong_induction_on generalizing s d off own p with
  | _ n ih =>
    unfold appendFrom
    split_ifs with hp
    · obtain rfl := eq_nil_of_length_eq_zero hp
      refine ⟨d, s.img, s.freeblock, by subst hn; rfl, ?_, rfl, .refl, ?_⟩
      · rwa [Ico_self, union_empty]
      · rw [append_nil]
        rfl
    · have hmod := Nat.div_add_mod' off BSIZE
      have hmlt : off % BSIZE < BSIZE := Nat.mod_lt _ (by decide)
      have hsub : off - off / BSIZE * BSIZE = off % BSIZE := by omega
      have hroom : (off / BSIZE + 1) * BSIZE - off = BSIZE - off % BSIZE := by
        rw [Nat.add_mul, Nat.one_mul]
        omega
      rw [hroom, hsub]
      set m := min p.length (BSIZE - off % BSIZE) with hm
      have hlen : (p.take m).length = m := by
        rw [length_take]
        omega
      have hmono : fileBlocks (off + m) ≤ fileBlocks (off + p.length) := fileBlocks_mono (by omega)
      obtain ⟨d1, img1, img2, F1, x, hrun, hx, himg, hF1, ha⟩ := round_spec (p := p.take m) h hr hF
        (by omega) (by omega) (by omega) (by rw [hlen]; omega)
      have hused := ha.used
      rw [hlen] at hused
      have hext := ha.extent
      rw [hlen] at hext
      obtain ⟨d2, img3, F2, hrest, ha'⟩ := ih (p.drop m).length (by rw [length_drop]; omega)
        hext (hr.grow ha.grown) hF1 (by rw [length_drop]; omega) (by
          rw [length_drop, show off + m + (p.length - m) = off + p.length by omega]
          change F1 + _ ≤ s.nsect + _
          omega) rfl
      refine ⟨d2, img3, F2, ?_, ?_⟩
      · have hfbn : off / BSIZE < MAXFILE := by
          simp only [MAXFILE, NDIRECT, NINDIRECT, BSIZE] at *
          omega
        rw [Exec.bind_apply, assert_ok hfbn]
        change (blockAt d (off / BSIZE) >>= _) s = _
        rw [Exec.bind_apply, hrun]
        change (rsect x >>= _) { s with img := img1, freeblock := F1 } = _
        rw [Exec.bind_apply, rsect_ok (by exact hx)]
        change (wsect x ((img1 x).patch (off % BSIZE) (p.take m)) >>= _)
          { s with img := img1, freeblock := F1 } = _
        rw [Exec.bind_apply, wsect_ok (by exact hx), ← himg]
        change appendFrom d1 (off + m) (p.drop m) { s with img := img2, freeblock := F1 } = _
        rw [hrest, length_drop, show off + m + (p.length - m) = off + n by omega]
      · have := ha.trans (by rw [hlen]; exact ha')
        rwa [take_append_drop] at this

theorem appendFrom_room
    (h : Extent s.img d (dataBlocks off) own) (hr : Ready own s) (hF : s.freeblock ≤ s.nsect)
    (hok : appendFrom d off p s = .ok r s') : off + p.length ≤ MAXFILE * BSIZE ∧
      s.freeblock + fileBlocks (off + p.length) ≤ s.nsect + fileBlocks off := by
  induction hn : p.length using Nat.strong_induction_on generalizing s d off own p with
  | _ n ih =>
    unfold appendFrom at hok
    split_ifs at hok with hp
    · obtain rfl : n = 0 := hn.symm.trans hp
      have hle : off ≤ dataBlocks off * BSIZE := (dataBlocks_bounds off).1
      exact ⟨hle.trans (Nat.mul_le_mul_right BSIZE h.le), Nat.add_le_add_right hF _⟩
    · have hmod := Nat.div_add_mod' off BSIZE
      have hmlt : off % BSIZE < BSIZE := Nat.mod_lt _ (by decide)
      have hsub : off - off / BSIZE * BSIZE = off % BSIZE := by omega
      have hroom : (off / BSIZE + 1) * BSIZE - off = BSIZE - off % BSIZE := by
        rw [Nat.add_mul, Nat.one_mul]
        omega
      rw [hroom, hsub] at hok
      set m := min p.length (BSIZE - off % BSIZE) with hm
      have hlen : (p.take m).length = m := by
        rw [length_take]
        omega
      obtain ⟨_, s0, hassert, hok0⟩ := Exec.bind_eq_ok.mp hok
      obtain ⟨hfbn, hs0⟩ := assert_eq_ok hassert
      rw [hs0] at hok0
      obtain ⟨⟨d1, x⟩, s1, hblock, hok1⟩ := Exec.bind_eq_ok.mp hok0
      obtain ⟨buf, s2, hread, hok2⟩ := Exec.bind_eq_ok.mp hok1
      obtain ⟨_, s3, hwrite, hok3⟩ := Exec.bind_eq_ok.mp hok2
      have hle : off / BSIZE ≤ dataBlocks off := by
        simp only [dataBlocks, BSIZE] at *
        omega
      have hnew : max (dataBlocks off) (off / BSIZE + 1) = dataBlocks (off + m) := by
        simp only [dataBlocks, BSIZE] at *
        omega
      have hmax : off + m ≤ MAXFILE * BSIZE := by
        simp only [MAXFILE, NDIRECT, NINDIRECT, BSIZE] at *
        omega
      -- this round had room, or its sector could not be read
      have hs : s.freeblock + fileBlocks (off + m) ≤ s.nsect + fileBlocks off := by
        by_contra hfull
        have hpast := blockAt_full h hr hle hfbn hF
          (by rw [hnew]; exact not_le.mp hfull) hblock
        exact absurd (rsect_eq_ok hread) (not_lt.mpr hpast)
      obtain ⟨d1', img1, img2, F1, x', hrun, hx, himg, hF1, ha⟩ := round_spec (p := p.take m) h hr
        hF (by omega) (by omega) (by omega) (by rw [hlen]; exact hs)
      rw [hrun] at hblock
      cases hblock
      rw [rsect_ok (by exact hx)] at hread
      cases hread
      rw [wsect_ok (by exact hx), ← himg] at hwrite
      cases hwrite
      have hused := ha.used
      have hext := ha.extent
      rw [hlen] at hused hext
      have hrest := ih (p.drop m).length (by rw [length_drop]; omega) hext (hr.grow ha.grown)
        hF1 hok3 rfl
      rw [length_drop, show off + m + (p.length - m) = off + n by omega] at hrest
      obtain ⟨hmax', hs'⟩ := hrest
      change F1 + _ ≤ s.nsect + _ at hs'
      exact ⟨hmax', by omega⟩

end Xv6.Mkfs
