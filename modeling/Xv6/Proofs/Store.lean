import Xv6.Proofs.Layout
import Xv6.Spec.Ownership

/-! Each change to the disk or to the inode cache, as a change of the ledger of owned
blocks, and that it keeps the file system well formed. -/

namespace Xv6

namespace Superblock

variable {sb : Superblock}

theorem Geometry.iblock_lt (h : sb.Geometry) {i : ℕ} (hi : i < sb.ninodes) :
    IBLOCK i sb < sb.bmapstart := by
  have := h.bmapstart
  have : i / IPB ≤ sb.ninodes / IPB := Nat.div_le_div_right hi.le
  unfold IBLOCK
  omega

theorem Geometry.bblock_mem (_h : sb.Geometry) {b : ℕ} (hb : b < sb.size) :
    BBLOCK b sb ∈ sb.mapBlocks := by
  have : b / BPB ≤ sb.size / BPB := Nat.div_le_div_right hb.le
  simp only [mapBlocks, BBLOCK, Superblock.datastart, Set.mem_ofPred_eq]
  exact ⟨Nat.le_add_left _ _, by omega⟩

theorem dataBlocks_pos {b : ℕ} (hb : b ∈ sb.dataBlocks) : b ≠ 0 := by
  have h : sb.bmapstart + (sb.size / BPB + 1) ≤ b := hb.1
  exact Nat.ne_of_gt (lt_of_lt_of_le (Nat.succ_pos _) h)

end Superblock

namespace Store

variable {t t' : Store} {x : Set Ptr} {out : Set ℕ} {p : Ptr} {i j k b c : ℕ}

/-! What the ledger reads. -/

variable {blocks : ℕ → Block}

theorem slotOf_le {d : Dinode} (hk : k ≤ NDIRECT) : slotOf blocks d k = d.addr k := if_pos hk

theorem slotOf_congr {blocks blocks' : ℕ → Block} {d d' : Dinode} (hd : d'.addrs = d.addrs)
    (hb : d.addr NDIRECT ≠ 0 → blocks' (d.addr NDIRECT) = blocks (d.addr NDIRECT)) :
    slotOf blocks' d' k = slotOf blocks d k := by
  have ha : d'.addr = d.addr := by
    funext k
    unfold Dinode.addr
    rw [hd]
  unfold slotOf
  rw [ha]
  split_ifs with _ hn
  · rfl
  · rfl
  · rw [hb hn]

theorem held_iff : t.held (i, k) = some b ↔
    t.Allocated i ∧ k ≤ MAXFILE ∧ t.slot i k = b ∧ b ≠ 0 := by
  unfold held
  split_ifs with h
  · simp only [Option.some.injEq]
    constructor
    · rintro rfl
      exact ⟨h.1, h.2.1, rfl, h.2.2⟩
    · exact fun hb => hb.2.2.1
  · simp only [false_iff]
    rintro ⟨ha, hk, rfl, hb⟩
    exact h ⟨ha, hk, hb⟩

theorem cached_none (h : ∀ p, (t.icache p).Live → (t.icache p).inum ≠ i) : t.cached i = none := by
  unfold cached
  rw [List.find?_eq_none]
  intro p _
  simpa using h p

theorem view_none (h : ∀ p, (t.icache p).Live → (t.icache p).inum ≠ i) : t.view i = t.dinode i := by
  unfold view
  rw [cached_none h]

theorem cached_some (h : t.cached i = some p) : (t.icache p).Live ∧ (t.icache p).inum = i := by
  simpa using List.find?_some h

theorem view_cases (t : Store) (i : ℕ) :
    (∃ p, (t.icache p).Live ∧ (t.icache p).inum = i ∧ t.view i = (t.icache p).d) ∨
      ((∀ p, (t.icache p).Live → (t.icache p).inum ≠ i) ∧ t.view i = t.dinode i) := by
  cases h : t.cached i with
  | none =>
    right
    refine ⟨fun p hp e => ?_, by unfold view; rw [h]⟩
    unfold cached at h
    rw [List.find?_eq_none] at h
    exact h p (List.mem_finRange p) (by simp [hp, e])
  | some p =>
    left
    exact ⟨p, (cached_some h).1, (cached_some h).2, by unfold view; rw [h]⟩

theorem Unique.view_live (h : t.Unique) (hp : (t.icache p).Live) :
    t.view (t.icache p).inum = (t.icache p).d := by
  rcases view_cases t (t.icache p).inum with ⟨q, hq, hi, hv⟩ | ⟨hn, -⟩
  · rw [hv, h q p hq.1 hp.1 hi]
  · exact absurd rfl (hn p hp)

theorem slotOf_gt {d : Dinode} (hk : NDIRECT < k) : slotOf blocks d k = if d.addr NDIRECT = 0 then 0
      else (blocks (d.addr NDIRECT)).word 4 (4 * (k - NDIRECT - 1)) :=
  if_neg (by omega)

theorem slotOf_sub {d d' : Dinode} (hd : ∀ k ≤ NDIRECT, d'.addr k = d.addr k ∨ d'.addr k = 0)
    (hk : slotOf blocks d' k ≠ 0) : slotOf blocks d k = slotOf blocks d' k := by
  by_cases hkn : k ≤ NDIRECT
  · rw [slotOf_le hkn] at hk ⊢
    rw [slotOf_le hkn]
    exact ((hd k hkn).resolve_right hk).symm
  · rw [slotOf_gt (by omega)] at hk ⊢
    rw [slotOf_gt (by omega)]
    rcases hd NDIRECT le_rfl with h | h
    · rw [h]
    · rw [if_pos h] at hk
      exact absurd rfl hk

/-! Changes to the inode cache. -/

theorem WfExcept.weaken (h : WfExcept x out t) {y : Set Ptr} (hxy : x ⊆ y) : WfExcept y out t :=
  { h with synced := fun p hp => h.synced p fun hx => hp (hxy hx) }

def setInode (t : Store) (p : Ptr) (n : Inode) : Store :=
  { t with icache := Function.update t.icache p n }

variable {n : Inode}

@[simp] theorem setInode_sb : (t.setInode p n).sb = t.sb := rfl

@[simp] theorem setInode_blocks : (t.setInode p n).blocks = t.blocks := rfl

@[simp] theorem setInode_dinode : (t.setInode p n).dinode i = t.dinode i := rfl

@[simp] theorem setInode_self : (t.setInode p n).icache p = n := by
  simp [setInode]

@[simp] theorem setInode_ne {q : Ptr} (h : q ≠ p) : (t.setInode p n).icache q = t.icache q := by
  simp [setInode, h]

theorem setInode_icache (q : Ptr) :
    (t.setInode p n).icache q = if q = p then n else t.icache q := by
  simp [setInode, Function.update_apply]

theorem view_setInode (hold : ¬((t.icache p).Live ∧ (t.icache p).inum = i))
    (hnew : ¬(n.Live ∧ n.inum = i)) : (t.setInode p n).view i = t.view i := by
  have hc : (t.setInode p n).cached i = t.cached i := by
    unfold cached
    congr 1
    funext q
    rw [setInode_icache]
    split_ifs with hq
    · rw [hq, decide_eq_decide.mpr (iff_of_false hnew hold)]
    · rfl
  unfold view
  rw [hc]
  cases h : t.cached i with
  | none => rfl
  | some q =>
    have hq : q ≠ p := fun e => hold (e ▸ cached_some h)
    simp [hq]

theorem Unique.setInode (h : t.Unique)
    (hu : 0 < n.ref → ∀ q, q ≠ p → 0 < (t.icache q).ref → (t.icache q).inum ≠ n.inum) :
    (t.setInode p n).Unique := by
  intro q r
  rw [setInode_icache, setInode_icache]
  split_ifs with hq hr hr
  · exact fun _ _ _ => hq.trans hr.symm
  · exact fun hq' hr' e => absurd e.symm (hu hq' r hr hr')
  · exact fun hq' hr' e => absurd e (hu hr' q hq hq')
  · exact h q r

theorem Unique.view_setInode (h : t.Unique) (hn : n.Live)
    (hu : ∀ q, q ≠ p → 0 < (t.icache q).ref → (t.icache q).inum ≠ n.inum) :
    (t.setInode p n).view n.inum = n.d := by
  have hv := (h.setInode fun _ => hu).view_live (show ((t.setInode p n).icache p).Live by simpa)
  simpa using hv

variable {out' : Set ℕ}

theorem WfExcept.setInode (h : WfExcept x out t)
    (hu : 0 < n.ref → ∀ q, q ≠ p → 0 < (t.icache q).ref → (t.icache q).inum ≠ n.inum)
    (hl : n.Live → t.Allocated n.inum ∧ n.d.type ≠ 0) (hs : p ∉ x → n.Live → ∀ k ≤ NDIRECT,
      (t.dinode n.inum).addr k = n.d.addr k ∨ (t.dinode n.inum).addr k = 0)
    (hsound : (t.setInode p n).ledger.Sound t.sb.dataBlocks t.sb.metaBlocks out') :
    WfExcept x out' (t.setInode p n) where
  geometry := h.geometry
  unique := h.unique.setInode hu
  loaded q := by
    rw [setInode_icache]
    split_ifs
    · exact hl
    · exact h.loaded q
  synced q := by
    rw [setInode_icache]
    split_ifs with hq
    · exact fun hx => hs (hq ▸ hx)
    · exact h.synced q
  sound := hsound

/-- Entry `p` becomes `n` without a change to which blocks are held: its `addrs` stay, or
are read from the disk, or do not count before and after. -/
structure Quiet (t : Store) (p : Ptr) (n : Inode) : Prop where
  unique : 0 < n.ref → ∀ q, q ≠ p → 0 < (t.icache q).ref → (t.icache q).inum ≠ n.inum
  kept : (t.icache p).Live → n.Live ∧ n.inum = (t.icache p).inum ∧ n.d.addrs = (t.icache p).d.addrs
  read : ¬(t.icache p).Live → n.Live → n.d.addrs = (t.dinode n.inum).addrs
  loaded : n.Live → t.Allocated n.inum ∧ n.d.type ≠ 0

theorem Quiet.addrs (h : Quiet t p n) (hu : t.Unique) (i : ℕ) :
    ((t.setInode p n).view i).addrs = (t.view i).addrs := by
  by_cases hn : n.Live ∧ n.inum = i
  · obtain ⟨hn, rfl⟩ := hn
    rw [hu.view_setInode hn (h.unique hn.1)]
    by_cases hp : (t.icache p).Live
    · obtain ⟨-, hi, ha⟩ := h.kept hp
      rw [hi, hu.view_live hp, ha]
    · rw [h.read hp hn, view_none]
      intro q hq
      by_cases hqp : q = p
      · exact absurd (hqp ▸ hq) hp
      · exact h.unique hn.1 q hqp hq.1
  · rw [view_setInode ?_ hn]
    rintro ⟨hp, rfl⟩
    obtain ⟨hn', hi, -⟩ := h.kept hp
    exact hn ⟨hn', hi⟩

theorem Quiet.held (h : Quiet t p n) (hu : t.Unique) : (t.setInode p n).held = t.held := by
  funext ⟨i, k⟩
  have hs : (t.setInode p n).slot i k = t.slot i k := slotOf_congr (h.addrs hu i) fun _ => rfl
  have ha : (t.setInode p n).Allocated i ↔ t.Allocated i := Iff.rfl
  unfold Store.held
  simp only [hs, ha]

section

variable (h : WfExcept x out t)
include h

theorem WfExcept.quiet (hq : Quiet t p n) : WfExcept x out (t.setInode p n) := by
  refine h.setInode hq.unique hq.loaded ?_ ?_
  · intro hx hn k hk
    by_cases hp : (t.icache p).Live
    · obtain ⟨-, hi, ha⟩ := hq.kept hp
      have hs := h.synced p hx hp k hk
      rw [hi]
      unfold Dinode.addr at hs ⊢
      rwa [ha]
    · left
      unfold Dinode.addr
      rw [hq.read hp hn]
  · unfold ledger
    rw [hq.held h.unique]
    exact h.sound

theorem WfExcept.quiet_fields (hr : 0 < (t.icache p).ref)
    (hn : 0 < n.ref) (hi : n.inum = (t.icache p).inum) (hv : n.valid = (t.icache p).valid)
    (ha : n.d.addrs = (t.icache p).d.addrs)
    (ht : (t.icache p).Live → n.d.type ≠ 0) : Quiet t p n where
  unique _ q hq hq' e := hq (h.unique q p hq' hr (e.trans hi))
  kept hp := ⟨⟨hn, hv.trans hp.2⟩, hi, ha⟩
  read hp hn' := absurd ⟨hr, hv ▸ hn'.2⟩ hp
  loaded hn' := by
    have hp : (t.icache p).Live := ⟨hr, hv ▸ hn'.2⟩
    rw [hi]
    exact ⟨(h.loaded p hp).1, ht hp⟩

theorem WfExcept.quiet_lock (l : Option ℕ) : Quiet t p { t.icache p with lock := l } where
  unique hr q hq hq' e := hq (h.unique q p hq' hr e)
  kept hp := ⟨hp, rfl, rfl⟩
  read hp hn := absurd hn hp
  loaded := h.loaded p

theorem WfExcept.drop (hx : p ∉ x) (hn : ¬n.Live)
    (hu : 0 < n.ref → ∀ q, q ≠ p → 0 < (t.icache q).ref → (t.icache q).inum ≠ n.inum) :
    WfExcept x out (t.setInode p n) := by
  refine h.setInode hu (fun hl => absurd hl hn) (fun _ hl => absurd hl hn)
    (h.sound.sub (fun ⟨i, k⟩ b hh => ?_) fun _ _ hb => hb)
  change (t.setInode p n).held (i, k) = some b at hh
  change t.held (i, k) = some b
  rw [held_iff] at hh ⊢
  obtain ⟨ha, hk, hb, hb0⟩ := hh
  refine ⟨ha, hk, ?_, hb0⟩
  unfold slot at hb ⊢
  by_cases hp : (t.icache p).Live ∧ (t.icache p).inum = i
  · obtain ⟨hp, rfl⟩ := hp
    have hd : (t.setInode p n).view (t.icache p).inum = t.dinode (t.icache p).inum := by
      refine view_none fun q => ?_
      rw [setInode_icache]
      split_ifs with hq
      · exact fun hl => absurd hl hn
      · exact fun hl e => hq (h.unique q p hl.1 hp.1 e)
    rw [hd] at hb
    rw [h.unique.view_live hp, ← hb]
    exact slotOf_sub (h.synced p hx hp) (hb ▸ hb0)
  · rwa [view_setInode hp fun h => hn h.1] at hb

end

/-! Changes to disk blocks. -/

structure SameTable (t t' : Store) : Prop where
  sb : t'.sb = t.sb
  icache : t'.icache = t.icache
  dinode : ∀ i < t.sb.ninodes, t'.dinode i = t.dinode i

structure SameInodes (t t' : Store) : Prop extends SameTable t t' where
  indirect : ∀ i, t.Allocated i → (t.view i).addr NDIRECT ≠ 0 →
    t'.blocks ((t.view i).addr NDIRECT) = t.blocks ((t.view i).addr NDIRECT)

theorem SameTable.allocated (h : SameTable t t') : t'.Allocated i ↔ t.Allocated i := by
  unfold Allocated
  rw [h.sb]
  constructor
  · rintro ⟨hi, ht⟩
    exact ⟨hi, h.dinode i hi ▸ ht⟩
  · rintro ⟨hi, ht⟩
    exact ⟨hi, (h.dinode i hi).symm ▸ ht⟩

theorem SameTable.view (h : SameTable t t') (hi : i < t.sb.ninodes) : t'.view i = t.view i := by
  unfold Store.view cached
  rw [h.icache, h.dinode i hi]

theorem SameInodes.held (h : SameInodes t t') : t'.held = t.held := by
  funext ⟨i, k⟩
  by_cases ha : t.Allocated i
  · have hs : t'.slot i k = t.slot i k := by
      unfold slot
      rw [h.view ha.1]
      exact slotOf_congr rfl (h.indirect i ha)
    unfold Store.held
    simp only [h.allocated, hs]
  · unfold Store.held
    simp only [h.allocated, ha, false_and, if_false]

theorem WfExcept.of_table (h : WfExcept x out t) (hs : SameTable t t')
    (hsound : t'.ledger.Sound t.sb.dataBlocks t.sb.metaBlocks out') : WfExcept x out' t' where
  geometry := hs.sb ▸ h.geometry
  unique := by
    unfold Unique
    rw [hs.icache]
    exact h.unique
  loaded p := by
    rw [hs.icache, hs.allocated]
    exact h.loaded p
  synced p hx := by
    rw [hs.icache]
    intro hp
    rw [hs.dinode _ (h.loaded p hp).1.1]
    exact h.synced p hx hp
  sound := by
    rw [hs.sb]
    exact hsound

theorem WfExcept.of_same (h : WfExcept x out t) (hs : SameInodes t t')
    (hsound : (⟨t.held, t'.used⟩ : Ledger (ℕ × ℕ) ℕ).Sound t.sb.dataBlocks t.sb.metaBlocks out') :
    WfExcept x out' t' := by
  refine h.of_table hs.toSameTable ?_
  unfold ledger
  rw [hs.held]
  exact hsound

theorem dinode_of_blocks (hsb : t'.sb = t.sb)
    (hb : t'.blocks (IBLOCK i t.sb) = t.blocks (IBLOCK i t.sb)) : t'.dinode i = t.dinode i := by
  unfold dinode
  rw [hsb, hb]

theorem used_of_blocks (hsb : t'.sb = t.sb)
    (hb : t'.blocks (BBLOCK b t.sb) = t.blocks (BBLOCK b t.sb)) : t'.used b ↔ t.used b := by
  unfold used
  rw [hsb, hb]

theorem held_indirect (ha : t.Allocated i) (hn : (t.view i).addr NDIRECT ≠ 0) :
    t.held (i, NDIRECT) = some ((t.view i).addr NDIRECT) :=
  held_iff.mpr ⟨ha, by decide, slotOf_le le_rfl, hn⟩

def setBlock (t : Store) (b : ℕ) (data : Block) : Store :=
  { t with blocks := Function.update t.blocks b data }

variable {data : Block}

@[simp] theorem setBlock_sb : (t.setBlock b data).sb = t.sb := rfl

@[simp] theorem setBlock_icache : (t.setBlock b data).icache = t.icache := rfl

@[simp] theorem setBlock_self : (t.setBlock b data).blocks b = data := by
  simp [setBlock]

@[simp] theorem setBlock_ne (h : c ≠ b) : (t.setBlock b data).blocks c = t.blocks c := by
  simp [setBlock, h]

theorem WfExcept.same_setBlock (h : WfExcept x out t) (hb : t.sb.bmapstart ≤ b)
    (hi : ∀ i, t.held (i, NDIRECT) ≠ some b) : SameInodes t (t.setBlock b data) where
  sb := rfl
  icache := rfl
  dinode i hi := by
    have := h.geometry.iblock_lt hi
    exact dinode_of_blocks rfl (setBlock_ne (by omega))
  indirect i ha hn := setBlock_ne fun e => hi i (e ▸ held_indirect ha hn)

theorem WfExcept.held_ne_map (h : WfExcept x out t) (hb : b ∈ t.sb.mapBlocks) (y : ℕ × ℕ) :
    t.held y ≠ some b := by
  intro hy
  have := (h.sound.data y b hy).1
  have := hb.2
  omega

theorem WfExcept.held_pos (h : WfExcept x out t) {y : ℕ × ℕ} (hy : t.held y = some b) :
    t.sb.datastart ≤ b ∧ b < t.sb.size := h.sound.data y b hy

def mark (t : Store) (b : ℕ) : Store :=
  t.setBlock (BBLOCK b t.sb) (setBit (t.blocks (BBLOCK b t.sb)) (b % BPB))

def unmark (t : Store) (b : ℕ) : Store :=
  t.setBlock (BBLOCK b t.sb) (clearBit (t.blocks (BBLOCK b t.sb)) (b % BPB))

theorem bit_ne (hc : BBLOCK c t.sb = BBLOCK b t.sb) (hcb : c ≠ b) : c % BPB ≠ b % BPB := by
  intro e
  have hd : c / BPB = b / BPB := by
    unfold BBLOCK at hc
    omega
  exact hcb (by rw [← Nat.div_add_mod c BPB, ← Nat.div_add_mod b BPB, hd, e])

theorem used_mark : (t.mark b).used c ↔ t.used c ∨ c = b := by
  have hlt : b % BPB < BPB := Nat.mod_lt _ (by decide)
  by_cases hc : BBLOCK c t.sb = BBLOCK b t.sb
  · unfold used mark
    simp only [setBlock_sb, hc, setBlock_self, bitClear_setBit _ _ _ hlt]
    by_cases hcb : c = b
    · simp [hcb]
    · simp [hcb, bit_ne hc hcb]
  · rw [used_of_blocks (show (t.mark b).sb = t.sb from rfl) (setBlock_ne hc)]
    constructor
    · exact .inl
    · rintro (h | rfl)
      · exact h
      · exact absurd rfl hc

theorem used_unmark : (t.unmark b).used c ↔ t.used c ∧ c ≠ b := by
  have hlt : b % BPB < BPB := Nat.mod_lt _ (by decide)
  by_cases hc : BBLOCK c t.sb = BBLOCK b t.sb
  · unfold used unmark
    simp only [setBlock_sb, hc, setBlock_self, bitClear_clearBit _ _ _ hlt]
    by_cases hcb : c = b
    · simp [hcb]
    · simp [hcb, bit_ne hc hcb]
  · rw [used_of_blocks (show (t.unmark b).sb = t.sb from rfl) (setBlock_ne hc)]
    constructor
    · exact fun h => ⟨h, fun e => hc (by rw [e])⟩
    · exact fun h => h.1

section

variable (h : WfExcept x out t) (hb : b < t.sb.size)
include h hb

theorem WfExcept.same_map : SameInodes t (t.setBlock (BBLOCK b t.sb) data) :=
  h.same_setBlock (h.geometry.bblock_mem hb).1 fun _ =>
    h.held_ne_map (h.geometry.bblock_mem hb) _

theorem WfExcept.same_mark : SameInodes t (t.mark b) := h.same_map hb

theorem WfExcept.mark : WfExcept x out (t.mark b) :=
  h.of_same (h.same_mark hb) (h.sound.sub (fun _ _ hy => hy) fun _ _ hc => used_mark.mpr (.inl hc))

theorem WfExcept.same_unmark : SameInodes t (t.unmark b) := h.same_map hb

end

section

variable (h : WfExcept x out t)
include h

theorem WfExcept.unmark (hb : b ∈ t.sb.dataBlocks) : WfExcept x (insert b out) (t.unmark b) := by
  refine h.of_same (h.same_unmark hb.2) (h.sound.unmark (fun hm => ?_) rfl fun c _ hne hc => ?_)
  · exact absurd hb.1 (not_le.mpr hm)
  · exact used_unmark.mpr ⟨hc, hne⟩

theorem WfExcept.sameTable_setData
    (hb : b ∈ t.sb.dataBlocks) : SameTable t (t.setBlock b data) where
  sb := rfl
  icache := rfl
  dinode i hi := by
    have h1 := h.geometry.iblock_lt hi
    have h2 : t.sb.bmapstart + (t.sb.size / BPB + 1) ≤ b := hb.1
    refine dinode_of_blocks rfl (setBlock_ne ?_)
    exact Nat.ne_of_lt (lt_of_lt_of_le h1 ((Nat.le_add_right _ _).trans h2))

theorem WfExcept.used_setData (hb : b ∈ t.sb.dataBlocks)
    (hc : c < t.sb.size) : (t.setBlock b data).used c ↔ t.used c := by
  refine used_of_blocks setBlock_sb (setBlock_ne ?_)
  have h1 : BBLOCK c t.sb < t.sb.datastart := (h.geometry.bblock_mem hc).2
  have h2 : t.sb.datastart ≤ b := hb.1
  omega

theorem WfExcept.lt_size (hc : c ∈ t.sb.dataBlocks ∨ c ∈ t.sb.metaBlocks) : c < t.sb.size := by
  rcases hc with hc | hc
  · exact hc.2
  · exact lt_of_lt_of_le hc h.geometry.datastart

theorem WfExcept.same_setData (hb : b ∈ t.sb.dataBlocks)
    (hi : ∀ i, t.held (i, NDIRECT) ≠ some b) : SameInodes t (t.setBlock b data) :=
  h.same_setBlock ((Nat.le_add_right _ _).trans hb.1) hi

theorem WfExcept.setData (hb : b ∈ t.sb.dataBlocks)
    (hi : ∀ i, t.held (i, NDIRECT) ≠ some b) : WfExcept x out (t.setBlock b data) :=
  h.of_same (h.same_setData hb hi) <| h.sound.sub (fun _ _ hy => hy) fun _ hc hu =>
    (h.used_setData hb (h.lt_size hc)).mpr hu

end

/-! Slots filled and cleared. -/

def setAddr (t : Store) (p : Ptr) (k b : ℕ) : Store :=
  t.setInode p { t.icache p with d := (t.icache p).d.setAddr k b }

section

variable (h : WfExcept x out t)
include h

theorem WfExcept.other (hp : (t.icache p).Live) (q : Ptr) (hq : q ≠ p) (hr : 0 < (t.icache q).ref) :
    (t.icache q).inum ≠ (t.icache p).inum :=
  fun e => hq (h.unique q p hr hp.1 e)

theorem WfExcept.view_setAddr (hp : (t.icache p).Live) (i : ℕ) : (t.setAddr p k b).view i =
      if i = (t.icache p).inum then (t.icache p).d.setAddr k b else t.view i := by
  split_ifs with hi
  · subst hi
    have hn : Inode.Live { t.icache p with d := (t.icache p).d.setAddr k b } := hp
    exact h.unique.view_setInode hn (h.other hp)
  · exact view_setInode (fun e => hi e.2.symm) fun e => hi e.2.symm

theorem WfExcept.held_setAddr (hp : (t.icache p).Live) (hk : k ≤ NDIRECT) {m : ℕ}
    (hh : (t.setAddr p k b).held (i, m) = some c) :
    (t.held (i, m) = some c ∧ ¬(i = (t.icache p).inum ∧ (m = k ∨ k = NDIRECT ∧ NDIRECT < m))) ∨
      (i = (t.icache p).inum ∧ m = k ∧ c = b % 2 ^ 32 ∧ c ≠ 0) ∨
      (i = (t.icache p).inum ∧ k = NDIRECT ∧ NDIRECT < m ∧ c ≠ 0 ∧ b % 2 ^ 32 ≠ 0 ∧
        c = (t.blocks (b % 2 ^ 32)).word 4 (4 * (m - NDIRECT - 1))) := by
  rw [held_iff] at hh
  obtain ⟨ha, hm, hc, hc0⟩ := hh
  have ha' : t.Allocated i := ha
  unfold slot at hc
  rw [h.view_setAddr hp] at hc
  have hkeep : t.slot i m = c → t.held (i, m) = some c := fun e => held_iff.mpr ⟨ha', hm, e, hc0⟩
  split_ifs at hc with hi
  · subst hi
    change slotOf t.blocks _ _ = _ at hc
    have hv : t.slot (t.icache p).inum m = slotOf t.blocks (t.icache p).d m := by
      unfold slot
      rw [h.unique.view_live hp]
    by_cases hmn : m ≤ NDIRECT
    · rw [slotOf_le hmn, Dinode.addr_setAddr _ _ _ _ hmn] at hc
      split_ifs at hc with hmk
      · exact .inr (.inl ⟨rfl, hmk, hc.symm, hc0⟩)
      · refine .inl ⟨hkeep (by rw [hv, slotOf_le hmn, hc]), fun hn => ?_⟩
        rcases hn.2 with hn | hn
        · exact hmk hn
        · omega
    · rw [slotOf_gt (by omega), Dinode.addr_setAddr _ _ _ _ le_rfl] at hc
      by_cases hkn : NDIRECT = k
      · rw [if_pos hkn] at hc
        split_ifs at hc with hb0
        · exact absurd hc.symm hc0
        · exact .inr (.inr ⟨rfl, hkn.symm, by omega, hc0, hb0, hc.symm⟩)
      · rw [if_neg hkn] at hc
        refine .inl ⟨hkeep (by rw [hv, slotOf_gt (by omega), hc]), fun hn => ?_⟩
        rcases hn.2 with hn | hn
        · omega
        · exact hkn hn.1.symm
  · exact .inl ⟨hkeep hc, fun hn => hi hn.1⟩

theorem WfExcept.word_lt (hb : b ∈ t.sb.dataBlocks) : b % 2 ^ 32 = b := by
  have := h.geometry.word
  have := hb.2
  exact Nat.mod_eq_of_lt (by omega)

theorem WfExcept.attach (hp : (t.icache p).Live) (hk : k ≤ NDIRECT) (hz : (t.icache p).d.addr k = 0)
    (hb : b ∈ t.sb.dataBlocks) (hfree : ∀ y, t.held y ≠ some b) (hu : t.used b)
    (hzero : k = NDIRECT → t.blocks b = Buffer.zero) : WfExcept x out (t.setAddr p k b) := by
  refine h.setInode (fun _ => h.other hp) (fun _ => h.loaded p hp) ?_ ?_
  · intro hx _ j hj
    simp only [Dinode.addr_setAddr _ _ _ _ hj]
    have hs := h.synced p hx hp j hj
    split_ifs with hjk
    · subst hjk
      rw [hz] at hs
      exact .inr (hs.elim id id)
    · exact hs
  · refine h.sound.put (x := ((t.icache p).inum, k)) hb hfree hu (fun ⟨i, m⟩ c hc => ?_) rfl
    rcases h.held_setAddr hp hk hc with hc | hc | hc
    · exact .inl hc.1
    · obtain ⟨rfl, rfl, rfl, -⟩ := hc
      exact .inr ⟨rfl, h.word_lt hb⟩
    · obtain ⟨-, hkn, -, hc0, -, hc⟩ := hc
      rw [h.word_lt hb, hzero hkn, Buffer.word_zero] at hc
      exact absurd hc hc0

theorem WfExcept.detach (hx : p ∈ x) (hp : (t.icache p).Live) (hk : k ≤ NDIRECT)
    (hout : ∀ b ∈ out, ∃ m, t.held ((t.icache p).inum, m) = some b ∧
      (m = k ∨ k = NDIRECT ∧ NDIRECT < m)) : WfExcept x ∅ (t.setAddr p k 0) := by
  refine h.setInode (fun _ => h.other hp) (fun _ => h.loaded p hp) (fun hx' => absurd hx hx') ?_
  refine h.sound.settle (fun ⟨i, m⟩ c hc => ?_) rfl
  rcases h.held_setAddr hp hk hc with ⟨hc, hn⟩ | hc | hc
  · refine ⟨hc, fun hco => hn ?_⟩
    obtain ⟨m', hm', hmk⟩ := hout c hco
    obtain ⟨rfl, rfl⟩ := Prod.mk.inj (h.sound.unique _ _ _ hc hm')
    exact ⟨rfl, hmk⟩
  · obtain ⟨-, -, hc, hc0⟩ := hc
    exact absurd hc hc0
  · obtain ⟨-, -, -, -, h0, -⟩ := hc
    exact absurd rfl h0

theorem WfExcept.attachIndirect {ind m : ℕ} (hi : t.held (i, NDIRECT) = some ind)
    (hm : m < NINDIRECT) (hb : b ∈ t.sb.dataBlocks) (hfree : ∀ y, t.held y ≠ some b)
    (hu : t.used b) : WfExcept x out (t.setBlock ind ((t.blocks ind).setWord 4 (4 * m) b)) := by
  have hd : ind ∈ t.sb.dataBlocks := h.held_pos hi
  have hs : SameTable t (t.setBlock ind ((t.blocks ind).setWord 4 (4 * m) b)) :=
    h.sameTable_setData hd
  refine h.of_table hs ?_
  have hput : (⟨(t.setBlock ind ((t.blocks ind).setWord 4 (4 * m) b)).held, t.used⟩ :
      Ledger (ℕ × ℕ) ℕ).Sound t.sb.dataBlocks t.sb.metaBlocks out := by
    refine h.sound.put (x := (i, NDIRECT + 1 + m)) hb hfree hu (fun ⟨j, n⟩ c hc => ?_) rfl
    have hc : (t.setBlock ind ((t.blocks ind).setWord 4 (4 * m) b)).held (j, n) = some c := hc
    change t.held (j, n) = some c ∨ _
    rw [held_iff] at hc ⊢
    obtain ⟨ha, hn, hc, hc0⟩ := hc
    rw [hs.allocated] at ha
    unfold slot at hc ⊢
    rw [hs.view ha.1] at hc
    by_cases hnn : n ≤ NDIRECT
    · rw [slotOf_le hnn] at hc ⊢
      exact .inl ⟨ha, hn, hc, hc0⟩
    · rw [slotOf_gt (by omega)] at hc ⊢
      split_ifs at hc ⊢ with hz
      · exact absurd hc.symm hc0
      · by_cases hind : (t.view j).addr NDIRECT = ind
        · have hji : j = i := (Prod.mk.inj (h.sound.unique _ _ _ (hind ▸ held_indirect ha hz) hi)).1
          rw [hind, setBlock_self] at hc
          rw [hind]
          by_cases hnm : n - NDIRECT - 1 = m
          · right
            rw [hnm, Buffer.word_setWord_self _ _ _ _ (by simp only [NINDIRECT, BSIZE] at *; omega)] at hc
            refine ⟨by rw [hji]; congr 1; omega, ?_⟩
            rw [← hc]
            exact h.word_lt hb
          · left
            rw [Buffer.word_setWord_of_disjoint _ _ _ _ _ _ (by omega)] at hc
            exact ⟨ha, hn, hc, hc0⟩
        · rw [setBlock_ne hind] at hc
          exact .inl ⟨ha, hn, hc, hc0⟩
  exact hput.sub (fun _ _ hy => hy) fun c hc hu => (h.used_setData hd (h.lt_size hc)).mpr hu

end

/-! Disk inodes. -/

def setDinode (t : Store) (i : ℕ) (d : Dinode) : Store :=
  t.setBlock (IBLOCK i t.sb) ((t.blocks (IBLOCK i t.sb)).patch (inodeOff i) d.encode)

variable {d : Dinode}

@[simp] theorem setDinode_sb : (t.setDinode i d).sb = t.sb := rfl

@[simp] theorem setDinode_icache : (t.setDinode i d).icache = t.icache := rfl

theorem setDinode_dinode : (t.setDinode i d).dinode j = if j = i then d else t.dinode j := by
  unfold dinode setDinode
  rw [setBlock_sb]
  by_cases hb : IBLOCK j t.sb = IBLOCK i t.sb
  · rw [hb, setBlock_self]
    have hq : j / IPB = i / IPB := by
      unfold IBLOCK at hb
      omega
    split_ifs with hj
    · rw [hj, Dinode.decode_encode _ _ _ (inodeOff_add_le i)]
    · have hr : j % IPB ≠ i % IPB := fun e =>
        hj (by rw [← Nat.div_add_mod j IPB, ← Nat.div_add_mod i IPB, hq, e])
      apply Dinode.decode_patch_of_disjoint
      rw [Dinode.encode_length]
      exact inodeOff_disjoint hr
  · rw [setBlock_ne hb, if_neg fun e => hb (by rw [e])]

theorem setDinode_blocks_ne (h : c ≠ IBLOCK i t.sb) : (t.setDinode i d).blocks c = t.blocks c :=
  setBlock_ne h

theorem view_setDinode : (t.setDinode i d).view j =
    if j = i ∧ t.cached j = none then d else t.view j := by
  unfold view
  rw [show (t.setDinode i d).cached j = t.cached j from rfl]
  cases t.cached j with
  | some p => simp
  | none => simp [setDinode_dinode]

section

variable (h : WfExcept x out t)
include h

theorem WfExcept.blocks_ne_iblock (hi : i < t.sb.ninodes)
    (ha : t.Allocated j) (hn : (t.view j).addr NDIRECT ≠ 0) :
    (t.view j).addr NDIRECT ≠ IBLOCK i t.sb := by
  have hib := h.geometry.iblock_lt hi
  have hmd : t.sb.bmapstart ≤ t.sb.datastart := Nat.le_add_right _ _
  have : t.sb.datastart ≤ (t.view j).addr NDIRECT := (h.held_pos (held_indirect ha hn)).1
  omega

theorem WfExcept.held_iupdate (hp : (t.icache p).Live) :
    (t.setDinode (t.icache p).inum (t.icache p).d).held = t.held := by
  obtain ⟨ha, ht⟩ := h.loaded p hp
  have hall : ∀ j, (t.setDinode (t.icache p).inum (t.icache p).d).Allocated j ↔ t.Allocated j := by
    intro j
    unfold Allocated
    rw [setDinode_dinode]
    split_ifs with hj
    · subst hj
      exact ⟨fun _ => ha, fun _ => ⟨ha.1, ht⟩⟩
    · rfl
  funext ⟨j, k⟩
  by_cases hj : t.Allocated j
  · have hs : (t.setDinode (t.icache p).inum (t.icache p).d).slot j k = t.slot j k := by
      have hv : (t.setDinode (t.icache p).inum (t.icache p).d).view j = t.view j := by
        rw [view_setDinode]
        split_ifs with he
        · rw [he.1, h.unique.view_live hp]
        · rfl
      unfold slot
      rw [hv]
      exact slotOf_congr rfl fun hn => setDinode_blocks_ne (h.blocks_ne_iblock ha.1 hj hn)
    unfold held
    simp only [hall, hs]
  · unfold held
    simp only [hall, hj, false_and, if_false]

theorem WfExcept.setDinode {x' : Set Ptr} (hi : i < t.sb.ninodes)
    (hlive : ∀ p, (t.icache p).Live → (t.icache p).inum = i → d.type ≠ 0 ∧
      (p ∉ x' → ∀ k ≤ NDIRECT, d.addr k = (t.icache p).d.addr k ∨ d.addr k = 0))
    (hx : ∀ p, p ∉ x' → (t.icache p).inum ≠ i → p ∉ x)
    (hheld : ∀ k b, (t.setDinode i d).held (i, k) = some b → t.held (i, k) = some b) :
    WfExcept x' out (t.setDinode i d) where
  geometry := h.geometry
  unique := h.unique
  loaded p hp := by
    have hp : (t.icache p).Live := hp
    obtain ⟨ha, ht⟩ := h.loaded p hp
    refine ⟨⟨ha.1, ?_⟩, ht⟩
    rw [setDinode_dinode]
    split_ifs with hpi
    · exact (hlive p hp hpi).1
    · exact ha.2
  synced p hpx hp := by
    rw [setDinode_dinode]
    split_ifs with hpi
    · exact (hlive p hp hpi).2 hpx
    · exact h.synced p (hx p hpx hpi) hp
  sound := by
    have hib := h.geometry.iblock_lt hi
    refine h.sound.sub (fun ⟨j, k⟩ b hb => ?_) fun c hc hu => ?_
    · by_cases hji : j = i
      · subst hji
        exact hheld k b hb
      · have hb : (t.setDinode i d).held (j, k) = some b := hb
        change t.held (j, k) = some b
        rw [held_iff] at hb ⊢
        obtain ⟨ha, hk, hb, hb0⟩ := hb
        have ha' : t.Allocated j := by
          have := ha.2
          rw [setDinode_dinode, if_neg hji] at this
          exact ⟨ha.1, this⟩
        refine ⟨ha', hk, ?_, hb0⟩
        unfold slot at hb ⊢
        rw [view_setDinode, if_neg fun e => hji e.1] at hb
        rw [← hb]
        exact (slotOf_congr rfl fun hn =>
          setDinode_blocks_ne (h.blocks_ne_iblock hi ha' hn)).symm
    · refine (used_of_blocks setDinode_sb (setDinode_blocks_ne ?_)).mpr hu
      have : t.sb.bmapstart ≤ BBLOCK c t.sb := (h.geometry.bblock_mem (h.lt_size hc)).1
      omega

theorem WfExcept.iupdate (hp : (t.icache p).Live) :
    WfExcept (x \ {p}) out (t.setDinode (t.icache p).inum (t.icache p).d) := by
  obtain ⟨ha, ht⟩ := h.loaded p hp
  refine h.setDinode ha.1 ?_ ?_ ?_
  · intro q hq e
    obtain rfl := h.unique q p hq.1 hp.1 e
    exact ⟨ht, fun _ _ _ => .inl rfl⟩
  · intro q hq hne hqx
    exact hq ⟨hqx, fun e => hne (by rw [e])⟩
  · intro k b hb
    rwa [h.held_iupdate hp] at hb

theorem WfExcept.clear (hi : i < t.sb.ninodes) (hn : ∀ p, (t.icache p).Live → (t.icache p).inum ≠ i)
    (hd : d.type = 0 ∨ ∀ k, d.addr k = 0) : WfExcept x out (t.setDinode i d) := by
  refine h.setDinode hi (fun p hp e => absurd e (hn p hp)) (fun _ hp _ => hp) fun k b hb => ?_
  rw [held_iff] at hb
  obtain ⟨ha, -, hb, hb0⟩ := hb
  have hty := ha.2
  rw [setDinode_dinode, if_pos rfl] at hty
  have hz := hd.resolve_left hty
  unfold slot at hb
  rw [view_setDinode, if_pos ⟨rfl, cached_none hn⟩] at hb
  unfold slotOf at hb
  rw [hz, hz, if_pos rfl, ite_self] at hb
  exact absurd hb.symm hb0

end

/-! Allocation. -/

def alloc (t : Store) (b : ℕ) : Store := (t.mark b).setBlock b Buffer.zero

section

variable (h : WfExcept x ∅ t) (hb : b ∈ t.sb.dataBlocks)
include h hb

theorem WfExcept.same_alloc (hu : ¬t.used b) : SameInodes t (t.alloc b) where
  sb := rfl
  icache := rfl
  dinode i hi :=
    (((h.mark hb.2).sameTable_setData hb).dinode i hi).trans ((h.same_mark hb.2).dinode i hi)
  indirect i ha hn := by
    have hi := held_indirect ha hn
    have hne : (t.view i).addr NDIRECT ≠ b := fun e => h.sound.not_held hu _ (e ▸ hi)
    exact (setBlock_ne hne).trans ((h.same_mark hb.2).indirect i ha hn)

theorem WfExcept.alloc (hu : ¬t.used b) : WfExcept x ∅ (t.alloc b) :=
  (h.mark hb.2).setData hb fun i => by
    rw [(h.same_mark hb.2).held]
    exact h.sound.not_held hu _

theorem WfExcept.used_alloc : (t.alloc b).used b :=
  ((h.mark hb.2).used_setData hb hb.2).mpr (used_mark.mpr (.inr rfl))

end

theorem alloc_blocks : (t.alloc b).blocks b = Buffer.zero := setBlock_self

structure OnlyAddrs (p : Ptr) (t t' : Store) : Prop where
  sb : t'.sb = t.sb
  others : ∀ q, q ≠ p → t'.icache q = t.icache q
  self : ∃ addrs, t'.icache p = { t.icache p with d := { (t.icache p).d with addrs := addrs } }
  dinode : ∀ i < t.sb.ninodes, t'.dinode i = t.dinode i

theorem OnlyAddrs.refl : OnlyAddrs p t t := ⟨rfl, fun _ _ => rfl, ⟨_, rfl⟩, fun _ _ => rfl⟩

variable {t'' : Store}

theorem OnlyAddrs.trans (h : OnlyAddrs p t t') (h' : OnlyAddrs p t' t'') : OnlyAddrs p t t'' where
  sb := h'.sb.trans h.sb
  others q hq := (h'.others q hq).trans (h.others q hq)
  self := by
    obtain ⟨a, ha⟩ := h.self
    obtain ⟨a', ha'⟩ := h'.self
    exact ⟨a', by rw [ha', ha]⟩
  dinode i hi := (h'.dinode i (h.sb ▸ hi)).trans (h.dinode i hi)

theorem OnlyAddrs.inum (h : OnlyAddrs p t t') (q : Ptr) :
    (t'.icache q).inum = (t.icache q).inum := by
  by_cases hq : q = p
  · obtain ⟨a, ha⟩ := h.self
    rw [hq, ha]
  · rw [h.others q hq]

theorem OnlyAddrs.live (h : OnlyAddrs p t t') (q : Ptr) :
    (t'.icache q).Live ↔ (t.icache q).Live := by
  by_cases hq : q = p
  · obtain ⟨a, ha⟩ := h.self
    rw [hq, ha]
    rfl
  · rw [h.others q hq]

theorem SameTable.onlyAddrs (h : SameTable t t') : OnlyAddrs p t t' where
  sb := h.sb
  others q _ := by rw [h.icache]
  self := ⟨_, by rw [h.icache]⟩
  dinode := h.dinode

theorem onlyAddrs_setAddr : OnlyAddrs p t (t.setAddr p k b) :=
  ⟨rfl, fun _ hq => setInode_ne hq, ⟨_, setInode_self⟩, fun _ _ => rfl⟩

structure Grow (p : Ptr) (t t' : Store) : Prop extends OnlyAddrs p t t' where
  held : ∀ y b, t.held y = some b → t'.held y = some b

theorem Grow.refl : Grow p t t := ⟨.refl, fun _ _ h => h⟩

theorem Grow.trans (h : Grow p t t') (h' : Grow p t' t'') : Grow p t t'' where
  toOnlyAddrs := h.toOnlyAddrs.trans h'.toOnlyAddrs
  held y b hy := h'.held y b (h.held y b hy)

theorem SameInodes.trans (h : SameInodes t t') (h' : SameInodes t' t'') : SameInodes t t'' where
  sb := h'.sb.trans h.sb
  icache := h'.icache.trans h.icache
  dinode i hi := (h'.dinode i (h.sb ▸ hi)).trans (h.dinode i hi)
  indirect i ha hn := by
    have hv := h.view ha.1
    have := h'.indirect i (h.allocated.mpr ha) (by rwa [hv])
    rw [hv] at this
    exact this.trans (h.indirect i ha hn)

theorem SameInodes.refl : SameInodes t t := ⟨⟨rfl, rfl, fun _ _ => rfl⟩, fun _ _ _ => rfl⟩

theorem SameInodes.grow (h : SameInodes t t') : Grow p t t' where
  toOnlyAddrs := h.toSameTable.onlyAddrs
  held y b hy := by rwa [h.held]

theorem WfExcept.grow_attach (h : WfExcept x out t) (hp : (t.icache p).Live) (hk : k ≤ NDIRECT)
    (hz : (t.icache p).d.addr k = 0) (hb : b ∈ t.sb.dataBlocks) :
    Grow p t (t.setAddr p k b) ∧ (t.setAddr p k b).held ((t.icache p).inum, k) = some b := by
  have hv := h.view_setAddr (k := k) (b := b) hp
  refine ⟨⟨onlyAddrs_setAddr, ?_⟩, ?_⟩
  · rintro ⟨i, m⟩ c hc
    rw [held_iff] at hc ⊢
    obtain ⟨ha, hm, hc, hc0⟩ := hc
    refine ⟨ha, hm, ?_, hc0⟩
    unfold slot at hc ⊢
    rw [hv]
    split_ifs with hi
    · subst hi
      rw [h.unique.view_live hp] at hc
      rw [← hc]
      refine (slotOf_sub (fun j hj => ?_) (hc ▸ hc0)).trans rfl
      rw [Dinode.addr_setAddr _ _ _ _ hj]
      split_ifs with hjk
      · right
        rw [hjk, hz]
      · exact .inl rfl
    · exact hc
  · refine held_iff.mpr ⟨(h.loaded p hp).1, hk.trans (by decide), ?_,
      Superblock.dataBlocks_pos hb⟩
    unfold slot
    rw [hv, if_pos rfl, slotOf_le hk, Dinode.addr_setAddr _ _ _ _ hk, if_pos rfl, h.word_lt hb]

theorem WfExcept.grow_attachIndirect (h : WfExcept x out t) {ind m : ℕ}
    (hi : t.held (i, NDIRECT) = some ind) (hm : m < NINDIRECT)
    (hz : (t.blocks ind).word 4 (4 * m) = 0) (hb : b ∈ t.sb.dataBlocks) :
    Grow p t (t.setBlock ind ((t.blocks ind).setWord 4 (4 * m) b)) ∧
      (t.setBlock ind ((t.blocks ind).setWord 4 (4 * m) b)).held (i, NDIRECT + 1 + m) = some b := by
  have hs : SameTable t (t.setBlock ind ((t.blocks ind).setWord 4 (4 * m) b)) :=
    h.sameTable_setData (h.held_pos hi)
  have hia := held_iff.mp hi
  have hind : (t.view i).addr NDIRECT = ind := hia.2.2.1 ▸ (slotOf_le le_rfl).symm
  have hw : 4 * m + 4 ≤ BSIZE := by
    simp only [NINDIRECT, BSIZE] at *
    omega
  refine ⟨⟨hs.onlyAddrs, ?_⟩, ?_⟩
  · rintro ⟨j, n⟩ c hc
    rw [held_iff] at hc ⊢
    obtain ⟨ha, hn, hc, hc0⟩ := hc
    refine ⟨hs.allocated.mpr ha, hn, ?_, hc0⟩
    unfold slot at hc ⊢
    rw [hs.view ha.1]
    by_cases hnn : n ≤ NDIRECT
    · rwa [slotOf_le hnn] at hc ⊢
    · rw [slotOf_gt (by omega)] at hc ⊢
      split_ifs at hc ⊢ with h0
      · exact hc
      · by_cases hji : (t.view j).addr NDIRECT = ind
        · rw [hji] at hc ⊢
          have hnm : n - NDIRECT - 1 ≠ m := fun e => hc0 (by rw [← hc, e, hz])
          rwa [setBlock_self, Buffer.word_setWord_of_disjoint _ _ _ _ _ _ (by omega)]
        · rwa [setBlock_ne hji]
  · refine held_iff.mpr ⟨hs.allocated.mpr hia.1, ?_, ?_, Superblock.dataBlocks_pos hb⟩
    · simp only [NINDIRECT, NDIRECT, MAXFILE, BSIZE] at *
      omega
    · unfold slot
      rw [hs.view hia.1.1, slotOf_gt (by omega), hind, if_neg hia.2.2.2, setBlock_self,
        show NDIRECT + 1 + m - NDIRECT - 1 = m by omega, Buffer.word_setWord_self _ _ _ _ hw]
      exact h.word_lt hb

theorem WfExcept.used_setDinode (h : WfExcept x out t) (hi : i < t.sb.ninodes) {d : Dinode} :
    (t.setDinode i d).used b ↔ t.used b := by
  refine used_of_blocks rfl (setDinode_blocks_ne ?_)
  have hlt := h.geometry.iblock_lt hi
  have hle : t.sb.bmapstart ≤ BBLOCK b t.sb := Nat.le_add_left _ _
  omega

/-- The blocks of inode `i` stay where they are or are marked free, and no block is taken. -/
structure Returns (i : ℕ) (t t' : Store) : Prop where
  held : ∀ k b, t.held (i, k) = some b → t'.held (i, k) = some b ∨ ¬t'.used b
  used : ∀ b, t'.used b → t.used b

theorem Returns.refl : Returns i t t := ⟨fun _ _ h => .inl h, fun _ h => h⟩

theorem Returns.trans (h : Returns i t t') (h' : Returns i t' t'') : Returns i t t'' where
  held k b hb := by
    rcases h.held k b hb with hh | hu
    · exact h'.held k b hh
    · exact .inr fun hb' => hu (h'.used b hb')
  used b hb := h.used b (h'.used b hb)

theorem WfExcept.returns_unmark (h : WfExcept x out t) (hb : b < t.sb.size) :
    Returns i t (t.unmark b) where
  held k c hc := by
    rw [(h.same_unmark hb).held]
    exact .inl hc
  used c hc := (used_unmark.mp hc).1

/-- A slot of `addrs` is cleared whose block is free already; with the indirect block go all
its entries. -/
theorem WfExcept.returns_setAddr (h : WfExcept x out t) (hp : (t.icache p).Live)
    (hfree : ∀ m c, t.held ((t.icache p).inum, m) = some c →
      (m = k ∨ k = NDIRECT ∧ NDIRECT < m) → ¬t.used c) :
    Returns (t.icache p).inum t (t.setAddr p k 0) where
  held m c hc := by
    by_cases hm : m = k ∨ k = NDIRECT ∧ NDIRECT < m
    · exact .inr (hfree m c hc hm)
    · rw [not_or, not_and] at hm
      left
      obtain ⟨ha, hmax, hslot, hc0⟩ := held_iff.mp hc
      refine held_iff.mpr ⟨ha, hmax, ?_, hc0⟩
      unfold slot at hslot ⊢
      rw [h.view_setAddr hp, if_pos rfl]
      rw [h.unique.view_live hp] at hslot
      change slotOf t.blocks _ m = c
      by_cases hmn : m ≤ NDIRECT
      · rw [slotOf_le hmn] at hslot ⊢
        rw [Dinode.addr_setAddr _ _ _ _ hmn, if_neg hm.1, hslot]
      · rw [slotOf_gt (by omega)] at hslot ⊢
        have hkn : NDIRECT ≠ k := fun he => hm.2 he.symm (by omega)
        simpa only [Dinode.addr_setAddr _ _ _ _ le_rfl, if_neg hkn] using hslot
  used c hc := hc

theorem WfExcept.held_of_empty (h : WfExcept x out t) (hp : (t.icache p).Live)
    (hz : ∀ k ≤ NDIRECT, (t.icache p).d.addr k = 0) (k : ℕ) :
    t.held ((t.icache p).inum, k) = none := by
  by_contra hne
  obtain ⟨b, hb⟩ := Option.ne_none_iff_exists'.mp hne
  obtain ⟨-, -, hslot, hb0⟩ := held_iff.mp hb
  unfold slot at hslot
  rw [h.unique.view_live hp] at hslot
  by_cases hk : k ≤ NDIRECT
  · rw [slotOf_le hk, hz k hk] at hslot
    exact hb0 hslot.symm
  · rw [slotOf_gt (by omega), if_pos (hz NDIRECT le_rfl)] at hslot
    exact hb0 hslot.symm

end Store

end Xv6
