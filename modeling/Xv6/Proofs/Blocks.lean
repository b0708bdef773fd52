import Xv6.Proofs.Store

/-! What the functions of the block layer do to the disk, to the inode cache and to the
log: rules for computations that end in a new `Store` and a list of logged blocks, and one
specification per function. -/

namespace Xv6

open List Store

def Spread (X : Set ℕ) (n : ℕ) (bs : List ℕ) : Prop :=
  ∃ F : Finset ℕ, F.card ≤ n ∧ ∀ b ∈ bs, b ∈ X ∨ b ∈ F

namespace Spread

variable {X Y : Set ℕ} {n k : ℕ} {bs cs : List ℕ}

theorem nil : Spread X n [] := ⟨∅, Nat.zero_le _, by simp⟩

theorem of_mem (h : ∀ b ∈ bs, b ∈ X) : Spread X n bs :=
  ⟨∅, Nat.zero_le _, fun b hb => .inl (h b hb)⟩

theorem mono (h : Spread X n bs) (hX : X ⊆ Y) (hn : n ≤ k) : Spread Y k bs := by
  obtain ⟨F, hF, hb⟩ := h
  exact ⟨F, hF.trans hn, fun b hbs => (hb b hbs).imp_left fun hx => hX hx⟩

theorem append (h : Spread X n bs) (h' : Spread X k cs) : Spread X (n + k) (cs ++ bs) := by
  obtain ⟨F, hF, hb⟩ := h
  obtain ⟨G, hG, hc⟩ := h'
  refine ⟨F ∪ G, (Finset.card_union_le F G).trans (Nat.add_le_add hF hG), fun b hbs => ?_⟩
  rw [Finset.mem_union]
  rcases mem_append.mp hbs with hbs | hbs
  · exact (hc b hbs).imp_right .inr
  · exact (hb b hbs).imp_right .inl

theorem zero (h : Spread X 0 bs) : ∀ b ∈ bs, b ∈ X := by
  obtain ⟨F, hF, hb⟩ := h
  intro b hbs
  have hF : F = ∅ := Finset.card_eq_zero.mp (Nat.le_zero.mp hF)
  simpa [hF] using hb b hbs

theorem of_insert {c : ℕ} (h : Spread (insert c X) n bs) : Spread X (n + 1) bs := by
  obtain ⟨F, hF, hb⟩ := h
  refine ⟨insert c F, (Finset.card_insert_le c F).trans (Nat.succ_le_succ hF), fun b hbs => ?_⟩
  rcases hb b hbs with hx | hx
  · rcases hx with rfl | hx
    · exact .inr (Finset.mem_insert_self b F)
    · exact .inl hx
  · exact .inr (Finset.mem_insert_of_mem hx)

end Spread

namespace Fs

def recordAll (bs : List ℕ) : List (List ℕ) → List (List ℕ)
  | [] => []
  | l :: ls => (bs ++ l) :: ls

structure Hist where
  log : Log
  granted : List (ℕ × Store)

/-- The file system after a computation that left the store `t` and logged the blocks
`bs`. -/
def wrote (s : Fs) (t : Store) (h : Hist) (bs : List ℕ) : Fs :=
  { s with toStore := t, log := h.log, granted := h.granted, brackets := recordAll bs s.brackets }

@[simp] theorem wrote_toStore (s : Fs) (t : Store) (h : Hist) (bs : List ℕ) :
    (s.wrote t h bs).toStore = t := rfl

theorem wrote_self (s : Fs) (t : Store) :
    s.wrote t ⟨s.log, s.granted⟩ [] = { s with toStore := t } := by
  unfold wrote
  cases s.brackets <;> rfl

theorem wrote_wrote (s : Fs) (t t' : Store) (h h' : Hist) (bs cs : List ℕ) :
    (s.wrote t h bs).wrote t' h' cs = s.wrote t' h' (cs ++ bs) := by
  unfold wrote
  cases s.brackets <;> simp [recordAll]

def Hist.Ok (s : Fs) (h : Hist) : Prop := ∀ g ∈ h.granted, g ∈ s.granted ∨ Fresh g

variable {t : Store}

theorem Hist.Ok.trans {s : Fs} {h h' : Hist} {bs : List ℕ} (hh : h.Ok s)
    (hh' : h'.Ok (s.wrote t h bs)) : h'.Ok s :=
  fun g hg => (hh' g hg).elim (hh g) .inr

variable {α β : Type} {m : FsM α} {f : α → FsM β} {s : Fs} {X Y : Set ℕ} {n k : ℕ}

def swp (m : FsM α) (Q : α → Store → List ℕ → Prop) (E : Stop → List ℕ → Prop) (s : Fs) : Prop :=
  Exec.wp m (fun a s' => ∃ t h bs, s' = s.wrote t h bs ∧ h.Ok s ∧ Q a t bs)
    (fun e s' => ∃ t h bs, s' = s.wrote t h bs ∧ h.Ok s ∧ E e bs) s

variable {Q Q' : α → Store → List ℕ → Prop} {E E' : Stop → List ℕ → Prop}

theorem swp.mono (h : swp m Q E s) (hQ : ∀ a t bs, Q a t bs → Q' a t bs)
    (hE : ∀ e bs, E e bs → E' e bs) : swp m Q' E' s := by
  refine Exec.wp.mono h ?_ ?_
  · rintro a s' ⟨t, h, bs, rfl, hh, hq⟩
    exact ⟨t, h, bs, rfl, hh, hQ a t bs hq⟩
  · rintro e s' ⟨t, h, bs, rfl, hh, he⟩
    exact ⟨t, h, bs, rfl, hh, hE e bs he⟩

theorem swp.bind {R : β → Store → List ℕ → Prop} (h : swp m Q E' s) (hE : ∀ e bs, E' e bs → E e bs)
    (hf : ∀ a t h bs, Q a t bs → swp (f a) (fun b t' cs => R b t' (cs ++ bs))
      (fun e cs => E e (cs ++ bs)) (s.wrote t h bs)) : swp (m >>= f) R E s := by
  refine Exec.wp.bind (Exec.wp.mono h (fun _ _ hq => hq) ?_) ?_
  · rintro e s' ⟨t, h, bs, rfl, hh, he⟩
    exact ⟨t, h, bs, rfl, hh, hE e bs he⟩
  · rintro a s' ⟨t, h, bs, rfl, hh, hq⟩
    refine Exec.wp.mono (hf a t h bs hq) ?_ ?_
    · rintro b s' ⟨t', h', cs, rfl, hh', hr⟩
      exact ⟨t', h', cs ++ bs, wrote_wrote .., hh.trans hh', hr⟩
    · rintro e s' ⟨t', h', cs, rfl, hh', he⟩
      exact ⟨t', h', cs ++ bs, wrote_wrote .., hh.trans hh', he⟩

variable {a : α}

theorem swp.of_store (hm : m s = .ok a { s with toStore := t }) (h : Q a t []) : swp m Q E s := by
  unfold swp Exec.wp
  rw [hm]
  exact ⟨t, ⟨s.log, s.granted⟩, [], (wrote_self ..).symm, fun _ hg => .inl hg, h⟩

theorem swp.pure (h : Q a s.toStore []) : swp (Pure.pure a) Q E s := swp.of_store rfl h

theorem swp.halt {e : Stop} (h : E e []) : swp (Exec.halt e : FsM α) Q E s :=
  ⟨s.toStore, ⟨s.log, s.granted⟩, [], (wrote_self ..).symm, fun _ hg => .inl hg, h⟩

/-- The computation ends with `R`, logs blocks of `X` and at most `n` others, and does not
free a free block. -/
def Does (X : Set ℕ) (n : ℕ) (m : FsM α) (R : α → Store → Prop) (s : Fs) : Prop :=
  swp m (fun a t bs => Spread X n bs ∧ R a t)
    (fun e bs => Spread X n bs ∧ e ≠ .panic .freeingFreeBlock) s

namespace Does

variable {R R' : α → Store → Prop} {S : β → Store → Prop}

theorem mono (h : Does X n m R s) (hX : X ⊆ Y) (hn : n ≤ k) (hR : ∀ a t, R a t → R' a t) :
    Does Y k m R' s :=
  swp.mono h (fun a t _ hq => ⟨hq.1.mono hX hn, hR a t hq.2⟩) fun _ _ he =>
    ⟨he.1.mono hX hn, he.2⟩

theorem weaken (h : Does X n m R s) (hR : ∀ a t, R a t → R' a t) : Does X n m R' s :=
  h.mono subset_rfl le_rfl hR

theorem bind (h : Does X n m R s) (hf : ∀ a t h bs, R a t → Does X k (f a) S (s.wrote t h bs)) :
    Does X (n + k) (m >>= f) S s := by
  refine swp.bind h (fun _ _ he => ⟨he.1.mono subset_rfl (Nat.le_add_right n k), he.2⟩) ?_
  intro a t log bs hq
  exact swp.mono (hf a t log bs hq.2) (fun _ _ _ hr => ⟨hq.1.append hr.1, hr.2⟩) fun _ _ he =>
    ⟨hq.1.append he.1, he.2⟩

theorem seq (h : Does X 0 m R s) (hf : ∀ a t h bs, R a t → Does X k (f a) S (s.wrote t h bs)) :
    Does X k (m >>= f) S s := by
  simpa using h.bind hf

theorem pure (h : R a s.toStore) : Does X n (Pure.pure a) R s :=
  swp.pure ⟨.nil, h⟩

theorem panic {p : Panic} (h : p ≠ .freeingFreeBlock) : Does X n (Fs.panic p : FsM α) R s :=
  swp.halt ⟨.nil, fun e => h (Stop.panic.inj e)⟩

theorem of_insert {c : ℕ} (h : Does (insert c X) n m R s) : Does X (n + 1) m R s :=
  swp.mono h (fun _ _ _ hq => ⟨hq.1.of_insert, hq.2⟩) fun _ _ he => ⟨he.1.of_insert, he.2⟩

end Does

/-! Primitives. -/

theorem does_get_bind {f : Fs → FsM β} {S : β → Store → Prop} :
    Does X n (Exec.get >>= f) S s ↔ Does X n (f s) S s := Iff.rfl

variable {b : ℕ}

theorem does_bread_bind {f : Block → FsM β} {S : β → Store → Prop} :
    Does X n (bread b >>= f) S s ↔ Does X n (f (s.blocks b)) S s := Iff.rfl

theorem does_inode_bind {p : Ptr} {f : Inode → FsM β} {S : β → Store → Prop} :
    Does X n (inode p >>= f) S s ↔ Does X n (f (s.icache p)) S s := Iff.rfl

theorem does_bstore (b : ℕ) (data : Block) :
    Does X n (bstore b data) (fun _ t => t = s.toStore.setBlock b data) s :=
  swp.of_store rfl ⟨.nil, rfl⟩

theorem does_setInode (p : Ptr) (a : Inode) :
    Does X n (setInode p a) (fun _ t => t = s.toStore.setInode p a) s :=
  swp.of_store rfl ⟨.nil, rfl⟩

theorem swp_logWrite (b : ℕ) : swp (logWrite b) (fun _ t bs => t = s.toStore ∧ bs = [b])
    (fun e bs => (∃ l, e = .panic (.log l)) ∧ bs = []) s := by
  unfold swp Exec.wp logWrite
  cases s.log.logWrite b with
  | ok log =>
    refine ⟨s.toStore, ⟨log, s.granted⟩, [b], ?_, fun _ hg => .inl hg, rfl, rfl⟩
    unfold wrote
    cases s.brackets <;> rfl
  | error e =>
    exact ⟨s.toStore, ⟨s.log, s.granted⟩, [], (wrote_self ..).symm, fun _ hg => .inl hg,
      ⟨e, rfl⟩, rfl⟩

theorem does_logWrite (hb : b ∈ X) : Does X n (logWrite b) (fun _ t => t = s.toStore) s := by
  refine (swp_logWrite b).mono ?_ ?_
  · rintro _ t _ ⟨rfl, rfl⟩
    exact ⟨.of_mem (by simpa using hb), rfl⟩
  · rintro _ _ ⟨⟨e, rfl⟩, rfl⟩
    exact ⟨.nil, by simp⟩

/-! Blocks. -/

theorem firstFree_some {size b bi : ℕ} {bp : Block} (h : firstFree size b bp = some bi) :
    bi < BPB ∧ b + bi < size ∧ bitClear bp bi = true := by
  have hm := mem_of_find?_eq_some h
  have hp := find?_some h
  simp only [Bool.and_eq_true, decide_eq_true_eq] at hp
  exact ⟨mem_range.mp hm, hp.1, hp.2⟩

theorem bblock_base (sb : Superblock) (q : ℕ) {bi : ℕ} (h : bi < BPB) :
    BBLOCK (q * BPB) sb = BBLOCK (q * BPB + bi) sb ∧ (q * BPB + bi) % BPB = bi := by
  simp only [BBLOCK, BPB, BSIZE] at *
  omega

theorem clear_bit (hw : t.Wf) {q bi : ℕ} (hbi : bi < BPB) (hlt : q * BPB + bi < t.sb.size)
    (hclear : bitClear (t.blocks (BBLOCK (q * BPB) t.sb)) bi = true) :
    q * BPB + bi ∈ t.sb.dataBlocks ∧ ¬t.used (q * BPB + bi) ∧ BBLOCK (q * BPB) t.sb ∈ t.sb.mapBlocks ∧
      t.setBlock (BBLOCK (q * BPB) t.sb) (setBit (t.blocks (BBLOCK (q * BPB) t.sb)) bi) =
        t.mark (q * BPB + bi) := by
  obtain ⟨hbb, hmod⟩ := bblock_base t.sb q hbi
  have hfree : ¬t.used (q * BPB + bi) := by
    unfold used
    rw [← hbb, hmod, hclear]
    simp
  refine ⟨⟨not_lt.mp (hw.sound.not_reserved hfree), hlt⟩, hfree, ?_, ?_⟩
  · rw [hbb]
    exact hw.geometry.bblock_mem hlt
  · unfold mark
    rw [← hbb, hmod]

variable {sb : Superblock}

theorem bfree_spec (hg : sb.Geometry) (hb : b < sb.size)
    (hu : t.used b) (ht : s.toStore = t) (hsb : t.sb = sb) :
    Does sb.mapBlocks 0 (bfree b) (fun _ t' => t' = t.unmark b) s := by
  subst ht hsb
  rw [bfree, does_get_bind, does_bread_bind]
  unfold used at hu
  rw [hu, if_neg Bool.false_ne_true]
  refine (does_bstore _ _).seq fun _ t _ _ ht => ?_
  exact (does_logWrite (hg.bblock_mem hb)).weaken fun _ t' ht' => ht'.trans ht

/-! Inode content. -/

variable {p : Ptr}

theorem does_setAddr (p : Ptr) (j b : ℕ) :
    Does X n (setAddr p j b) (fun _ t => t = s.toStore.setAddr p j b) s :=
  does_setInode p _

/-! Truncation. -/

theorem truncDirect_spec {t0 : Store} (is : List ℕ) (his : ∀ k ∈ is, k < NDIRECT)
    (hw : WfExcept {p} ∅ s.toStore) (hp : (s.icache p).Live) (hsb : s.sb = sb)
    (ho : OnlyAddrs p t0 s.toStore) : Does sb.mapBlocks 0 (truncDirect p is)
      (fun _ t => WfExcept {p} ∅ t ∧ OnlyAddrs p t0 t ∧
        Returns (s.icache p).inum s.toStore t ∧
        ∀ k ≤ NDIRECT, k ∈ is ∨ (s.icache p).d.addr k = 0 → (t.icache p).d.addr k = 0) s := by
  induction is generalizing s with
  | nil => exact .pure ⟨hw, ho, .refl, fun k _ hk => by simpa using hk⟩
  | cons k is ih =>
    have hk := (his k mem_cons_self).le
    have his' : ∀ k ∈ is, k < NDIRECT := fun j hj => his j (mem_cons_of_mem k hj)
    rw [truncDirect, does_inode_bind]
    split_ifs with hz
    · refine (ih his' hw hp hsb ho).weaken fun _ t ht => ⟨ht.1, ht.2.1, ht.2.2.1, fun j hj hji => ?_⟩
      refine ht.2.2.2 j hj ?_
      rcases hji with hji | hji
      · rcases mem_cons.mp hji with rfl | hji
        · exact .inr hz
        · exact .inl hji
      · exact .inr hji
    · have hheld : s.toStore.held ((s.icache p).inum, k) = some ((s.icache p).d.addr k) := by
        refine held_iff.mpr ⟨(hw.loaded p hp).1, hk.trans (by decide), ?_, hz⟩
        unfold slot
        rw [hw.unique.view_live hp, slotOf_le hk]
      have hdata := hw.sound.data _ _ hheld
      have hused := hw.sound.marked _ _ hheld (Set.notMem_empty _)
      have hsame := hw.same_unmark (b := (s.icache p).d.addr k) hdata.2
      refine (bfree_spec (hsb ▸ hw.geometry) (hsb ▸ hdata.2) hused rfl hsb).seq
        fun _ t log bs ht => ?_
      refine (does_setAddr p k 0).seq fun _ t' log' cs ht' => ?_
      rw [wrote_toStore] at ht'
      subst ht ht'
      have hw1 := hw.unmark hdata
      -- slot `k` is cleared after its block has been marked free
      have hret : Returns (s.icache p).inum s.toStore
          ((s.unmark ((s.icache p).d.addr k)).setAddr p k 0) := by
        refine (hw.returns_unmark hdata.2).trans (hw1.returns_setAddr hp fun m c hc hm => ?_)
        obtain rfl : m = k := hm.elim id fun hm => by
          have := his k mem_cons_self
          omega
        rw [hsame.held] at hc
        obtain rfl := Option.some.inj (hheld.symm.trans hc)
        exact fun hu => (used_unmark.mp hu).2 rfl
      have hself : (((s.unmark ((s.icache p).d.addr k)).setAddr p k 0).icache p) =
          { s.icache p with d := (s.icache p).d.setAddr k 0 } := setInode_self
      refine Does.weaken (ih his' ?_ ?_ hsb (ho.trans (hsame.onlyAddrs.trans onlyAddrs_setAddr)))
        fun _ t ht => ⟨ht.1, ht.2.1, ?_, fun j hj hji => ?_⟩
      · refine hw1.detach rfl hp hk fun b hb => ⟨k, ?_, .inl rfl⟩
        obtain rfl : b = (s.icache p).d.addr k := by simpa using hb
        rwa [hsame.held]
      · exact (onlyAddrs_setAddr.live p).mpr hp
      · have := ht.2.2.1
        rw [wrote_toStore] at this
        change Returns (((s.unmark ((s.icache p).d.addr k)).setAddr p k 0).icache p).inum _ t at this
        rw [hself] at this
        exact hret.trans this
      · refine ht.2.2.2 j hj ?_
        change j ∈ is ∨ (((s.unmark ((s.icache p).d.addr k)).setAddr p k 0).icache p).d.addr j = 0
        rw [hself, Dinode.addr_setAddr _ _ _ _ hj]
        rcases hji with hji | hji
        · rcases mem_cons.mp hji with rfl | hji
          · exact .inr (if_pos rfl)
          · exact .inl hji
        · right
          split_ifs
          · rfl
          · exact hji

/-- The entries of the indirect block of inode `i` are unmarked one after the other, while
the indirect block still lists them. -/
theorem truncIndirect_spec {t0 : Store} {i ind : ℕ} {out : Set ℕ} (js : List ℕ)
    (hjs : ∀ j ∈ js, j < NINDIRECT) (hnd : js.Nodup) (hind : t0.held (i, NDIRECT) = some ind)
    (hw : WfExcept {p} out s.toStore) (hsame : SameInodes t0 s.toStore) (hsb : s.sb = sb)
    (hout : ∀ b ∈ out, ∃ j, j ∉ js ∧ t0.held (i, NDIRECT + 1 + j) = some b) :
    Does sb.mapBlocks 0 (truncIndirect (t0.blocks ind) js)
      (fun _ t => ∃ out', WfExcept {p} out' t ∧ SameInodes t0 t ∧
        (∀ b ∈ out', ∃ j, t0.held (i, NDIRECT + 1 + j) = some b) ∧ Returns i s.toStore t ∧
        ∀ j ∈ js, ∀ b, t0.held (i, NDIRECT + 1 + j) = some b → ¬t.used b) s := by
  induction js generalizing s out with
  | nil => exact .pure ⟨out, hw, hsame, fun b hb => (hout b hb).imp fun _ h => h.2, .refl, by simp⟩
  | cons j js ih =>
    have hj := hjs j mem_cons_self
    obtain ⟨hj', hnd'⟩ := nodup_cons.mp hnd
    have hjs' : ∀ j ∈ js, j < NINDIRECT := fun k hk => hjs k (mem_cons_of_mem j hk)
    have hout' : ∀ b ∈ out, ∃ k, k ∉ js ∧ t0.held (i, NDIRECT + 1 + k) = some b :=
      fun b hb => (hout b hb).imp fun k h => ⟨fun hk => h.1 (mem_cons_of_mem j hk), h.2⟩
    have hia := held_iff.mp hind
    have hview : (t0.view i).addr NDIRECT = ind := hia.2.2.1 ▸ (slotOf_le le_rfl).symm
    have hslot : t0.slot i (NDIRECT + 1 + j) = (t0.blocks ind).word 4 (4 * j) := by
      unfold slot
      rw [slotOf_gt (by omega), hview, if_neg hia.2.2.2,
        show NDIRECT + 1 + j - NDIRECT - 1 = j by omega]
    unfold truncIndirect
    split_ifs with hz
    · refine (ih hjs' hnd' hw hsame hsb hout').weaken fun _ t ht => ?_
      obtain ⟨out', h1, h2, h3, h4, h5⟩ := ht
      refine ⟨out', h1, h2, h3, h4, fun k hk b hb => ?_⟩
      rcases mem_cons.mp hk with rfl | hk
      · obtain ⟨-, -, hb', hb0⟩ := held_iff.mp hb
        exact absurd (hb'.symm.trans (hslot.trans hz)) hb0
      · exact h5 k hk b hb
    · have hheld : t0.held (i, NDIRECT + 1 + j) = some ((t0.blocks ind).word 4 (4 * j)) := by
        refine held_iff.mpr ⟨hia.1, ?_, hslot, hz⟩
        simp only [NINDIRECT, NDIRECT, MAXFILE, BSIZE] at *
        omega
      have hheld' : s.toStore.held (i, NDIRECT + 1 + j) = some ((t0.blocks ind).word 4 (4 * j)) := by
        rwa [hsame.held]
      have hdata := hw.sound.data _ _ hheld'
      have hnot : (t0.blocks ind).word 4 (4 * j) ∉ out := by
        intro hb
        obtain ⟨k, hk, hk'⟩ := hout _ hb
        rw [← hsame.held] at hk'
        have := (Prod.mk.inj (hw.sound.unique _ _ _ hk' hheld')).2
        exact hk (by rw [show k = j by omega]; exact mem_cons_self)
      have hused := hw.sound.marked _ _ hheld' hnot
      refine (bfree_spec (hsb ▸ hw.geometry) (hsb ▸ hdata.2) hused rfl hsb).seq
        fun _ t log bs ht => ?_
      subst ht
      refine Does.weaken (ih hjs' hnd' (hw.unmark hdata) (hsame.trans (hw.same_unmark hdata.2)) hsb ?_)
        fun _ t ht => ?_
      · intro b hb
        rcases hb with rfl | hb
        · exact ⟨j, hj', hheld⟩
        · exact hout' b hb
      · obtain ⟨out', h1, h2, h3, h4, h5⟩ := ht
        refine ⟨out', h1, h2, h3, (hw.returns_unmark hdata.2).trans h4, fun k hk b hb => ?_⟩
        rcases mem_cons.mp hk with rfl | hk
        · obtain rfl := Option.some.inj (hheld.symm.trans hb)
          exact fun hu => (used_unmark.mp (h4.used _ hu)).2 rfl
        · exact h5 k hk b hb

theorem truncBlocks_spec (hw : s.toStore.Wf) (hp : (s.icache p).Live) :
    Does s.sb.mapBlocks 0 (truncBlocks p) (fun _ t => WfExcept {p} ∅ t ∧ OnlyAddrs p s.toStore t ∧
        ∀ k b, s.toStore.held ((s.icache p).inum, k) = some b → ¬t.used b) s := by
  unfold truncBlocks
  refine (truncDirect_spec _ (fun k hk => mem_range.mp hk) (hw.weaken (Set.empty_subset _)) hp rfl
    .refl).seq fun _ t log bs ht => ?_
  obtain ⟨hw', ho, hret, hzero⟩ := ht
  have hp' : (t.icache p).Live := (ho.live p).mpr hp
  have hinum : (t.icache p).inum = (s.icache p).inum := ho.inum p
  have hdirect : ∀ k < NDIRECT, (t.icache p).d.addr k = 0 := fun k hk =>
    hzero k hk.le (.inl (mem_range.mpr hk))
  -- with its addresses gone, the inode has returned all its blocks
  have done : ∀ t' : Store, WfExcept {p} ∅ t' → OnlyAddrs p s.toStore t' →
      Returns (s.icache p).inum s.toStore t' → (∀ k ≤ NDIRECT, (t'.icache p).d.addr k = 0) →
      ∀ k b, s.toStore.held ((s.icache p).inum, k) = some b → ¬t'.used b := by
    intro t' hwt hot hrt hz k b hb
    have hnone := hwt.held_of_empty ((hot.live p).mpr hp) hz k
    rw [hot.inum p] at hnone
    rcases hrt.held k b hb with hh | hu
    · rw [hnone] at hh
      cases hh
    · exact hu
  rw [does_inode_bind]
  split_ifs with hz
  · refine .pure ⟨hw', ho, done t hw' ho hret fun k hk => ?_⟩
    rcases hk.lt_or_eq with hk | rfl
    · exact hdirect k hk
    · exact hz
  · change ¬(t.icache p).d.addr NDIRECT = 0 at hz
    have hheld : t.held ((t.icache p).inum, NDIRECT) = some ((t.icache p).d.addr NDIRECT) := by
      refine held_iff.mpr ⟨(hw'.loaded p hp').1, by decide, ?_, hz⟩
      unfold slot
      rw [hw'.unique.view_live hp', slotOf_le le_rfl]
    have hdata := hw'.sound.data _ _ hheld
    have hnone : ∀ b ∈ (∅ : Set ℕ), ∃ j, j ∉ range NINDIRECT ∧
        t.held ((t.icache p).inum, NDIRECT + 1 + j) = some b := fun b hb => absurd hb id
    rw [does_bread_bind]
    refine (truncIndirect_spec _ (fun j hj => mem_range.mp hj) nodup_range
      hheld hw' .refl ho.sb hnone).seq fun _ t1 log1 bs1 h1 => ?_
    obtain ⟨out, hw1, hs1, hout, hret1, hfree1⟩ := h1
    have hheld1 : t1.held ((t.icache p).inum, NDIRECT) = some ((t.icache p).d.addr NDIRECT) := by
      rwa [hs1.held]
    have hnot : (t.icache p).d.addr NDIRECT ∉ out := by
      intro hb
      obtain ⟨j, hj⟩ := hout _ hb
      rw [← hs1.held] at hj
      have := (Prod.mk.inj (hw1.sound.unique _ _ _ hj hheld1)).2
      omega
    have hsb1 : t1.sb = s.sb := hs1.sb.trans ho.sb
    have hlt : (t.icache p).d.addr NDIRECT < s.sb.size := ho.sb ▸ hdata.2
    have hdata1 : (t.icache p).d.addr NDIRECT ∈ t1.sb.dataBlocks := hs1.sb ▸ hdata
    refine (bfree_spec hw.geometry hlt (hw1.sound.marked _ _ hheld1 hnot) rfl hsb1).seq
      fun _ t2 log2 bs2 h2 => ?_
    subst h2
    have hs2 := hs1.trans (hw1.same_unmark hdata1.2)
    have hp2 : ((t1.unmark ((t.icache p).d.addr NDIRECT)).icache p).Live := by
      rwa [hs2.icache]
    have hw2 := hw1.unmark hdata1
    refine (does_setAddr p NDIRECT 0).weaken fun _ t3 h3 => ?_
    rw [wrote_toStore] at h3
    subst h3
    have hw3 : WfExcept {p} ∅ ((t1.unmark ((t.icache p).d.addr NDIRECT)).setAddr p NDIRECT 0) := by
      refine hw2.detach rfl hp2 le_rfl fun b hb => ?_
      rw [hs2.held, hs2.icache]
      rcases hb with rfl | hb
      · exact ⟨NDIRECT, hheld, .inl rfl⟩
      · obtain ⟨j, hj⟩ := hout b hb
        exact ⟨_, hj, .inr ⟨rfl, by omega⟩⟩
    have ho3 : OnlyAddrs p s.toStore
        ((t1.unmark ((t.icache p).d.addr NDIRECT)).setAddr p NDIRECT 0) :=
      ho.trans (hs2.onlyAddrs.trans onlyAddrs_setAddr)
    refine ⟨hw3, ho3, done _ hw3 ho3 ?_ fun k hk => ?_⟩
    · refine hret.trans (hinum ▸ hret1.trans ((hw1.returns_unmark hdata1.2).trans ?_))
      have hset := hw2.returns_setAddr hp2 (k := NDIRECT) fun m c hc hm => ?_
      · rwa [hs2.icache] at hset
      · rw [hs2.held, hs2.icache] at hc
        rcases hm with rfl | ⟨-, hm⟩
        · obtain rfl := Option.some.inj (hheld.symm.trans hc)
          exact fun hu => (used_unmark.mp hu).2 rfl
        · obtain ⟨-, hmax, -⟩ := held_iff.mp hc
          have hm' : m = NDIRECT + 1 + (m - NDIRECT - 1) := by omega
          rw [hm'] at hc
          refine fun hu => hfree1 _ ?_ c hc (used_unmark.mp hu).1
          rw [mem_range]
          simp only [NINDIRECT, NDIRECT, MAXFILE, BSIZE] at *
          omega
    · have hself : ((t1.unmark ((t.icache p).d.addr NDIRECT)).setAddr p NDIRECT 0).icache p =
          { t.icache p with d := (t.icache p).d.setAddr NDIRECT 0 } := by
        refine setInode_self.trans ?_
        rw [hs2.icache]
      rw [hself, Dinode.addr_setAddr _ _ _ _ hk]
      split_ifs with hkn
      · rfl
      · exact hdirect k (lt_of_le_of_ne hk hkn)

theorem slotIdx_ne (bn : ℕ) : slotIdx bn ≠ NDIRECT := by
  unfold slotIdx
  split_ifs <;> omega

theorem Does.univ {R : α → Store → Prop} (h : Does X n m R s) : Does Set.univ 0 m R s :=
  swp.mono h (fun _ _ _ hq => ⟨.of_mem fun _ _ => trivial, hq.2⟩) fun _ _ he =>
    ⟨.of_mem fun _ _ => trivial, he.2⟩

def rounds (off len : ℕ) : ℕ := if len = 0 then 0 else (off % BSIZE + len - 1) / BSIZE + 1

end Fs

end Xv6
