import Xv6.Proofs.Pages

/-! What the functions of `vm.c` do to the page tables and to the roles of the pages. -/

open Function Exec

namespace Xv6

open Kmem

variable {L : Layout} {s s' s'' : Kmem} {own own' own'' : ℕ → Role} {p d t f i j v w : ℕ}

/-! What is mapped. -/

theorem mapped_eq (s : Kmem) (d v : ℕ) : s.mapped d v = if present (s.word d (v / 1024)) ∧
      present (s.word (s.word d (v / 1024) / PGSIZE) (v % 1024))
    then some (s.word (s.word d (v / 1024) / PGSIZE) (v % 1024)) else none := rfl

theorem mapped_of_mem (h : s'.mem = s.mem) (d v : ℕ) : s'.mapped d v = s.mapped d v := by
  rw [mapped_eq, mapped_eq]
  unfold word
  rw [h]

variable (h : Owned L s own) (hd : own d = .dir)

namespace Owned

theorem mapped_of_table (h : Owned L s own) (ht : own t = .table d (v / 1024)) : s.mapped d v =
    if present (s.word t (v % 1024)) then some (s.word t (v % 1024)) else none := by
  obtain ⟨-, -, hpr, hdiv⟩ := h.table t d _ ht
  unfold mapped
  simp only [hdiv, hpr, true_and]

theorem mapped_of_absent (hnot : ¬present (s.word d (v / 1024))) : s.mapped d v = none := by
  unfold mapped
  rw [if_neg fun h => hnot h.1]

include h hd in
theorem table_or_absent (hv : v < 2 ^ 20) :
    (∃ t, own t = .table d (v / 1024)) ∨ ¬present (s.word d (v / 1024)) := by
  by_cases hpr : present (s.word d (v / 1024))
  · exact .inl ⟨_, h.pde d _ hd (by omega) hpr⟩
  · exact .inr hpr

include h hd in
theorem user_of_mapped (hv : v < 2 ^ 19)
    (hm : s.mapped d v = some w) : present w ∧ own (w / PGSIZE) = .user d v := by
  rcases h.table_or_absent hd (v := v) (by omega) with ⟨t, ht⟩ | hnot
  · rw [h.mapped_of_table ht] at hm
    split_ifs at hm with hpr
    cases hm
    have hu := h.pte t d _ _ ht (by omega) (by omega) hpr
    rw [show v / 1024 * 1024 + v % 1024 = v by omega] at hu
    exact ⟨hpr, hu⟩
  · rw [mapped_of_absent hnot] at hm
    cases hm

theorem mapped_of_user (h : Owned L s own) (hf : own f = .user d v) :
    v < 2 ^ 19 ∧ ∃ w, s.mapped d v = some w ∧ w / PGSIZE = f := by
  obtain ⟨hv, t, ht, hpr, hdiv⟩ := h.user f d v hf
  refine ⟨hv, s.word t (v % 1024), ?_, hdiv⟩
  rw [h.mapped_of_table ht, if_pos hpr]

include h hd in
theorem mapped_congr (hv : v < 2 ^ 20)
    (hdir : s'.mem d = s.mem d) (htab : ∀ t i, own t = .table d i → s'.mem t = s.mem t) :
    s'.mapped d v = s.mapped d v := by
  rw [mapped_eq, mapped_eq, word_of_mem hdir]
  by_cases hpr : present (s.word d (v / 1024))
  · rw [word_of_mem (htab _ _ (h.pde d _ hd (by omega) hpr))]
  · simp only [hpr, false_and, if_false]

theorem dir_ne_table (hd : own d = .dir) (ht : own t = .table p i) : d ≠ t := by
  rintro rfl
  exact absurd (hd.symm.trans ht) (by simp)

include h hd in
theorem mapped_setPte (ht : own t = .table d i)
    (hj : j < 1024) (hw : w < 2 ^ 32) (hv : v < 2 ^ 20) : (s.setWord t j w).mapped d v =
      if v = i * 1024 + j then (if present w then some w else none) else s.mapped d v := by
  obtain ⟨hi, -, hpr, hdiv⟩ := h.table t d i ht
  rw [mapped_eq, mapped_eq, word_setWord_ne (dir_ne_table hd ht)]
  by_cases hvi : v / 1024 = i
  · rw [hvi, hdiv]
    by_cases hvj : v % 1024 = j
    · have hself : (s.setWord t j w).word t (v % 1024) = w := by
        rw [word_setWord hj hw, if_pos ⟨rfl, hvj⟩]
      rw [hself, if_pos (show v = i * 1024 + j by omega)]
      simp only [hpr, true_and]
    · have hother : (s.setWord t j w).word t (v % 1024) = s.word t (v % 1024) := by
        rw [word_setWord hj hw, if_neg fun e => hvj e.2]
      rw [hother, if_neg (show ¬v = i * 1024 + j by omega)]
  · rw [if_neg (show ¬v = i * 1024 + j by omega)]
    by_cases hprv : present (s.word d (v / 1024))
    · have htv := h.pde d _ hd (by omega) hprv
      have hne : s.word d (v / 1024) / PGSIZE ≠ t := by
        intro e
        rw [e, ht] at htv
        exact hvi (by simpa using htv.symm)
      rw [word_setWord_ne hne]
    · simp only [hprv, false_and, if_false]

include h hd in
theorem mapped_link (hi : i < 1024)
    (hnot : ¬present (s.word d i)) (hw : w < 2 ^ 32) (hp : own (w / PGSIZE) = .held)
    (hzero : ∀ j, ¬present (s.word (w / PGSIZE) j)) (hv : v < 2 ^ 20) :
    (s.setWord d i w).mapped d v = s.mapped d v := by
  have hne : w / PGSIZE ≠ d := by
    intro e
    rw [e] at hp
    exact absurd (hp.symm.trans hd) (by simp)
  by_cases hvi : v / 1024 = i
  · rw [mapped_of_absent (s := s) (by rwa [hvi])]
    have hself : (s.setWord d i w).word d (v / 1024) = w := by
      rw [word_setWord hi hw, if_pos ⟨rfl, hvi⟩]
    rw [mapped_eq, hself, word_setWord_ne hne, if_neg]
    exact fun e => hzero _ e.2
  · have hother : (s.setWord d i w).word d (v / 1024) = s.word d (v / 1024) := by
      rw [word_setWord hi hw, if_neg fun e => hvi e.2]
    rw [mapped_eq, mapped_eq, hother]
    by_cases hpr : present (s.word d (v / 1024))
    · have ht := h.pde d _ hd (by omega) hpr
      rw [word_setWord_ne (dir_ne_table hd ht).symm]
    · simp only [hpr, false_and, if_false]

end Owned

/-! What the functions that add to a page directory leave alone. -/

/-- Only free pages and those in hand get roles, as tables and user pages of `d`, and nothing is
written but those pages, `d` and its tables. -/
structure Grow (d : ℕ) (s s' : Kmem) (own own' : ℕ → Role) : Prop where
  old : ∀ p, own p ≠ .free → own p ≠ .held → own' p = own p
  new : ∀ p, own' p = own p ∨ (own p = .free ∨ own p = .held) ∧
    (own' p = .free ∨ own' p = .held ∨ (∃ i, own' p = .table d i) ∨ ∃ v, own' p = .user d v)
  mem : ∀ p, own p ≠ .free → own p ≠ .held → p ≠ d → (∀ i, own p ≠ .table d i) →
    s'.mem p = s.mem p

namespace Grow

theorem of_mem (h : s'.mem = s.mem) : Grow d s s' own own :=
  ⟨fun _ _ _ => rfl, fun _ => .inl rfl, fun p _ _ _ _ => by rw [h]⟩

theorem refl (d : ℕ) (s : Kmem) (own : ℕ → Role) : Grow d s s own own := of_mem rfl

theorem trans (h : Grow d s s' own own') (h' : Grow d s' s'' own' own'') :
    Grow d s s'' own own'' where
  old p hf hh := by
    have hp := h.old p hf hh
    rw [h'.old p (hp ▸ hf) (hp ▸ hh), hp]
  new p := by
    rcases h.new p with hp | ⟨hp, hp'⟩
    · rw [← hp]
      exact h'.new p
    · refine .inr ⟨hp, ?_⟩
      rcases h'.new p with hq | ⟨-, hq⟩
      · rwa [hq]
      · exact hq
  mem p hf hh hd ht := by
    have hp := h.old p hf hh
    rw [h'.mem p (hp ▸ hf) (hp ▸ hh) hd (fun i => hp ▸ ht i), h.mem p hf hh hd ht]

theorem dir {e : ℕ} (h : Grow d s s' own own') (he : own e = .dir) : own' e = .dir :=
  (h.old e (by simp [he]) (by simp [he])).trans he

theorem update {r : Role} (hp : own p = .free ∨ own p = .held)
    (hr : r = .free ∨ r = .held ∨ (∃ i, r = .table d i) ∨ ∃ v, r = .user d v)
    (hmem : ∀ q, q ≠ p → q ≠ d → (∀ i, own q ≠ .table d i) → s'.mem q = s.mem q) :
    Grow d s s' own (update own p r) where
  old q hf hh := by
    refine update_of_ne ?_ _ _
    rintro rfl
    exact hp.elim hf hh
  new q := by
    by_cases hq : q = p
    · subst hq
      rw [update_self]
      exact .inr ⟨hp, hr⟩
    · exact .inl (update_of_ne hq _ _)
  mem q hf hh hd ht := by
    refine hmem q ?_ hd ht
    rintro rfl
    exact hp.elim hf hh

theorem mapped_other (h : Grow d s s' own own') (ho : Owned L s own) (hd : own d = .dir) {e : ℕ}
    (he : own e = .dir) (hne : e ≠ d) (hv : v < 2 ^ 20) : s'.mapped e v = s.mapped e v := by
  refine ho.mapped_congr he hv (h.mem e ?_ ?_ hne ?_) fun t i ht => h.mem t ?_ ?_ ?_ ?_
  · simp [he]
  · simp [he]
  · simp [he]
  · simp [ht]
  · simp [ht]
  · exact (Owned.dir_ne_table hd ht).symm
  · intro k hk
    rw [ht, Role.table.injEq] at hk
    exact hne hk.1

end Grow

structure Walked (d : ℕ) (s s' : Kmem) (own own' : ℕ → Role) : Prop extends
    Grow d s s' own own' where
  mapped : ∀ v < 2 ^ 20, s'.mapped d v = s.mapped d v
  held : ∀ p, own' p = .held ↔ own p = .held
  heldMem : ∀ p, own p = .held → s'.mem p = s.mem p

theorem Walked.of_mem (h : s'.mem = s.mem) : Walked d s s' own own where
  toGrow := .of_mem h
  mapped v _ := mapped_of_mem h d v
  held _ := Iff.rfl
  heldMem p _ := by rw [h]

/-! The allocator. -/

variable {Q : Unit → Kmem → Prop} {R : ℕ → Prop}

section Rules

variable {α : Type} {E : KmemStop → Kmem → Prop}

theorem wp_kalloc {Q : Option ℕ → Kmem → Prop} (h : Owned L s own)
    (hnone : ∀ s', s'.mem = s.mem → Owned L s' own → (s.fails = [] → s'.freelist = []) → Q none s')
    (hsome : ∀ s' p, s'.mem = s.mem → own p = .free →
      Owned L s' (update own p .held) → (s.fails = [] → s'.fails = []) → Q (some p) s') :
    wp kalloc Q E s := by
  have hfail : ∀ s', s'.mem = s.mem → s'.freelist = s.freelist →
      (s.fails = [] → s'.freelist = []) → Q none s' := fun s' hm hf =>
    hnone s' hm (h.congr hf fun _ _ => by rw [hm])
  unfold wp kalloc
  cases hf : s.fails.headD false with
  | true =>
    refine hfail _ rfl rfl fun hnil => ?_
    rw [hnil] at hf
    cases hf
  | false =>
    cases hs : s.freelist with
    | nil => exact hfail _ rfl hs.symm fun _ => rfl
    | cons r next =>
      obtain ⟨hfree, ho⟩ : own r = .free ∧
          Owned L { s with freelist := next, fails := s.fails.tail } _ := h.take hs rfl rfl
      refine hsome _ _ rfl hfree ho fun hnil => ?_
      change s.fails.tail = []
      rw [hnil]
      rfl

theorem wp_kfree (h : Owned L s own) (hp : own p = .held)
    (hQ : ∀ s', (∀ q, q ≠ p → s'.mem q = s.mem q) → Owned L s' (update own p .free) →
      Q () s') : wp (kfree L p) Q E s := by
  unfold kfree
  rw [if_pos (h.managed (by simp [hp]))]
  exact hQ _ (fun q hq => update_of_ne hq _ _) (h.give hp)

theorem wp_load {Q : ℕ → Kmem → Prop} : wp (load p i) Q E s ↔ Q (s.word p i) s := Iff.rfl

theorem wp_store : wp (store p i w) Q E s ↔ Q () (s.setWord p i w) := Iff.rfl

theorem wp_zeroPage : wp (zeroPage p) Q E s ↔ Q () (s.setPage p Buffer.zero) := Iff.rfl

/-! Walking the page directory. -/

theorem walkpgdir_lookup (d va : ℕ) (s : Kmem) : walkpgdir d va false s =
    .ok (if present (s.word d (PDX va)) then some (s.word d (PDX va) / PGSIZE, PTX va) else none)
      s := by
  change (if present (s.word d (PDX va)) then _ else _ : KmemM _) s = _
  by_cases hpr : present (s.word d (PDX va))
  · rw [if_pos hpr, if_pos hpr]
    rfl
  · rw [if_neg hpr, if_neg hpr]
    rfl

theorem wp_lookup {va : ℕ} {Q : Option (ℕ × ℕ) → Kmem → Prop} :
    wp (walkpgdir d va false) Q E s ↔ Q (if present (s.word d (PDX va)) then
      some (s.word d (PDX va) / PGSIZE, PTX va) else none) s := by
  unfold wp
  rw [walkpgdir_lookup]

theorem pdx_lt (va : ℕ) : PDX va < 1024 := Nat.mod_lt _ (by decide)

theorem pde_eq (p : ℕ) : p * PGSIZE ||| PTE_P ||| PTE_W ||| PTE_U = p * PGSIZE ||| 7 := by
  rw [Nat.or_assoc, Nat.or_assoc]
  rfl

theorem entry_lt {p fl : ℕ} (hp : p < 2 ^ 20) (hfl : fl < PGSIZE) : p * PGSIZE ||| fl < 2 ^ 32 := by
  rw [entry_eq p hfl]
  simp only [PGSIZE] at *
  omega

include h hd in
theorem wp_walkpgdir {va : ℕ} {Q : Option (ℕ × ℕ) → Kmem → Prop}
    (hnone : ∀ s', s'.mem = s.mem → Owned L s' own → (s.fails = [] → s'.freelist = []) → Q none s')
    (hsome : ∀ s' own' t, Owned L s' own' → Walked d s s' own own' →
      own' t = .table d (PDX va) → (s.fails = [] → s'.fails = []) →
      (∀ i, i ≠ PDX va → s'.word d i = s.word d i) → Q (some (t, PTX va)) s') :
    wp (walkpgdir d va true) Q E s := by
  unfold walkpgdir
  rw [wp_bind, wp_load]
  by_cases hpr : present (s.word d (PDX va))
  · rw [if_pos hpr]
    exact hsome s own _ h (.of_mem rfl) (h.pde d _ hd (pdx_lt va) hpr) id fun _ _ => rfl
  · rw [if_neg hpr, if_neg (by simp), wp_bind]
    refine wp_kalloc h hnone fun s1 p hmem hfree ho hfails => ?_
    -- the new table is zeroed, then entered into the directory
    set own1 := update own p .held with hown1
    have hp1 : own1 p = .held := update_self ..
    have hne : p ≠ d := by
      rintro rfl
      exact absurd (hfree.symm.trans hd) (by simp)
    have hd1 : own1 d = .dir := by rw [hown1, update_of_ne hne.symm, hd]
    set s2 := s1.setPage p Buffer.zero with hs2
    have ho2 : Owned L s2 own1 := by
      refine ho.congr rfl fun q hq => update_of_ne ?_ _ _
      rintro rfl
      rw [hp1] at hq
      simp at hq
    have hzero : ∀ j, ¬present (s2.word p j) := by
      intro j
      rw [word_zero (by rw [hs2]; exact update_self ..)]
      exact not_present_zero
    have hword : ∀ q j, q ≠ p → s2.word q j = s.word q j := by
      intro q j hq
      rw [hs2, word_setPage_ne hq]
      exact word_of_mem (by rw [hmem])
    have hnot : ¬present (s2.word d (PDX va)) := by rwa [hword d _ hne.symm]
    have hlt : p * PGSIZE ||| 7 < 2 ^ 32 := entry_lt (ho.lt (by simp [hp1])) (by decide)
    have hdiv : (p * PGSIZE ||| 7) / PGSIZE = p := entry_div p (by decide)
    have hpr' : present (p * PGSIZE ||| 7) := by
      rw [show (7 : ℕ) = 6 ||| PTE_P from rfl, ← Nat.or_assoc]
      exact present_or _
    have ho3 := ho2.link hp1 hd1 (pdx_lt va) hzero hnot hlt hpr' hdiv
    dsimp only
    rw [wp_bind, wp_zeroPage, ← hs2, wp_bind, wp_store, pde_eq, wp_pure]
    refine hsome _ _ p ho3 ⟨?_, fun v hv => ?_, fun q => ?_, fun q hq => ?_⟩ (update_self ..)
      hfails fun i hi => ?_
    · rw [hown1, update_idem]
      refine .update (.inl hfree) (.inr (.inr (.inl ⟨_, rfl⟩))) fun q hqp hqd _ => ?_
      change update s2.mem d _ q = _
      rw [update_of_ne hqd, hs2]
      change update s1.mem p _ q = _
      rw [update_of_ne hqp, hmem]
    · rw [ho2.mapped_link hd1 (pdx_lt va) hnot hlt (by rw [hdiv]; exact hp1)
        (by rw [hdiv]; exact hzero) hv]
      refine h.mapped_congr hd hv ?_ fun t i ht => ?_
      · rw [hs2]
        change update s1.mem p _ d = _
        rw [update_of_ne hne.symm, hmem]
      · rw [hs2]
        change update s1.mem p _ t = _
        rw [update_of_ne, hmem]
        rintro rfl
        exact absurd (hfree.symm.trans ht) (by simp)
    · rw [hown1, update_idem]
      by_cases hq : q = p
      · subst hq
        rw [update_self, hfree]
        simp
      · rw [update_of_ne hq]
    · have hqp : q ≠ p := by
        rintro rfl
        exact absurd (hfree.symm.trans hq) (by simp)
      have hqd : q ≠ d := by
        rintro rfl
        exact absurd (hd.symm.trans hq) (by simp)
      change update s2.mem d _ q = _
      rw [update_of_ne hqd, hs2]
      change update s1.mem p _ q = _
      rw [update_of_ne hqp, hmem]
    · rw [word_setWord (pdx_lt va) hlt, if_neg fun e => hi e.2, hword d i hne.symm]

include h hd in
theorem wp_mapUser {fl : ℕ} {Q : Bool → Kmem → Prop}
    (hf : own f = .held) (hv : v < 2 ^ 19) (hnot : s.mapped d v = none) (hfl : fl < PGSIZE)
    (hfail : ∀ s' own', Owned L s' own' → Walked d s s' own own' →
      (s.fails = [] → s'.freelist = []) → Q false s')
    (hok : ∀ s' own', Owned L s' own' → Grow d s s' own own' →
      (∀ u < 2 ^ 20, s'.mapped d u =
        if u = v then some (f * PGSIZE ||| fl ||| PTE_P) else s.mapped d u) →
      (∀ p, own' p = .held ↔ own p = .held ∧ p ≠ f) → s'.mem f = s.mem f →
      (s.fails = [] → s'.fails = []) → (∀ i, i ≠ v / 1024 → s'.word d i = s.word d i) →
      Q true s') : wp (mappages d (v * PGSIZE) PGSIZE (f * PGSIZE) fl) Q E s := by
  have hdown : PGROUNDDOWN (v * PGSIZE) = v * PGSIZE := by
    simp only [PGROUNDDOWN, PGSIZE]
    omega
  have hlast : PGROUNDDOWN ((v * PGSIZE + PGSIZE + (2 ^ 32 - 1)) % 2 ^ 32) = v * PGSIZE := by
    simp only [PGROUNDDOWN, PGSIZE]
    omega
  have hpdx := PDX_page (v := v) (by omega)
  have hptx := PTX_page v
  have hone : (v * PGSIZE + 2 ^ 32 - v * PGSIZE) % 2 ^ 32 / PGSIZE + 1 = 1 := by
    simp only [PGSIZE]
    omega
  unfold mappages
  simp only [hdown, hlast, hone]
  unfold mapFrom
  rw [wp_bind]
  refine wp_walkpgdir h hd (fun s' hmem ho => hfail s' own ho (.of_mem hmem))
    fun s1 own1 t ho hwalk ht hfails hdirs => ?_
  rw [hpdx] at ht hdirs
  have hd1 : own1 d = .dir := hwalk.dir hd
  have hf1 : own1 f = .held := (hwalk.held f).mpr hf
  have hnot1 : ¬present (s1.word t (v % 1024)) := by
    intro hpr
    have hm := hwalk.mapped v (by omega)
    rw [ho.mapped_of_table ht, if_pos hpr, hnot] at hm
    cases hm
  dsimp only
  rw [wp_bind, wp_load, hptx, if_neg hnot1, wp_bind, wp_store, if_pos rfl, wp_pure]
  set w := f * PGSIZE ||| fl ||| PTE_P with hw
  have hfl' : fl ||| PTE_P < PGSIZE := flags_lt hfl
  have hw' : w = f * PGSIZE ||| (fl ||| PTE_P) := by rw [hw, Nat.or_assoc]
  have hlt : w < 2 ^ 32 := by
    rw [hw']
    exact entry_lt (h.lt (by simp [hf])) hfl'
  have hdiv : w / PGSIZE = f := by rw [hw', entry_div f hfl']
  have hpr : present w := present_or _
  have ho2 := ho.map hf1 ht (by omega) (Nat.mod_lt _ (by decide)) hnot1 hlt hpr hdiv
  have htf : f ≠ t := by
    rintro rfl
    exact absurd (hf1.symm.trans ht) (by simp)
  refine hok _ _ ho2 (hwalk.toGrow.trans ?_) (fun u hu => ?_) (fun q => ?_) ?_ hfails fun i hi => ?_
  · refine .update (.inr hf1) (.inr (.inr (.inr ⟨_, rfl⟩))) fun q _ _ hqt => ?_
    refine update_of_ne ?_ _ _
    rintro rfl
    exact hqt _ ht
  · rw [ho.mapped_setPte hd1 ht (Nat.mod_lt _ (by decide)) hlt hu, if_pos hpr,
      show v / 1024 * 1024 + v % 1024 = v by omega, hwalk.mapped u hu]
  · by_cases hq : q = f
    · subst hq
      rw [update_self]
      simp
    · rw [update_of_ne hq, hwalk.held q]
      simp [hq]
  · change update s1.mem t _ f = _
    rw [update_of_ne htf, hwalk.heldMem f hf]
  · rw [word_setWord_ne (Owned.dir_ne_table hd1 ht), hdirs i hi]

/-! Unmapping user pages. -/

structure Shrunk (d : ℕ) (R : ℕ → Prop) (s s' : Kmem) (own own' : ℕ → Role) : Prop where
  gone : ∀ p v, R v → own p = .user d v → own' p = .free
  kept : ∀ p, (∀ v, R v → own p ≠ .user d v) → own' p = own p
  unmapped : ∀ v < 2 ^ 20, R v → s'.mapped d v = none
  mapped : ∀ v < 2 ^ 20, ¬R v → s'.mapped d v = s.mapped d v
  mem : ∀ p, (∀ v, R v → own p ≠ .user d v) → (∀ i, own p ≠ .table d i) → s'.mem p = s.mem p

theorem Shrunk.nothing (h : ∀ v < 2 ^ 20, R v → s.mapped d v = none)
    (ho : Owned L s own) : Shrunk d R s s own own where
  gone p v hv hp := by
    obtain ⟨hlt, w, hm, -⟩ := ho.mapped_of_user hp
    rw [h v (by omega) hv] at hm
    cases hm
  kept _ _ := rfl
  unmapped := h
  mapped _ _ _ := rfl
  mem _ _ _ := rfl

theorem Shrunk.trans {R R' : ℕ → Prop} (h : Shrunk d R s s' own own')
    (h' : Shrunk d R' s' s'' own' own'') : Shrunk d (fun v => R v ∨ R' v) s s'' own own'' where
  gone p v hv hp := by
    by_cases hR : R v
    · have hfree := h.gone p v hR hp
      rw [h'.kept p (by simp [hfree]), hfree]
    · have hp' : own' p = .user d v := by
        rw [h.kept p, hp]
        intro u hu e
        rw [hp] at e
        obtain rfl : v = u := by simpa using e
        exact hR hu
      exact h'.gone p v (hv.resolve_left hR) hp'
  kept p hp := by
    have hp' := h.kept p fun v hv => hp v (.inl hv)
    rw [h'.kept p fun v hv => hp' ▸ hp v (.inr hv), hp']
  unmapped v hv hR := by
    by_cases hR' : R' v
    · exact h'.unmapped v hv hR'
    · rw [h'.mapped v hv hR']
      exact h.unmapped v hv (hR.resolve_right hR')
  mapped v hv hR := by
    rw [h'.mapped v hv fun e => hR (.inr e), h.mapped v hv fun e => hR (.inl e)]
  mem p hp ht := by
    have hp' := h.kept p fun v hv => hp v (.inl hv)
    rw [h'.mem p (fun v hv => hp' ▸ hp v (.inr hv)) fun i => hp' ▸ ht i,
      h.mem p (fun v hv => hp v (.inl hv)) ht]

theorem Shrunk.mono {R R' : ℕ → Prop} (h : Shrunk d R s s' own own')
    (hR : ∀ v < 2 ^ 20, R v ↔ R' v) (ho : Owned L s own) : Shrunk d R' s s' own own' where
  gone p v hv hp := h.gone p v ((hR v (by have := (ho.mapped_of_user hp).1; omega)).mpr hv) hp
  kept p hp := by
    refine h.kept p fun v hv e => ?_
    exact hp v ((hR v (by have := (ho.mapped_of_user e).1; omega)).mp hv) e
  unmapped v hv hv' := h.unmapped v hv ((hR v hv).mpr hv')
  mapped v hv hv' := h.mapped v hv fun e => hv' ((hR v hv).mp e)
  mem p hp ht := by
    refine h.mem p (fun v hv e => ?_) ht
    exact hp v ((hR v (by have := (ho.mapped_of_user e).1; omega)).mp hv) e

include h hd in
theorem wp_unmap
    (hv : v < 2 ^ 19) (ht : own t = .table d (v / 1024)) (hpr : present (s.word t (v % 1024)))
    (hQ : ∀ s' own', Owned L s' own' → Shrunk d (· = v) s s' own own' → Q () s') :
    wp (kfree L (s.word t (v % 1024) / PGSIZE) >>= fun _ => store t (v % 1024) 0) Q E s := by
  set f := s.word t (v % 1024) / PGSIZE with hfdef
  have hf : own f = .user d v := by
    have := h.pte t d _ _ ht (by omega) (Nat.mod_lt _ (by decide)) hpr
    rwa [show v / 1024 * 1024 + v % 1024 = v by omega] at this
  have hft : f ≠ t := by
    intro e
    rw [e, ht] at hf
    cases hf
  -- clearing the entry first, then freeing the page, gives the same state
  have ho1 := h.clear ht (by omega) (Nat.mod_lt _ (by decide)) hpr
  rw [← hfdef] at ho1
  have ho2 := ho1.give (update_self ..)
  rw [update_idem] at ho2
  have hcomm : { (s.setWord t (v % 1024) 0).setPage f junk with freelist := f :: s.freelist } =
      { s.setPage f junk with freelist := f :: s.freelist }.setWord t (v % 1024) 0 := by
    unfold setWord setPage
    simp only [update_of_ne hft.symm]
    rw [update_comm hft.symm]
  have ho3 : Owned L ({ s.setPage f junk with freelist := f :: s.freelist }.setWord t (v % 1024) 0)
      (update own f .free) := by
    rw [← hcomm]
    exact ho2
  have hd1 : update own f .held d = .dir := by
    rw [update_of_ne, hd]
    rintro rfl
    exact absurd (hd.symm.trans hf) (by simp)
  have hmapped : ∀ u < 2 ^ 20, ({ s.setPage f junk with freelist := f :: s.freelist }.setWord t
      (v % 1024) 0).mapped d u = if u = v then none else s.mapped d u := by
    intro u hu
    have hset := h.mapped_setPte hd ht (Nat.mod_lt v (by decide)) (show 0 < 2 ^ 32 by decide) hu
    rw [if_neg not_present_zero, show v / 1024 * 1024 + v % 1024 = v by omega] at hset
    rw [← hset, ← hcomm]
    have hnot : ∀ q, update own f .held q ≠ .held → q ≠ f := by
      rintro q hq rfl
      exact hq (update_self ..)
    refine ho1.mapped_congr hd1 hu ?_ fun q k hq => ?_
    · exact update_of_ne (hnot d (by simp [hd1])) _ _
    · exact update_of_ne (hnot q (by simp [hq])) _ _
  rw [wp_bind]
  unfold kfree
  rw [if_pos (h.managed (by simp [hf]))]
  refine hQ _ _ ho3 ⟨?_, fun p hp => ?_, ?_, fun u hu huv => ?_, fun p hp hpt => ?_⟩
  · rintro p u rfl hp
    obtain ⟨-, w, hm, hw⟩ := h.mapped_of_user hp
    rw [h.mapped_of_table ht, if_pos hpr, Option.some.injEq] at hm
    rw [← hw, ← hm, update_self]
  · refine update_of_ne ?_ _ _
    rintro rfl
    exact hp v rfl hf
  · rintro u hu rfl
    rw [hmapped u hu, if_pos rfl]
  · rw [hmapped u hu, if_neg huv]
  · have hpf : p ≠ f := by
      rintro rfl
      exact hp v rfl hf
    have hpt' : p ≠ t := by
      rintro rfl
      exact hpt _ ht
    change update (update s.mem f _) t _ p = _
    rw [update_of_ne hpt', update_of_ne hpf]

include h hd in
theorem wp_deallocFrom {oldsz k u : ℕ} (hold : oldsz ≤ KERNBASE) (hk : oldsz ≤ (u + k) * PGSIZE)
    (hQ : ∀ s' own', Owned L s' own' →
      Shrunk d (fun v => u ≤ v ∧ v * PGSIZE < oldsz) s s' own own' → Q () s') :
    wp (deallocFrom L d oldsz k (u * PGSIZE)) Q E s := by
  induction k generalizing s own u with
  | zero =>
    refine hQ s own h (.nothing (fun v hv hR => absurd hR ?_) h)
    simp only [PGSIZE] at *
    omega
  | succ k ih =>
    unfold deallocFrom
    by_cases hu : u * PGSIZE < oldsz
    · have hlt : u < 2 ^ 19 := by
        simp only [KERNBASE, PGSIZE] at *
        omega
      have hpdx := PDX_page (v := u) (by omega)
      have hptx := PTX_page u
      have hstep : (u * PGSIZE + PGSIZE) % 2 ^ 32 = (u + 1) * PGSIZE := by
        simp only [PGSIZE]
        omega
      rw [if_pos hu, wp_bind, wp_lookup, hpdx, hptx]
      by_cases hpr : present (s.word d (u / 1024))
      · rw [if_pos hpr]
        have ht := h.pde d _ hd (by omega) hpr
        set t := s.word d (u / 1024) / PGSIZE with htdef
        dsimp only
        rw [wp_bind, wp_load, hstep]
        have hgo : ∀ s1 own1, Owned L s1 own1 → Shrunk d (· = u) s s1 own own1 →
            wp (deallocFrom L d oldsz k ((u + 1) * PGSIZE)) Q E s1 := by
          intro s1 own1 ho1 hsh
          have hd1 : own1 d = .dir := by
            rw [hsh.kept d (by simp [hd]), hd]
          refine ih ho1 hd1 (by rw [show u + 1 + k = u + (k + 1) by omega]; exact hk)
            fun s2 own2 ho2 hsh2 => hQ s2 own2 ho2 ((hsh.trans hsh2).mono (fun v _ => ?_) h)
          simp only [PGSIZE] at *
          omega
        by_cases hpt : present (s.word t (u % 1024))
        · have hne : s.word t (u % 1024) / PGSIZE ≠ 0 := by
            have hu := h.pte t d _ _ ht (by omega) (Nat.mod_lt u (by decide)) hpt
            exact h.ne_zero (by simp [hu])
          rw [if_pos hpt, if_neg hne, ← bind_assoc, wp_bind]
          exact wp_unmap h hd hlt ht hpt hgo
        · rw [if_neg hpt]
          refine hgo s own h (.nothing ?_ h)
          rintro v hv rfl
          rw [h.mapped_of_table ht, if_neg hpt]
      · -- no page up to the end of the missing table is mapped
        rw [if_neg hpr]
        have hnext : (u / 1024 + 1) * 2 ^ 22 % 2 ^ 32 = (u / 1024 + 1) * 1024 * PGSIZE := by
          simp only [PGSIZE]
          omega
        have hnone : Shrunk d
            (fun v => (u ≤ v ∧ v < (u / 1024 + 1) * 1024) ∧ v * PGSIZE < oldsz) s s own own := by
          refine .nothing (fun v _ hR => Owned.mapped_of_absent ?_) h
          rwa [show v / 1024 = u / 1024 by omega]
        have hk' : oldsz ≤ ((u / 1024 + 1) * 1024 + k) * PGSIZE := by
          refine hk.trans (Nat.mul_le_mul_right PGSIZE ?_)
          omega
        dsimp only
        rw [hnext]
        refine ih (u := (u / 1024 + 1) * 1024) h hd hk' fun s2 own2 ho2 hsh2 => ?_
        refine hQ s2 own2 ho2 ((hnone.trans hsh2).mono (fun v _ => ?_) h)
        by_cases hv : v * PGSIZE < oldsz
        · simp only [hv, and_true]
          omega
        · simp only [hv, and_false, or_false]
    · rw [if_neg hu]
      refine hQ s own h (.nothing (fun v hv hR => absurd hR ?_) h)
      simp only [PGSIZE] at *
      omega

include h hd in
theorem wp_deallocuvm {oldsz newsz : ℕ} {Q : ℕ → Kmem → Prop} (hold : oldsz ≤ KERNBASE)
    (hQ : ∀ s' own', Owned L s' own' →
      Shrunk d (fun v => newsz ≤ v * PGSIZE ∧ v * PGSIZE < oldsz) s s' own own' →
      Q (if newsz ≥ oldsz then oldsz else newsz) s') : wp (deallocuvm L d oldsz newsz) Q E s := by
  unfold deallocuvm
  by_cases hge : newsz ≥ oldsz
  · have hnone := hQ s own h (.nothing (fun v _ hR => absurd hR (by omega)) h)
    rw [if_pos hge] at hnone ⊢
    exact hnone
  · rw [if_neg hge] at hQ ⊢
    rw [wp_bind]
    have hup : PGROUNDUP newsz = (newsz + PGSIZE - 1) / PGSIZE * PGSIZE := by
      simp only [PGROUNDUP, PGSIZE, KERNBASE] at *
      omega
    rw [hup]
    refine wp_deallocFrom h hd hold ?_ fun s1 own1 ho1 hsh => hQ s1 own1 ho1 (hsh.mono ?_ h)
    · simp only [PGSIZE] at *
      omega
    · intro v _
      simp only [PGSIZE] at *
      omega

/-! Adding user pages. -/

structure Added (d u n : ℕ) (s s' : Kmem) (own own' : ℕ → Role) : Prop extends
    Grow d s s' own own' where
  noHeld : NoHeld own'
  mapped : ∀ v < 2 ^ 20, ¬(u ≤ v ∧ v < n) → s'.mapped d v = s.mapped d v
  fresh : ∀ v, u ≤ v → v < n → ∃ f, s'.mapped d v = some (f * PGSIZE ||| 7) ∧
    s'.mem f = Buffer.zero ∧ own f = .free
  fails : s.fails = [] → s'.fails = []
  dirs : ∀ i, 512 ≤ i → s'.word d i = s.word d i

/-- What was added is gone again, except for page tables; so are the user pages `R` that were there
before. -/
structure Undone (d : ℕ) (R : ℕ → Prop) (s s' : Kmem) (own own' : ℕ → Role) : Prop where
  gone : ∀ p v, R v → own p = .user d v → own' p = .free
  kept : ∀ p, own p ≠ .free → (∀ v, R v → own p ≠ .user d v) → own' p = own p
  free : ∀ p, own p = .free → own' p = .free ∨ ∃ i, own' p = .table d i
  unmapped : ∀ v < 2 ^ 20, R v → s'.mapped d v = none
  mapped : ∀ v < 2 ^ 20, ¬R v → s'.mapped d v = s.mapped d v
  mem : ∀ p, own p ≠ .free → (∀ v, R v → own p ≠ .user d v) → p ≠ d → (∀ i, own p ≠ .table d i) →
    s'.mem p = s.mem p

/-- The free pages have run out: all of them went to `d`, to its user pages `R` or its page tables,
but for one in hand. -/
def Exhausted (L : Layout) (d : ℕ) (R : ℕ → Prop) (s : Kmem) (own : ℕ → Role) : Prop :=
  ∃ s' own' p, Owned L s' own' ∧ Grow d s s' own own' ∧ s'.freelist = [] ∧
    (∀ q, own' q = .held → q = p) ∧ ∀ q v, own' q = .user d v → own q = .user d v ∨ R v

theorem Undone.noHeld (h : Undone d R s s' own own') (hno : NoHeld own) : NoHeld own' := by
  intro p hp
  by_cases hf : own p = .free
  · rcases h.free p hf with hp' | ⟨i, hp'⟩
    · exact absurd (hp.symm.trans hp') (by simp)
    · exact absurd (hp.symm.trans hp') (by simp)
  · by_cases hR : ∃ v, R v ∧ own p = .user d v
    · obtain ⟨v, hv, hu⟩ := hR
      exact absurd (hp.symm.trans (h.gone p v hv hu)) (by simp)
    · have hk := h.kept p hf fun v hv hu => hR ⟨v, hv, hu⟩
      exact hno p (hk.symm.trans hp)

theorem Undone.of_grow (h : Grow d s s' own own') (hno : NoHeld own)
    (hno' : NoHeld own') (hmapped : ∀ v < 2 ^ 20, ¬R v → s'.mapped d v = s.mapped d v)
    (hnew : ∀ p v, own p = .free → own' p = .user d v → R v)
    (hu : Undone d R s' s'' own' own'') : Undone d R s s'' own own'' where
  gone p v hv hp := hu.gone p v hv (by rw [h.old p (by simp [hp]) (by simp [hp]), hp])
  kept p hf hR := by
    have hp := h.old p hf (hno p)
    rw [hu.kept p (hp ▸ hf) (hp ▸ hR), hp]
  free p hf := by
    rcases h.new p with hp | ⟨-, hp | hp | ⟨i, hp⟩ | ⟨v, hp⟩⟩
    · exact hu.free p (hp.trans hf)
    · exact hu.free p hp
    · exact absurd hp (hno' p)
    · refine .inr ⟨i, ?_⟩
      rw [hu.kept p (by simp [hp]) (by simp [hp]), hp]
    · exact .inl (hu.gone p v (hnew p v hf hp) hp)
  unmapped := hu.unmapped
  mapped v hv hR := by rw [hu.mapped v hv hR, hmapped v hv hR]
  mem p hf hR hpd ht := by
    have hp := h.old p hf (hno p)
    rw [hu.mem p (hp ▸ hf) (hp ▸ hR) hpd (hp ▸ ht), h.mem p hf (hno p) hpd ht]

theorem Undone.of_shrunk (h : Shrunk d R s s' own own') : Undone d R s s' own own' where
  gone := h.gone
  kept p _ := h.kept p
  free p hp := .inl (by rw [h.kept p (by simp [hp]), hp])
  unmapped := h.unmapped
  mapped := h.mapped
  mem p _ hR _ ht := h.mem p hR ht

structure Taken (d : ℕ) (b : Page) (s s' : Kmem) (own : ℕ → Role) (p : ℕ) : Prop where
  free : own p = .free
  owned : Owned L s' (Function.update own p .held)
  grow : Grow d s s' own (Function.update own p .held)
  mapped : ∀ v < 2 ^ 20, s'.mapped d v = s.mapped d v
  self : s'.mem p = b

include h hd in
theorem taken_of_kalloc (hmem : s'.mem = s.mem)
    (hfree : own p = .free) (ho : Owned L s' (update own p .held)) (b : Page) :
    Taken (L := L) d b s (s'.setPage p b) own p where
  free := hfree
  owned := by
    refine ho.congr rfl fun q hq => update_of_ne ?_ _ _
    rintro rfl
    rw [update_self] at hq
    simp at hq
  grow := by
    refine .update (.inl hfree) (.inr (.inl rfl)) fun q hq _ _ => ?_
    change update s'.mem p b q = _
    rw [update_of_ne hq, hmem]
  mapped v hv := by
    have hne : ∀ q, own q ≠ .free → (s'.setPage p b).mem q = s.mem q := by
      intro q hq
      change update s'.mem p b q = _
      rw [update_of_ne, hmem]
      rintro rfl
      exact hq hfree
    exact h.mapped_congr hd hv (hne d (by simp [hd])) fun t i ht => hne t (by simp [ht])
  self := update_self ..

theorem Grow.not_user (hm : ∀ v < 2 ^ 20, s'.mapped d v = s.mapped d v) (h : Owned L s own)
    (hd : own d = .dir) (ho : Owned L s' own') {v : ℕ} (hp : own' p = .user d v) :
    own p = .user d v := by
  obtain ⟨hv, w, hmap, rfl⟩ := ho.mapped_of_user hp
  rw [hm v (by omega)] at hmap
  exact (h.user_of_mapped hd hv hmap).2

theorem Undone.of_walked {b : Page} {s1 s2 s3 s4 : Kmem} {own2 own3 : ℕ → Role}
    (hd : own d = .dir) (hno : NoHeld own) (ht : Taken (L := L) d b s s1 own p)
    (hw : Walked d s1 s2 (update own p .held) own2) (ho2 : Owned L s2 own2)
    (hs : Shrunk d R s2 s3 own2 own3) (ho3 : Owned L s3 own3)
    (hmem : ∀ q, q ≠ p → s4.mem q = s3.mem q) : Undone d R s s4 own (update own3 p .free) := by
  have hd1 : update own p .held d = .dir := ht.grow.dir hd
  have hd2 : own2 d = .dir := hw.dir hd1
  have hd3 : own3 d = .dir := by rw [hs.kept d (by simp [hd2]), hd2]
  have hp3 : own3 p = .held := by
    have hp2 : own2 p = .held := (hw.held p).mpr (update_self ..)
    rw [hs.kept p (by simp [hp2]), hp2]
  have hne : ∀ q, own q ≠ .free → q ≠ p := by
    rintro q hq rfl
    exact hq ht.free
  have hold : ∀ q, own q ≠ .free → own2 q = own q := by
    intro q hq
    have hq1 : update own p .held q = own q := update_of_ne (hne q hq) ..
    rw [hw.old q (hq1 ▸ hq) (hq1 ▸ hno q), hq1]
  have hmapped : ∀ v < 2 ^ 20, s4.mapped d v = s3.mapped d v := by
    intro v hv
    refine ho3.mapped_congr hd3 hv (hmem d ?_) fun t i hti => hmem t ?_
    · rintro rfl
      exact absurd (hd3.symm.trans hp3) (by simp)
    · rintro rfl
      exact absurd (hti.symm.trans hp3) (by simp)
  refine ⟨fun q v hv hq => ?_, fun q hf hR => ?_, fun q hq => ?_, fun v hv hR => ?_,
    fun v hv hR => ?_, fun q hf hR hqd hqt => ?_⟩
  · rw [update_of_ne (hne q (by simp [hq]))]
    exact hs.gone q v hv (by rw [hold q (by simp [hq]), hq])
  · rw [update_of_ne (hne q hf), hs.kept q (hold q hf ▸ hR), hold q hf]
  · by_cases hqp : q = p
    · exact .inl (by rw [hqp, update_self])
    · rw [update_of_ne hqp]
      have hq1 : update own p .held q = .free := by rw [update_of_ne hqp, hq]
      rcases hw.new q with e | ⟨-, e | e | ⟨i, e⟩ | ⟨v, e⟩⟩
      · exact .inl (by rw [hs.kept q (by simp [e, hq1]), e, hq1])
      · exact .inl (by rw [hs.kept q (by simp [e]), e])
      · exact absurd ((hw.held q).mp e) (by simp [hq1])
      · exact .inr ⟨i, by rw [hs.kept q (by simp [e]), e]⟩
      · exact absurd (Grow.not_user hw.mapped ht.owned hd1 ho2 e) (by simp [hq1])
  · rw [hmapped v hv, hs.unmapped v hv hR]
  · rw [hmapped v hv, hs.mapped v hv hR, hw.mapped v hv, ht.mapped v hv]
  · have hq1 : update own p .held q = own q := update_of_ne (hne q hf) ..
    rw [hmem q (hne q hf), hs.mem q (hold q hf ▸ hR) (hold q hf ▸ hqt),
      hw.mem q (hq1 ▸ hf) (hq1 ▸ hno q) hqd (hq1 ▸ hqt), ht.grow.mem q hf (hno q) hqd hqt]

theorem Exhausted.of_grow (hg : Grow d s s' own own')
    (hu : ∀ q v, own' q = .user d v → own q = .user d v ∨ R v) (he : Exhausted L d R s' own') :
    Exhausted L d R s own := by
  obtain ⟨s1, own1, p, ho, hg1, hempty, hheld, huser⟩ := he
  exact ⟨s1, own1, p, ho, hg.trans hg1, hempty, hheld, fun q v hq =>
    (huser q v hq).elim (hu q v) .inr⟩

theorem Exhausted.mono {R' : ℕ → Prop} (he : Exhausted L d R s own) (hR : ∀ v, R v → R' v) :
    Exhausted L d R' s own := by
  obtain ⟨s1, own1, p, ho, hg, hempty, hheld, huser⟩ := he
  exact ⟨s1, own1, p, ho, hg, hempty, hheld, fun q v hq => (huser q v hq).imp_right (hR v)⟩

theorem Exhausted.of_walked {b : Page} {s1 s2 : Kmem} {own2 : ℕ → Role}
    (hd : own d = .dir) (hno : NoHeld own) (ht : Taken (L := L) d b s s1 own p)
    (hw : Walked d s1 s2 (update own p .held) own2) (ho2 : Owned L s2 own2)
    (hempty : s2.freelist = []) : Exhausted L d R s own := by
  refine ⟨s2, own2, p, ho2, ht.grow.trans hw.toGrow, hempty, fun q hq => ?_, fun q v hq => .inl ?_⟩
  · by_contra hqp
    have hq1 := (hw.held q).mp hq
    rw [update_of_ne hqp] at hq1
    exact hno q hq1
  · have hq1 := Grow.not_user hw.mapped ht.owned (ht.grow.dir hd) ho2 hq
    have hqp : q ≠ p := by
      rintro rfl
      simp at hq1
    rwa [update_of_ne hqp] at hq1

include h hd in
theorem wp_allocFrom {oldsz newsz k u : ℕ} {Q : ℕ → Kmem → Prop}
    (hno : NoHeld own) (hnew : newsz ≤ KERNBASE) (hold : oldsz ≤ u * PGSIZE)
    (hk : ∀ v, u ≤ v → v < u + k → v * PGSIZE < newsz)
    (hnot : ∀ v, u ≤ v → v < u + k → s.mapped d v = none) (hfail : ∀ s' own', Owned L s' own' →
      Undone d (fun v => oldsz ≤ v * PGSIZE ∧ v * PGSIZE < newsz) s s' own own' →
      (s.fails = [] → Exhausted L d (fun v => u ≤ v ∧ v < u + k) s own) → Q 0 s')
    (hok : ∀ s' own', Owned L s' own' → Added d u (u + k) s s' own own' → Q newsz s') :
    wp (allocFrom L d oldsz newsz k (u * PGSIZE)) Q E s := by
  induction k generalizing s own u with
  | zero =>
    exact hok s own h ⟨.refl d s own, hno, fun _ _ _ => rfl,
      fun v hv hv' => absurd hv' (by omega), id, fun _ _ => rfl⟩
  | succ k ih =>
    unfold allocFrom
    rw [wp_bind]
    have hu := hk u le_rfl (by omega)
    have hu19 : u < 2 ^ 19 := by
      simp only [KERNBASE, PGSIZE] at *
      omega
    refine wp_kalloc h (fun s1 hmem ho hempty => ?_) fun s1 p hmem hfree ho hfails => ?_
    · -- out of memory: the pages added so far are taken back
      dsimp only
      rw [wp_bind]
      refine wp_deallocuvm ho hd hnew fun s2 own2 ho2 hsh => hfail s2 own2 ho2 ?_ fun hnil =>
        ⟨s1, own, 0, ho, .of_mem hmem, hempty hnil, fun q hq => absurd hq (hno q), fun _ _ => .inl⟩
      refine .of_grow (.of_mem hmem) hno hno (fun v _ _ => mapped_of_mem hmem d v)
        (fun q v hq hq' => ?_) (.of_shrunk hsh)
      exact absurd (hq.symm.trans hq') (by simp)
    · have ht := taken_of_kalloc h hd hmem hfree ho Buffer.zero
      set s2 := s1.setPage p Buffer.zero with hs2
      set own2 := update own p .held with hown2
      have hd2 : own2 d = .dir := ht.grow.dir hd
      have hp2 : own2 p = .held := update_self ..
      dsimp only
      rw [wp_bind, wp_zeroPage, ← hs2, wp_bind]
      refine wp_mapUser ht.owned hd2 hp2 hu19
        (by rw [ht.mapped u (by omega)]; exact hnot u le_rfl (by omega)) (by decide)
        (fun s3 own3 ho3 hw hempty => ?_) fun s3 own3 ho3 hg hm hheld hself hfails3 hdirs => ?_
      · have hd3 : own3 d = .dir := hw.dir hd2
        simp only [Bool.false_eq_true, if_false]
        rw [wp_bind]
        refine wp_deallocuvm ho3 hd3 hnew fun s4 own4 ho4 hsh => ?_
        have hp3 : own3 p = .held := (hw.held p).mpr hp2
        have hp4 : own4 p = .held := by rw [hsh.kept p (by simp [hp3]), hp3]
        rw [wp_bind]
        exact wp_kfree ho4 hp4 fun s5 hmem5 ho5 =>
          hfail s5 _ ho5 (.of_walked hd hno ht hw ho3 hsh ho4 hmem5) fun hnil =>
            .of_walked hd hno ht hw ho3 (hempty (hfails hnil))
      · have hg' : Grow d s s3 own own3 := ht.grow.trans hg
        have hno3 : NoHeld own3 := by
          intro q hq
          obtain ⟨hq2, hqp⟩ := (hheld q).mp hq
          rw [update_of_ne hqp] at hq2
          exact hno q hq2
        have hd3 : own3 d = .dir := hg.dir hd2
        have hm' : ∀ v < 2 ^ 20, s3.mapped d v =
            if v = u then some (p * PGSIZE ||| 7) else s.mapped d v := by
          intro v hv
          rw [hm v hv, ht.mapped v hv, Nat.or_assoc, show PTE_W ||| PTE_U ||| PTE_P = 7 from rfl]
        have huser : own3 p = .user d u := by
          have hmu := hm' u (by omega)
          rw [if_pos rfl] at hmu
          have hrole := (ho3.user_of_mapped hd3 hu19 hmu).2
          rwa [entry_div p (by decide)] at hrole
        have hnext : u * PGSIZE + PGSIZE = (u + 1) * PGSIZE := by ring
        simp only [if_true]
        rw [hnext]
        have hold' : oldsz ≤ (u + 1) * PGSIZE := by
          rw [← hnext]
          exact hold.trans (Nat.le_add_right _ _)
        -- the only new user page is `u`
        have hnewUser : ∀ q v, own3 q = .user d v → own q = .user d v ∨ v = u := by
          intro q v hq
          obtain ⟨hv, w, hmw, rfl⟩ := ho3.mapped_of_user hq
          rw [hm' v (by omega)] at hmw
          split_ifs at hmw with hvu
          · exact .inr hvu
          · exact .inl (h.user_of_mapped hd hv hmw).2
        refine ih (u := u + 1) ho3 hd3 hno3 hold'
          (fun v hv hv' => hk v (by omega) (by omega)) (fun v hv hv' => ?_)
          (fun s4 own4 ho4 hundo hexh => hfail s4 own4 ho4 ?_ fun hnil => ?_)
          fun s4 own4 ho4 hadd => hok s4 own4 ho4 ?_
        · have hv20 : v < 2 ^ 20 := by
            have := hk v (by omega) (by omega)
            simp only [KERNBASE, PGSIZE] at *
            omega
          rw [hm' v hv20, if_neg (by omega)]
          exact hnot v (by omega) (by omega)
        · refine .of_grow hg' hno hno3 (fun v hv hR => ?_) (fun q v hq hq' => ?_) hundo
          · rw [hm' v hv, if_neg]
            rintro rfl
            exact hR ⟨hold, hu⟩
          · rcases hnewUser q v hq' with e | rfl
            · exact absurd (hq.symm.trans e) (by simp)
            · exact ⟨hold, hu⟩
        · refine .of_grow hg' (fun q v hq => ?_) ((hexh (hfails3 (hfails hnil))).mono fun v hv => ?_)
          · exact (hnewUser q v hq).imp_right (by omega)
          · omega
        · refine ⟨hg'.trans hadd.toGrow, hadd.noHeld, fun v hv hout => ?_, fun v hv hv' => ?_,
            fun hnil => hadd.fails (hfails3 (hfails hnil)), fun i hi => ?_⟩
          · rw [hadd.mapped v hv (by omega), hm' v hv, if_neg (by omega)]
          · by_cases hvu : v = u
            · subst hvu
              refine ⟨p, ?_, ?_, hfree⟩
              · rw [hadd.mapped v (by omega) (by omega), hm' v (by omega), if_pos rfl]
              · rw [hadd.mem p (by simp [huser]) (by simp [huser]) ?_ (by simp [huser]), hself,
                  ht.self]
                rintro rfl
                exact absurd (hd.symm.trans hfree) (by simp)
            · obtain ⟨f, hf, hzero, hff⟩ := hadd.fresh v (by omega) (by omega)
              refine ⟨f, hf, hzero, ?_⟩
              rcases hg'.new f with e | ⟨e | e, -⟩
              · rw [← e, hff]
              · exact e
              · exact absurd e (hno f)
          · have hdp : d ≠ p := by
              rintro rfl
              exact absurd (hd.symm.trans hfree) (by simp)
            have hds : s2.word d i = s.word d i := by
              rw [hs2, word_setPage_ne hdp]
              exact word_of_mem (by rw [hmem])
            rw [hadd.dirs i hi, hdirs i (by omega), hds]

include h hd in
theorem wp_allocuvm {oldsz newsz : ℕ} {Q : ℕ → Kmem → Prop} (hno : NoHeld own)
    (hnot : ∀ v < 2 ^ 19, oldsz ≤ v * PGSIZE → s.mapped d v = none)
    (hlarge : KERNBASE ≤ newsz → Q 0 s) (hsmall : newsz < KERNBASE → newsz < oldsz → Q oldsz s)
    (hfail : ∀ s' own', newsz < KERNBASE → oldsz ≤ newsz → Owned L s' own' →
      Undone d (fun v => oldsz ≤ v * PGSIZE ∧ v * PGSIZE < newsz) s s' own own' →
      (s.fails = [] → Exhausted L d (fun v => oldsz ≤ v * PGSIZE ∧ v * PGSIZE < newsz) s own) →
      Q 0 s') (hok : ∀ s' own', newsz < KERNBASE → oldsz ≤ newsz → Owned L s' own' →
      Added d ((oldsz + PGSIZE - 1) / PGSIZE) ((newsz + PGSIZE - 1) / PGSIZE) s s' own own' →
      Q newsz s') : wp (allocuvm L d oldsz newsz) Q E s := by
  unfold allocuvm
  by_cases hge : newsz ≥ KERNBASE
  · rw [if_pos hge]
    exact hlarge hge
  · rw [if_neg hge]
    by_cases hlt : newsz < oldsz
    · rw [if_pos hlt]
      exact hsmall (not_le.mp hge) hlt
    · rw [if_neg hlt]
      have hup : PGROUNDUP oldsz = (oldsz + PGSIZE - 1) / PGSIZE * PGSIZE := by
        simp only [PGROUNDUP, PGSIZE, KERNBASE] at *
        omega
      dsimp only
      rw [hup]
      set u := (oldsz + PGSIZE - 1) / PGSIZE with hu
      have hend : u + (newsz - u * PGSIZE + PGSIZE - 1) / PGSIZE = (newsz + PGSIZE - 1) / PGSIZE := by
        simp only [PGSIZE] at *
        omega
      have hk : ∀ v, u ≤ v → v < (newsz + PGSIZE - 1) / PGSIZE →
          oldsz ≤ v * PGSIZE ∧ v * PGSIZE < newsz := by
        intro v hv hv'
        simp only [PGSIZE] at *
        omega
      refine wp_allocFrom (u := u) h hd hno (not_le.mp hge).le ?_ (fun v hv hv' => ?_) (fun v hv hv' => ?_)
        (fun s' own' ho hu hexh => hfail s' own' (not_le.mp hge) (not_lt.mp hlt) ho hu fun hnil => ?_)
        fun s' own' ho hadd => hok s' own' (not_le.mp hge) (not_lt.mp hlt) ho ?_
      · simp only [PGSIZE] at *
        omega
      · rw [hend] at hv'
        exact (hk v hv hv').2
      · rw [hend] at hv'
        have hkv := hk v hv hv'
        refine hnot v ?_ hkv.1
        simp only [PGSIZE, KERNBASE] at *
        omega
      · rw [hend] at hexh
        exact (hexh hnil).mono fun v hv => hk v hv.1 hv.2
      · rwa [hend] at hadd

end Rules

end Xv6
