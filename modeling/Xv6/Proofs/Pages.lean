import Xv6.Spec.Paging

/-! Page ownership, one step at a time: what each write to a page table and each step of the
allocator does to the roles of the pages. -/

open Function

namespace Xv6

/-! Page table entries. -/

theorem PDX_page {v : ℕ} (hv : v < 2 ^ 20) : PDX (v * PGSIZE) = v / 1024 := by
  simp only [PDX, PGSIZE]
  omega

theorem PTX_page (v : ℕ) : PTX (v * PGSIZE) = v % 1024 := by
  simp only [PTX, PGSIZE]
  omega

theorem present_iff {w : ℕ} : present w ↔ w % 2 = 1 := by
  unfold present PTE_P
  rw [Nat.and_one_is_mod]
  omega

theorem not_present_zero : ¬present 0 := by decide

variable {fl : ℕ}

theorem entry_eq (p : ℕ) (h : fl < PGSIZE) : p * PGSIZE ||| fl = p * PGSIZE + fl := by
  have := Nat.two_pow_add_eq_or_of_lt (i := 12) h p
  rw [Nat.mul_comm p, show PGSIZE = 2 ^ 12 from rfl]
  exact this.symm

theorem entry_div (p : ℕ) (h : fl < PGSIZE) : (p * PGSIZE ||| fl) / PGSIZE = p := by
  rw [entry_eq p h]
  simp only [PGSIZE] at *
  omega

theorem entry_mod (p : ℕ) (h : fl < PGSIZE) : (p * PGSIZE ||| fl) % PGSIZE = fl := by
  rw [entry_eq p h]
  simp only [PGSIZE] at *
  omega

theorem flags_lt (h : fl < PGSIZE) : fl ||| PTE_P < PGSIZE :=
  Nat.or_lt_two_pow (n := 12) h (by decide)

theorem present_or (x : ℕ) : present (x ||| PTE_P) := by
  unfold present
  rw [Nat.and_or_distrib_right]
  intro h
  exact absurd (Nat.or_eq_zero_iff.mp h).2 (by decide)

namespace Kmem

variable {s : Kmem} {p q i j w : ℕ} {b : Page}

theorem word_lt : s.word p i < 2 ^ 32 := Buffer.word_lt 4 _ _

theorem word_setWord (hi : i < 1024) (hw : w < 2 ^ 32) :
    (s.setWord p i w).word q j = if q = p ∧ j = i then w else s.word q j := by
  unfold word setWord
  by_cases hq : q = p
  · subst hq
    simp only [update_self, true_and]
    by_cases hj : j = i
    · subst hj
      rw [if_pos rfl, Buffer.word_setWord_self _ _ _ _ (by simp only [PGSIZE]; omega)]
      exact Nat.mod_eq_of_lt hw
    · rw [if_neg hj, Buffer.word_setWord_of_disjoint _ _ _ _ _ _ (by omega)]
  · rw [if_neg (fun h => hq h.1)]
    simp only [update_of_ne hq]

theorem word_setWord_ne (h : q ≠ p) : (s.setWord p i w).word q j = s.word q j := by
  unfold word setWord
  simp only [update_of_ne h]

theorem word_setPage_ne (h : q ≠ p) : (s.setPage p b).word q j = s.word q j := by
  unfold word setPage
  simp only [update_of_ne h]

theorem word_of_mem {s' : Kmem} (h : s'.mem p = s.mem p) : s'.word p i = s.word p i := by
  unfold word
  rw [h]

theorem word_zero (h : s.mem p = Buffer.zero) : s.word p i = 0 := by
  unfold word
  rw [h, Buffer.word_zero]

end Kmem

namespace Owned

open Kmem

variable {L : Layout} {s s' : Kmem} {own : ℕ → Role} {p q d t f i j v w : ℕ}

section

variable (h : Owned L s own)
include h

theorem managed (hp : own p ≠ .outside) : Managed L p := by
  by_contra hm
  exact hp ((h.outside p).mpr hm)

theorem lt (hp : own p ≠ .outside) : p < 2 ^ 20 :=
  (h.managed hp).2.trans (by decide)

theorem ne_zero (hp : own p ≠ .outside) : p ≠ 0 := by
  have hpos : 0 < L.data := Nat.zero_lt_of_lt L.data_gt
  exact (hpos.trans_le (L.data_le.trans (h.managed hp).1)).ne'

theorem congr (hfree : s'.freelist = s.freelist)
    (hmem : ∀ p, own p = .dir ∨ own p = .dying ∨ (∃ d i, own p = .table d i) →
      s'.mem p = s.mem p) : Owned L s' own where
  outside := h.outside
  free := by
    rw [hfree]
    exact h.free
  nodup := by
    rw [hfree]
    exact h.nodup
  pde d i hd := by
    rw [word_of_mem (hmem d (.inl hd))]
    exact h.pde d i hd
  table t d i ht := by
    obtain ⟨hi, hd, hrest⟩ := h.table t d i ht
    rw [word_of_mem (hmem d (by tauto))]
    exact ⟨hi, hd, hrest⟩
  pte t d i j ht := by
    rw [word_of_mem (hmem t (.inr (.inr ⟨d, i, ht⟩)))]
    exact h.pte t d i j ht
  user f d v hf := by
    obtain ⟨hv, t, ht, hrest⟩ := h.user f d v hf
    refine ⟨hv, t, ht, ?_⟩
    rw [word_of_mem (hmem t (.inr (.inr ⟨d, _, ht⟩)))]
    exact hrest

theorem reassign {r : Role} (hp : own p ≠ .outside) (hr : r ≠ .outside) (hfree : own p ≠ .free)
    (hfree' : r ≠ .free) (hold : match own p with
      | .held | .kstack _ | .pipe _ => True
      | .dir => r = .dying
      | .dying => ∀ t i, own t ≠ .table p i
      | .table d _ => own d = .dying ∧ ∀ f v, own f ≠ .user d v
      | _ => False) (hnew : match r with
      | .held | .dying | .kstack _ | .pipe _ => True
      | .dir => ∀ i < 1024, ¬present (s.word p i)
      | _ => False) : Owned L s (update own p r) := by
  have hne : ∀ {q}, q ≠ p → update own p r q = own q := fun hq =>
    update_of_ne hq ..
  have hself : update own p r p = r := update_self ..
  have hnt : ∀ d i, r ≠ .table d i := by
    rintro d i rfl
    exact hnew
  have hnu : ∀ d v, r ≠ .user d v := by
    rintro d v rfl
    exact hnew
  refine ⟨fun q => ?_, fun q => ?_, h.nodup, fun d i hd hi hpr => ?_, fun t d i ht => ?_,
    fun t d i j ht hi hj hpr => ?_, fun f d v hf => ?_⟩
  · by_cases hq : q = p
    · subst hq
      rw [hself]
      exact ⟨fun e => absurd e hr, fun e => absurd ((h.outside q).mpr e) hp⟩
    · rw [hne hq]
      exact h.outside q
  · by_cases hq : q = p
    · subst hq
      rw [hself]
      exact ⟨fun e => absurd ((h.free q).mp e) hfree, fun e => absurd e hfree'⟩
    · rw [hne hq]
      exact h.free q
  · by_cases hdp : d = p
    · subst hdp
      rw [hself] at hd
      subst hd
      exact absurd hpr (hnew i hi)
    · rw [hne hdp] at hd
      have ht := h.pde d i hd hi hpr
      rw [hne]
      · exact ht
      · rintro e
        rw [e] at ht
        rw [ht] at hold
        exact absurd (hd.symm.trans hold.1) (by simp)
  · by_cases htp : t = p
    · subst htp
      rw [hself] at ht
      exact absurd ht (hnt d i)
    · rw [hne htp] at ht
      obtain ⟨hi, hd, hrest⟩ := h.table t d i ht
      refine ⟨hi, ?_, hrest⟩
      by_cases hdp : d = p
      · subst hdp
        rw [hself]
        rcases hd with hd | hd
        · rw [hd] at hold
          exact .inr hold
        · rw [hd] at hold
          exact absurd ht (hold t i)
      · rw [hne hdp]
        exact hd
  · by_cases htp : t = p
    · subst htp
      rw [hself] at ht
      exact absurd ht (hnt d i)
    · rw [hne htp] at ht
      have hu := h.pte t d i j ht hi hj hpr
      rw [hne]
      · exact hu
      · intro e
        rw [e] at hu
        rw [hu] at hold
        exact hold
  · by_cases hfp : f = p
    · subst hfp
      rw [hself] at hf
      exact absurd hf (hnu d v)
    · rw [hne hfp] at hf
      obtain ⟨hv, t, ht, hrest⟩ := h.user f d v hf
      refine ⟨hv, t, ?_, hrest⟩
      rw [hne]
      · exact ht
      · rintro rfl
        rw [ht] at hold
        exact hold.2 f v hf

theorem swap {r : Role} (hp : own p = .free ∨ own p = .held) (hr : r = .free ∨ r = .held)
    (hmem : ∀ q ≠ p, s'.mem q = s.mem q) (hfree : ∀ q, q ∈ s'.freelist ↔ update own p r q = .free)
    (hnodup : s'.freelist.Nodup) : Owned L s' (update own p r) := by
  have hrole : ∀ {q x}, x ≠ .free → x ≠ .held → (update own p r q = x ↔ own q = x) := by
    intro q x hx hx'
    by_cases hq : q = p
    · subst hq
      rw [update_self]
      constructor <;> rintro rfl
      · exact absurd hr (by simp [hx, hx'])
      · exact absurd hp (by simp [hx, hx'])
    · rw [update_of_ne hq]
  have hword : ∀ {q x}, own q = x → x ≠ .free → x ≠ .held → ∀ i, s'.word q i = s.word q i := by
    intro q x hq hx hx' i
    refine word_of_mem (hmem q ?_)
    rintro rfl
    exact absurd hp (by simp [hq, hx, hx'])
  refine ⟨fun q => ?_, hfree, hnodup, fun d i hd hi hpr => ?_, fun t d i ht => ?_,
    fun t d i j ht hi hj hpr => ?_, fun f d v hf => ?_⟩
  · rw [hrole (by simp) (by simp)]
    exact h.outside q
  · rw [hrole (by simp) (by simp)] at hd ⊢
    rw [hword hd (by simp) (by simp)] at hpr ⊢
    exact h.pde d i hd hi hpr
  · rw [hrole (by simp) (by simp)] at ht
    obtain ⟨hi, hd, hrest⟩ := h.table t d i ht
    have hsame : s'.word d i = s.word d i := by
      rcases hd with hd | hd
      · exact hword hd (by simp) (by simp) i
      · exact hword hd (by simp) (by simp) i
    rw [hsame, hrole (by simp) (by simp), hrole (by simp) (by simp)]
    exact ⟨hi, hd, hrest⟩
  · rw [hrole (by simp) (by simp)] at ht
    rw [hword ht (by simp) (by simp)] at hpr ⊢
    rw [hrole (by simp) (by simp)]
    exact h.pte t d i j ht hi hj hpr
  · rw [hrole (by simp) (by simp)] at hf
    obtain ⟨hv, t, ht, hrest⟩ := h.user f d v hf
    refine ⟨hv, t, (hrole (by simp) (by simp)).mpr ht, ?_⟩
    rwa [hword ht (by simp) (by simp)]

theorem take {next : List ℕ} (hs : s.freelist = p :: next) (hs' : s'.freelist = next)
    (hmem : s'.mem = s.mem) : own p = .free ∧ Owned L s' (update own p .held) := by
  have hp : own p = .free := (h.free p).mp (by rw [hs]; exact List.mem_cons_self)
  have hnd := h.nodup
  rw [hs, List.nodup_cons] at hnd
  refine ⟨hp, h.swap (.inl hp) (.inr rfl) (fun q _ => by rw [hmem]) (fun q => ?_) (hs' ▸ hnd.2)⟩
  rw [hs']
  by_cases hq : q = p
  · subst hq
    simp [hnd.1]
  · rw [update_of_ne hq, ← h.free q, hs, List.mem_cons]
    exact ⟨.inr, fun e => e.resolve_left hq⟩

theorem give (hp : own p = .held) :
    Owned L { s.setPage p junk with freelist := p :: s.freelist } (update own p .free) := by
  refine h.swap (.inr hp) (.inl rfl) (fun q hq => update_of_ne hq _ _) (fun q => ?_)
    (List.nodup_cons.mpr ⟨fun hm => ?_, h.nodup⟩)
  · by_cases hq : q = p
    · subst hq
      simp
    · rw [update_of_ne hq, ← h.free q]
      simp [hq]
  · exact absurd (hp.symm.trans ((h.free p).mp hm)) (by simp)

theorem table_inj (ht : own t = .table d i) {t' : ℕ} (ht' : own t' = .table d i) : t' = t := by
  rw [← (h.table t d i ht).2.2.2, ← (h.table t' d i ht').2.2.2]

variable (ht : own t = .table d i) (hi : i < 512) (hj : j < 1024)

include ht hi hj in
/-- Writing an entry of a page table of user memory: the page the entry leads to afterwards, and no
other, gets the role of the user page, and other user pages keep theirs. -/
theorem setPte (hw : w < 2 ^ 32)
    {own' : ℕ → Role} (hsame : ∀ q r, (∀ d v, r ≠ .user d v) → r ≠ .held → (own' q = r ↔ own q = r))
    (huser : ∀ q d' v, ¬(d' = d ∧ v = i * 1024 + j) →
      (own' q = .user d' v ↔ own q = .user d' v))
    (hthis : ∀ q, own' q = .user d (i * 1024 + j) ↔ present w ∧ w / PGSIZE = q) :
    Owned L (s.setWord t j w) own' := by
  have hword : ∀ q k, ¬(q = t ∧ k = j) → (s.setWord t j w).word q k = s.word q k := fun q k hq => by
    rw [word_setWord hj hw, if_neg hq]
  have hself : (s.setWord t j w).word t j = w := by
    rw [word_setWord hj hw, if_pos ⟨rfl, rfl⟩]
  have hne : ∀ {q r}, own q = r → (∀ d i, r ≠ .table d i) → ∀ k, ¬(q = t ∧ k = j) := by
    rintro q r hq hr k ⟨rfl, -⟩
    exact hr d i (hq.symm.trans ht)
  refine ⟨fun q => ?_, fun q => ?_, h.nodup, fun d' k hd hk hpr => ?_, fun t' d' k ht' => ?_,
    fun t' d' k l ht' hk hl hpr => ?_, fun f d' v hf => ?_⟩
  · rw [hsame q _ (by simp) (by simp)]
    exact h.outside q
  · rw [hsame q _ (by simp) (by simp)]
    exact h.free q
  · rw [hsame d' _ (by simp) (by simp)] at hd
    rw [hword d' k (hne hd (by simp) k)] at hpr ⊢
    rw [hsame _ _ (by simp) (by simp)]
    exact h.pde d' k hd hk hpr
  · rw [hsame t' _ (by simp) (by simp)] at ht'
    obtain ⟨hk, hd, hrest⟩ := h.table t' d' k ht'
    have hdt : ¬(d' = t ∧ k = j) := by
      rcases hd with hd | hd
      · exact hne hd (by simp) k
      · exact hne hd (by simp) k
    rw [hword d' k hdt, hsame d' _ (by simp) (by simp), hsame d' _ (by simp) (by simp)]
    exact ⟨hk, hd, hrest⟩
  · rw [hsame t' _ (by simp) (by simp)] at ht'
    by_cases hthere : t' = t ∧ l = j
    · obtain ⟨rfl, rfl⟩ := hthere
      obtain ⟨rfl, rfl⟩ : d' = d ∧ k = i := by simpa using ht'.symm.trans ht
      rw [hself] at hpr ⊢
      exact (hthis _).mpr ⟨hpr, rfl⟩
    · rw [hword t' l hthere] at hpr ⊢
      refine (huser _ d' _ fun ⟨hd, hv⟩ => hthere ?_).mpr (h.pte t' d' k l ht' hk hl hpr)
      obtain ⟨hki, hlj⟩ : k = i ∧ l = j := by omega
      rw [hd, hki] at ht'
      exact ⟨h.table_inj ht ht', hlj⟩
  · by_cases hthere : d' = d ∧ v = i * 1024 + j
    · obtain ⟨rfl, rfl⟩ := hthere
      obtain ⟨hpr, hdiv⟩ := (hthis f).mp hf
      refine ⟨by omega, t, ?_, ?_⟩
      · rw [hsame t _ (by simp) (by simp), ht, show (i * 1024 + j) / 1024 = i by omega]
      · rw [show (i * 1024 + j) % 1024 = j by omega, hself]
        exact ⟨hpr, hdiv⟩
    · rw [huser f d' v hthere] at hf
      obtain ⟨hv, t', ht', hrest⟩ := h.user f d' v hf
      refine ⟨hv, t', (hsame t' _ (by simp) (by simp)).mpr ht', ?_⟩
      have hnot : ¬(t' = t ∧ v % 1024 = j) := by
        rintro ⟨rfl, rfl⟩
        obtain ⟨rfl, rfl⟩ : d = d' ∧ i = v / 1024 := by simpa using ht.symm.trans ht'
        exact hthere ⟨rfl, by omega⟩
      rwa [hword t' _ hnot]

theorem map (hf : own f = .held) (ht : own t = .table d i) (hi : i < 512) (hj : j < 1024)
    (hnot : ¬present (s.word t j)) (hw : w < 2 ^ 32) (hpr : present w) (hdiv : w / PGSIZE = f) :
    Owned L (s.setWord t j w) (update own f (.user d (i * 1024 + j))) := by
  have hnone : ∀ q, own q ≠ .user d (i * 1024 + j) := by
    intro q hq
    obtain ⟨-, t', ht', hp, -⟩ := h.user q d _ hq
    rw [show (i * 1024 + j) / 1024 = i by omega] at ht'
    rw [h.table_inj ht ht', show (i * 1024 + j) % 1024 = j by omega] at hp
    exact hnot hp
  refine h.setPte ht hi hj hw (fun q r hr hr' => ?_) (fun q d' v hne => ?_) fun q => ?_
  all_goals by_cases hq : q = f
  · subst hq
    rw [update_self, hf]
    exact ⟨fun e => absurd e.symm (hr _ _), fun e => absurd e.symm hr'⟩
  · rw [update_of_ne hq]
  · subst hq
    rw [update_self, hf]
    refine ⟨fun e => absurd ?_ hne, fun e => absurd e (by simp)⟩
    simpa [eq_comm] using e
  · rw [update_of_ne hq]
  · subst hq
    rw [update_self]
    exact ⟨fun _ => ⟨hpr, hdiv⟩, fun _ => rfl⟩
  · rw [update_of_ne hq]
    exact ⟨fun e => absurd e (hnone q), fun e => absurd (hdiv.symm.trans e.2).symm hq⟩

include ht hi hj in
theorem clear (hpr : present (s.word t j)) :
    Owned L (s.setWord t j 0) (update own (s.word t j / PGSIZE) .held) := by
  set f := s.word t j / PGSIZE with hfdef
  have hf : own f = .user d (i * 1024 + j) := h.pte t d i j ht hi hj hpr
  have honly : ∀ q, own q = .user d (i * 1024 + j) → q = f := by
    intro q hq
    obtain ⟨-, t', ht', -, hdiv⟩ := h.user q d _ hq
    rw [show (i * 1024 + j) / 1024 = i by omega] at ht'
    rw [h.table_inj ht ht', show (i * 1024 + j) % 1024 = j by omega] at hdiv
    exact hdiv.symm
  refine h.setPte ht hi hj (by omega) (fun q r hr hr' => ?_) (fun q d' v hne => ?_) fun q => ?_
  all_goals by_cases hq : q = f
  · subst hq
    rw [update_self, hf]
    exact ⟨fun e => absurd e.symm hr', fun e => absurd e.symm (hr _ _)⟩
  · rw [update_of_ne hq]
  · subst hq
    rw [update_self, hf]
    refine ⟨fun e => absurd e (by simp), fun e => absurd ?_ hne⟩
    simpa [eq_comm] using e
  · rw [update_of_ne hq]
  · subst hq
    rw [update_self]
    exact ⟨fun e => absurd e (by simp), fun e => absurd e.1 not_present_zero⟩
  · rw [update_of_ne hq]
    exact ⟨fun e => absurd (honly q e) hq, fun e => absurd e.1 not_present_zero⟩

include ht hi hj in
theorem reflag (hpr : present (s.word t j))
    (hw : w < 2 ^ 32) (hpr' : present w) (hdiv : w / PGSIZE = s.word t j / PGSIZE) :
    Owned L (s.setWord t j w) own := by
  refine h.setPte ht hi hj hw (fun q r _ _ => Iff.rfl) (fun q d' v _ => Iff.rfl) fun q => ?_
  constructor
  · intro hq
    obtain ⟨-, t', ht', -, hdiv'⟩ := h.user q d _ hq
    rw [show (i * 1024 + j) / 1024 = i by omega] at ht'
    rw [h.table_inj ht ht', show (i * 1024 + j) % 1024 = j by omega] at hdiv'
    exact ⟨hpr', hdiv.trans hdiv'⟩
  · rintro ⟨-, rfl⟩
    rw [hdiv]
    exact h.pte t d i j ht hi hj hpr

theorem setKernelPte (ht : own t = .table d i) (hi : 512 ≤ i) (hj : j < 1024) (hw : w < 2 ^ 32) :
    Owned L (s.setWord t j w) own := by
  have hword : ∀ q k, ¬(q = t ∧ k = j) → (s.setWord t j w).word q k = s.word q k := fun q k hq => by
    rw [word_setWord hj hw, if_neg hq]
  have hne : ∀ {q r}, own q = r → r ≠ .table d i → ∀ k, ¬(q = t ∧ k = j) := by
    rintro q r hq hr k ⟨rfl, -⟩
    exact hr (hq.symm.trans ht)
  refine ⟨h.outside, h.free, h.nodup, fun d' k hd hk => ?_, fun t' d' k ht' => ?_,
    fun t' d' k l ht' hk hl => ?_, fun f d' v hf => ?_⟩
  · rw [hword d' k (hne hd (by simp) k)]
    exact h.pde d' k hd hk
  · obtain ⟨hk, hd, hrest⟩ := h.table t' d' k ht'
    have hdt : ¬(d' = t ∧ k = j) := by
      rcases hd with hd | hd
      · exact hne hd (by simp) k
      · exact hne hd (by simp) k
    rw [hword d' k hdt]
    exact ⟨hk, hd, hrest⟩
  · rw [hword t' l (hne ht' (by simp only [ne_eq, Role.table.injEq]; omega) l)]
    exact h.pte t' d' k l ht' hk hl
  · obtain ⟨hv, t', ht', hrest⟩ := h.user f d' v hf
    refine ⟨hv, t', ht', ?_⟩
    rwa [hword t' _ (hne ht' (by simp only [ne_eq, Role.table.injEq]; omega) _)]

theorem link (hp : own p = .held) (hd : own d = .dir) (hi : i < 1024)
    (hzero : ∀ j, ¬present (s.word p j)) (hnot : ¬present (s.word d i)) (hw : w < 2 ^ 32)
    (hpr : present w) (hdiv : w / PGSIZE = p) :
    Owned L (s.setWord d i w) (update own p (.table d i)) := by
  have hword : ∀ q k, ¬(q = d ∧ k = i) → (s.setWord d i w).word q k = s.word q k := fun q k hq => by
    rw [word_setWord hi hw, if_neg hq]
  have hself : (s.setWord d i w).word d i = w := by
    rw [word_setWord hi hw, if_pos ⟨rfl, rfl⟩]
  have hne : ∀ {q r}, own q = r → r ≠ .held → update own p (.table d i) q = r := by
    rintro q r hq hr
    rw [update_of_ne, hq]
    rintro rfl
    exact hr (hq.symm.trans hp)
  have hback : ∀ {q r}, update own p (.table d i) q = r → r ≠ .table d i → own q = r := by
    rintro q r hq hr
    rwa [update_of_ne] at hq
    rintro rfl
    rw [update_self] at hq
    exact hr hq.symm
  have hpd : p ≠ d := by
    rintro rfl
    exact absurd (hp.symm.trans hd) (by simp)
  have hnone : ∀ q, own q ≠ .table d i := fun q hq => hnot (h.table q d i hq).2.2.1
  refine ⟨fun q => ⟨fun hq => ?_, fun hq => ?_⟩, fun q => ⟨fun hq => ?_, fun hq => ?_⟩, h.nodup,
    fun d' k hd' hk hpr' => ?_, fun t d' k ht => ?_, fun t d' k l ht hk hl hpr' => ?_,
    fun f d' v hf => ?_⟩
  · exact (h.outside q).mp (hback hq (by simp))
  · exact hne ((h.outside q).mpr hq) (by simp)
  · exact hne ((h.free q).mp hq) (by simp)
  · exact (h.free q).mpr (hback hq (by simp))
  · have hd' := hback hd' (by simp)
    by_cases hthere : d' = d ∧ k = i
    · obtain ⟨rfl, rfl⟩ := hthere
      rw [hself, hdiv, update_self]
    · rw [hword d' k hthere] at hpr' ⊢
      exact hne (h.pde d' k hd' hk hpr') (by simp)
  · by_cases htp : t = p
    · subst htp
      rw [update_self] at ht
      obtain ⟨rfl, rfl⟩ : d = d' ∧ i = k := by simpa using ht
      rw [hself]
      exact ⟨hi, .inl (hne hd (by simp)), hpr, hdiv⟩
    · rw [update_of_ne htp] at ht
      obtain ⟨hk, hd', hrest⟩ := h.table t d' k ht
      rw [hword d' k (by rintro ⟨rfl, rfl⟩; exact hnone t ht)]
      refine ⟨hk, ?_, hrest⟩
      rcases hd' with hd' | hd'
      · exact .inl (hne hd' (by simp))
      · exact .inr (hne hd' (by simp))
  · by_cases htp : t = p
    · subst htp
      rw [hword t l (fun e => hpd e.1)] at hpr'
      exact absurd hpr' (hzero l)
    · rw [update_of_ne htp] at ht
      have htd : ¬(t = d ∧ l = i) := by
        rintro ⟨rfl, -⟩
        exact absurd (ht.symm.trans hd) (by simp)
      rw [hword t l htd] at hpr' ⊢
      exact hne (h.pte t d' k l ht hk hl hpr') (by simp)
  · have hf := hback hf (by simp)
    obtain ⟨hv, t, ht, hrest⟩ := h.user f d' v hf
    refine ⟨hv, t, hne ht (by simp), ?_⟩
    rwa [hword t _ (by rintro ⟨rfl, -⟩; exact absurd (ht.symm.trans hd) (by simp))]

end

end Owned

end Xv6
