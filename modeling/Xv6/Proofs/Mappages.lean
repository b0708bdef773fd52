import Xv6.Proofs.Growproc
import Xv6.Proofs.Vm

/-! `mappages` for any range of virtual pages, of the user or of the kernel. -/

namespace Xv6

open Kmem Exec

variable {L : Layout} {s s' : Kmem} {own : ℕ → Role} {d t u i : ℕ} {E : KmemStop → Kmem → Prop}

structure Tables (s : Kmem) (d : ℕ) : Prop where
  inj : ∀ i < 1024, ∀ j < 1024, present (s.word d i) → present (s.word d j) →
    s.word d i / PGSIZE = s.word d j / PGSIZE → i = j
  ne : ∀ i < 1024, present (s.word d i) → s.word d i / PGSIZE ≠ d
  free : ∀ p ∈ s.freelist, p ≠ d ∧ p < 2 ^ 20 ∧
    ∀ i < 1024, present (s.word d i) → s.word d i / PGSIZE ≠ p
  nodup : s.freelist.Nodup

theorem Owned.tables (h : Owned L s own) (hd : own d = .dir) : Tables s d where
  inj i hi j hj hpi hpj he := by
    have hrole := h.pde d i hd hi hpi
    rw [he, h.pde d j hd hj hpj] at hrole
    cases hrole
    rfl
  ne i hi hp he := by
    have hrole := h.pde d i hd hi hp
    rw [he, hd] at hrole
    cases hrole
  free p hp := by
    have hfree := (h.free p).mp hp
    refine ⟨?_, h.lt (by simp [hfree]), fun i hi hpr he => ?_⟩
    · rintro rfl
      rw [hd] at hfree
      cases hfree
    · have hrole := h.pde d i hd hi hpr
      rw [he, hfree] at hrole
      cases hrole
  nodup := h.nodup

theorem Tables.store (h : Tables s d) (hu : u < 2 ^ 20) (hpr : present (s.word d (u / 1024)))
    {w : ℕ} (hw : w < 2 ^ 32) (hpw : present w) :
    Tables (s.setWord (s.word d (u / 1024) / PGSIZE) (u % 1024) w) d ∧
      ∀ v < 2 ^ 20, (s.setWord (s.word d (u / 1024) / PGSIZE) (u % 1024) w).mapped d v =
        if v = u then some w else s.mapped d v := by
  have hi : u / 1024 < 1024 := by omega
  have hword : ∀ j, (s.setWord (s.word d (u / 1024) / PGSIZE) (u % 1024) w).word d j = s.word d j :=
    fun j => word_setWord_ne (h.ne _ hi hpr).symm
  refine ⟨⟨?_, ?_, ?_, h.nodup⟩, fun v hv => ?_⟩
  · simp only [hword]
    exact h.inj
  · simp only [hword]
    exact h.ne
  · simp only [hword]
    exact h.free
  · rw [mapped_eq, mapped_eq, hword, word_setWord (Nat.mod_lt _ (by decide)) hw]
    by_cases hvu : v = u
    · subst hvu
      simp [hpr, hpw]
    · rw [if_neg hvu]
      by_cases hpv : present (s.word d (v / 1024))
      · have hne : ¬(s.word d (v / 1024) / PGSIZE = s.word d (u / 1024) / PGSIZE ∧
            v % 1024 = u % 1024) := fun e => by
          have := h.inj _ (by omega) _ hi hpv hpr e.1
          omega
        rw [if_neg hne]
      · simp [hpv]

theorem Tables.link (h : Tables s d) {p : ℕ} {next : List ℕ} (fails : List Bool)
    (hfree : s.freelist = p :: next) (hi : i < 1024) (habs : ¬present (s.word d i)) :
    let s' := ({ s with freelist := next, fails := fails }.setPage p Buffer.zero).setWord d i
      (p * PGSIZE ||| PTE_P ||| PTE_W ||| PTE_U)
    Tables s' d ∧ s'.word d i / PGSIZE = p ∧ present (s'.word d i) ∧
      ∀ v < 2 ^ 20, s'.mapped d v = s.mapped d v := by
  intro s'
  obtain ⟨hpd, hplt, hptab⟩ := h.free p (by simp [hfree])
  have hnd : (p :: next).Nodup := hfree ▸ h.nodup
  have hpde : p * PGSIZE ||| PTE_P ||| PTE_W ||| PTE_U = p * PGSIZE ||| 7 := pde_eq p
  have hdir : ∀ j, s'.word d j = if j = i then p * PGSIZE ||| 7 else s.word d j := by
    intro j
    rw [word_setWord hi (by rw [hpde]; exact entry_lt hplt (by decide)), hpde,
      word_setPage_ne hpd.symm]
    simp only [true_and]
    rfl
  have hpage : s'.word d i / PGSIZE = p := by
    rw [hdir, if_pos rfl, entry_div p (by decide)]
  have hpres : present (s'.word d i) := by
    rw [hdir, if_pos rfl, present_iff, entry_eq p (by decide)]
    simp only [PGSIZE]
    omega
  have hother : ∀ q j, q ≠ d → q ≠ p → s'.word q j = s.word q j := by
    intro q j hqd hqp
    rw [word_setWord_ne hqd, word_setPage_ne hqp]
    rfl
  have htab : ∀ j < 1024, present (s'.word d j) → j ≠ i →
      s'.word d j / PGSIZE = s.word d j / PGSIZE ∧ present (s.word d j) := by
    intro j hj hpr hji
    rw [hdir, if_neg hji] at hpr ⊢
    exact ⟨rfl, hpr⟩
  refine ⟨⟨fun j hj k hk hpj hpk he => ?_, fun j hj hpr => ?_, fun q hq => ?_, ?_⟩, hpage, hpres,
    fun v hv => ?_⟩
  · by_cases hji : j = i <;> by_cases hki : k = i
    · rw [hji, hki]
    · rw [hji, hpage, (htab k hk hpk hki).1] at he
      exact absurd he.symm (hptab k hk (htab k hk hpk hki).2)
    · rw [hki, hpage, (htab j hj hpj hji).1] at he
      exact absurd he (hptab j hj (htab j hj hpj hji).2)
    · rw [(htab j hj hpj hji).1, (htab k hk hpk hki).1] at he
      exact h.inj j hj k hk (htab j hj hpj hji).2 (htab k hk hpk hki).2 he
  · by_cases hji : j = i
    · rw [hji, hpage]
      exact hpd
    · rw [(htab j hj hpr hji).1]
      exact h.ne j hj (htab j hj hpr hji).2
  · have hq' : q ∈ next := hq
    obtain ⟨hqd, hqlt, hqtab⟩ := h.free q (by simp [hfree, hq'])
    refine ⟨hqd, hqlt, fun j hj hpr => ?_⟩
    by_cases hji : j = i
    · rw [hji, hpage]
      rintro rfl
      exact (List.nodup_cons.mp hnd).1 hq'
    · rw [(htab j hj hpr hji).1]
      exact hqtab j hj (htab j hj hpr hji).2
  · exact (List.nodup_cons.mp hnd).2
  · rw [mapped_eq, mapped_eq]
    by_cases hvi : v / 1024 = i
    · have hzero : s'.word p (v % 1024) = 0 := by
        rw [word_setWord_ne hpd, word_zero]
        exact Function.update_self ..
      rw [hvi, hpage, hzero]
      simp [not_present_zero, habs]
    · rw [hdir, if_neg hvi]
      by_cases hpr : present (s.word d (v / 1024))
      · rw [hother _ _ (h.ne _ (by omega) hpr) (hptab _ (by omega) hpr)]
      · simp [hpr]

theorem wp_kalloc_any {Q : Option ℕ → Kmem → Prop} (hnone : ∀ s', Q none s')
    (hsome : ∀ p next, s.freelist = p :: next →
      Q (some p) { s with freelist := next, fails := s.fails.tail }) : wp kalloc Q E s := by
  unfold wp kalloc
  cases s.fails.headD false with
  | true => exact hnone _
  | false =>
    cases hs : s.freelist with
    | nil => exact hnone _
    | cons p next => exact hsome p next hs

theorem wp_mapPage {Q : Bool → Kmem → Prop} {k last perm pa : ℕ} (h : Tables s d) (hu : u < 2 ^ 20)
    (hpa : pa % PGSIZE = 0) (hpalt : pa < 2 ^ 32) (hperm : perm < PGSIZE)
    (hnot : s.mapped d u = none) (hfail : ∀ s', Q false s') (hok : ∀ s', Tables s' d →
      (∀ v < 2 ^ 20, s'.mapped d v = if v = u then some (pa ||| perm ||| PTE_P) else s.mapped d v) →
      wp (if u * PGSIZE = last then Pure.pure true else mapFrom d last perm k
        ((u * PGSIZE + PGSIZE) % 2 ^ 32) ((pa + PGSIZE) % 2 ^ 32)) Q E s') :
    wp (mapFrom d last perm (k + 1) (u * PGSIZE) pa) Q E s := by
  have hw : pa ||| perm ||| PTE_P < 2 ^ 32 := by
    rw [Nat.or_assoc, show pa = pa / PGSIZE * PGSIZE by simp only [PGSIZE] at *; omega]
    exact entry_lt (by simp only [PGSIZE]; omega) (flags_lt hperm)
  -- the rest of the round, with the page table there
  have hstore : ∀ s1, Tables s1 d → present (s1.word d (u / 1024)) →
      (∀ v < 2 ^ 20, s1.mapped d v = s.mapped d v) → wp (do
        let pte ← load (s1.word d (u / 1024) / PGSIZE) (u % 1024)
        if present pte then panic .remap
        else do
          store (s1.word d (u / 1024) / PGSIZE) (u % 1024) (pa ||| perm ||| PTE_P)
          if u * PGSIZE = last then return true
          else mapFrom d last perm k ((u * PGSIZE + PGSIZE) % 2 ^ 32) ((pa + PGSIZE) % 2 ^ 32))
        Q E s1 := by
    intro s1 h1 hpr hsame
    have habs : ¬present (s1.word (s1.word d (u / 1024) / PGSIZE) (u % 1024)) := by
      intro hpte
      have hm := (hsame u hu).trans hnot
      rw [mapped_eq, if_pos ⟨hpr, hpte⟩] at hm
      cases hm
    rw [wp_bind, wp_load, if_neg habs, wp_bind, wp_store]
    obtain ⟨h2, hmap⟩ := h1.store hu hpr hw (present_or _)
    exact hok _ h2 fun v hv => by rw [hmap v hv, hsame v hv]
  unfold mapFrom
  rw [wp_bind]
  unfold walkpgdir
  rw [PDX_page hu, PTX_page, wp_bind, wp_load]
  by_cases hpr : present (s.word d (u / 1024))
  · rw [if_pos hpr]
    exact hstore s h hpr fun _ _ => rfl
  · rw [if_neg hpr, if_neg (by simp), wp_bind]
    refine wp_kalloc_any hfail fun p next hfree => ?_
    obtain ⟨h2, hpage, hpres, hsame⟩ := h.link s.fails.tail hfree (i := u / 1024)
      (by omega) hpr
    rw [wp_bind, wp_zeroPage, wp_bind, wp_store, wp_pure]
    have hrest := hstore _ h2 hpres hsame
    rwa [hpage] at hrest

theorem wp_mapPages {k perm pa : ℕ} (h : Tables s d) (huk : u + k < 2 ^ 20)
    (hpa : pa % PGSIZE = 0) (hpalt : pa < 2 ^ 32) (hperm : perm < PGSIZE)
    (hnot : ∀ v, u ≤ v → v ≤ u + k → s.mapped d v = none) :
    wp (mapFrom d ((u + k) * PGSIZE) perm (k + 1) (u * PGSIZE) pa)
      (fun r s' => r = true → ∀ v < 2 ^ 20, s'.mapped d v = if u ≤ v ∧ v ≤ u + k
        then some ((pa + (v - u) * PGSIZE) % 2 ^ 32 ||| perm ||| PTE_P) else s.mapped d v) E s := by
  induction k generalizing s u pa with
  | zero =>
    refine wp_mapPage h huk hpa hpalt hperm (hnot u le_rfl le_rfl) nofun fun s1 h1 hmap => ?_
    rw [Nat.add_zero, if_pos rfl, wp_pure]
    intro _ v hv
    rw [hmap v hv]
    by_cases hvu : v = u
    · rw [if_pos hvu, if_pos (by omega), hvu, Nat.sub_self, Nat.zero_mul, Nat.add_zero,
        Nat.mod_eq_of_lt hpalt]
    · rw [if_neg hvu, if_neg (by omega)]
  | succ k ih =>
    refine wp_mapPage h (by omega) hpa hpalt hperm (hnot u le_rfl (by omega)) nofun
      fun s1 h1 hmap => ?_
    have hne : ¬u * PGSIZE = (u + (k + 1)) * PGSIZE := by
      simp only [PGSIZE]
      omega
    have hnext : (u * PGSIZE + PGSIZE) % 2 ^ 32 = (u + 1) * PGSIZE := by
      simp only [PGSIZE]
      omega
    rw [if_neg hne, hnext, show u + (k + 1) = u + 1 + k by omega]
    refine (ih h1 (by omega) (by simp only [PGSIZE] at *; omega) (by omega) fun v hv hv' => ?_).mono
      (fun r s2 hr htrue v hv => ?_) fun _ _ he => he
    · rw [hmap v (by omega), if_neg (by omega)]
      exact hnot v (by omega) (by omega)
    · rw [hr htrue v hv, hmap v hv]
      by_cases hvu : v = u
      · rw [if_neg (by omega), if_pos hvu, if_pos (by omega), hvu, Nat.sub_self, Nat.zero_mul,
          Nat.add_zero, Nat.mod_eq_of_lt hpalt]
      · by_cases hin : u + 1 ≤ v ∧ v ≤ u + 1 + k
        · have hsum : ((pa + PGSIZE) % 2 ^ 32 + (v - (u + 1)) * PGSIZE) % 2 ^ 32 =
              (pa + (v - u) * PGSIZE) % 2 ^ 32 := by
            simp only [PGSIZE]
            omega
          rw [if_pos hin, if_pos (by omega), hsum]
        · rw [if_neg hin, if_neg hvu, if_neg (by omega)]

/-- `mappages` maps the pages of the range to the physical pages from `pa` on and leaves the
translation of every other page alone. The ranges of `kmap` are disjoint, so `setupkvm` does not
panic. -/
theorem mappages_exact (va size pa perm : ℕ) (h : Tables s d) (hva : va % PGSIZE = 0)
    (hpa : pa % PGSIZE = 0) (hpalt : pa < 2 ^ 32) (hsize : 1 ≤ size) (hfit : va + size ≤ 2 ^ 32)
    (hperm : perm < PGSIZE)
    (hnot : ∀ v, va ≤ v * PGSIZE → v * PGSIZE < va + size → s.mapped d v = none) :
    (∃ r s', mappages d va size pa perm s = .ok r s' ∧ (r = true → ∀ v < 2 ^ 20, s'.mapped d v =
      if va ≤ v * PGSIZE ∧ v * PGSIZE < va + size
      then some ((pa + (v * PGSIZE - va)) % 2 ^ 32 ||| perm ||| PTE_P) else s.mapped d v)) ∧
    ∀ L : Layout, L.data < PHYSTOP / PGSIZE →
      ((kmap L).Pairwise fun m m' => ∀ v, m.virt ≤ v → v < m.virt + m.size → m'.virt ≤ v →
        v < m'.virt + m'.size → False) ∧
      ∀ s own, Owned L s own → NoHeld own → ∃ r s', setupkvm L s = .ok r s' := by
  refine ⟨?_, fun L hL => ⟨disjoint_kmap hL, fun s own ho hno => ?_⟩⟩
  · apply wp.exists_ok
    obtain ⟨u, rfl⟩ : ∃ u, va = u * PGSIZE := ⟨va / PGSIZE, by simp only [PGSIZE] at *; omega⟩
    obtain ⟨k, hk⟩ : ∃ k, k = (size - 1) / PGSIZE := ⟨_, rfl⟩
    have huk : u + k < 2 ^ 20 := by
      simp only [PGSIZE] at hk hfit
      omega
    have hdown : PGROUNDDOWN (u * PGSIZE) = u * PGSIZE := by
      simp only [PGROUNDDOWN, PGSIZE]
      omega
    have hend : (u * PGSIZE + size + (2 ^ 32 - 1)) % 2 ^ 32 = u * PGSIZE + size - 1 := by
      omega
    have hlast : PGROUNDDOWN (u * PGSIZE + size - 1) = (u + k) * PGSIZE := by
      simp only [PGROUNDDOWN, PGSIZE] at hk ⊢
      omega
    have hrounds : ((u + k) * PGSIZE + 2 ^ 32 - u * PGSIZE) % 2 ^ 32 / PGSIZE = k := by
      simp only [PGSIZE]
      omega
    have hin : ∀ v, (u * PGSIZE ≤ v * PGSIZE ∧ v * PGSIZE < u * PGSIZE + size) ↔
        u ≤ v ∧ v ≤ u + k := by
      intro v
      simp only [PGSIZE] at hk ⊢
      omega
    unfold mappages
    simp only [hdown, hend, hlast, hrounds]
    refine (wp_mapPages h huk hpa hpalt hperm fun v hv hv' => ?_).mono
      (fun r s' hr htrue v hv => ?_) fun _ _ he => he
    · exact hnot v ((hin v).mpr ⟨hv, hv'⟩).1 ((hin v).mpr ⟨hv, hv'⟩).2
    · rw [hr htrue v hv]
      simp only [hin, Nat.sub_mul]
  · have hset : wp (setupkvm L) (fun _ _ => True) (fun _ _ => False) s :=
      wp_setupkvm ho hno (fun _ _ _ _ => trivial) fun _ _ _ _ _ _ _ _ _ _ _ _ _ => trivial
    obtain ⟨r, s', heq, -⟩ := hset.exists_ok
    exact ⟨r, s', heq⟩

theorem mappages_exact_onePage :
    ∃ r s', mappages 57341 (PGSIZE * 2) 5000 0 PTE_W onePage = .ok r s' ∧
      (r = true → s'.mapped 57341 3 = some (PGSIZE ||| PTE_W ||| PTE_P) ∧
        s'.mapped 57341 0 = onePage.mapped 57341 0) := by
  have hnot : ∀ v, PGSIZE * 2 ≤ v * PGSIZE → v * PGSIZE < PGSIZE * 2 + 5000 →
      onePage.mapped 57341 v = none := by
    intro v hv hv'
    have hout := onePage_userPages v (by simp only [PGSIZE] at hv'; omega)
    by_contra hne
    have := hout.mp hne
    omega
  obtain ⟨⟨r, s', hrun, hr⟩, -⟩ := mappages_exact (PGSIZE * 2) 5000 0 PTE_W
    (owned_onePage.tables onePageOwn_dir) (by decide) (by decide) (by decide) (by decide)
    (by decide) (by decide) hnot
  refine ⟨r, s', hrun, fun htrue => ⟨?_, ?_⟩⟩
  · rw [hr htrue 3 (by decide), if_pos (by decide)]
    rfl
  · rw [hr htrue 0 (by decide), if_neg (by decide)]

end Xv6
