import Xv6.Proofs.Paging

/-! Building and taking down whole page directories: `setupkvm` and `freevm`. -/

open Function Exec List

namespace Xv6

open Kmem

variable {L : Layout} {s s' s'' : Kmem} {own own' own'' : ℕ → Role} {d p t i v : ℕ}

section Rules

variable {E : KmemStop → Kmem → Prop}

/-! Mapping the kernel. -/

structure Wired (d : ℕ) (s s' : Kmem) (own own' : ℕ → Role) : Prop extends
    Grow d s s' own own' where
  user : ∀ v < 2 ^ 19, s'.mapped d v = s.mapped d v
  held : ∀ p, own' p = .held ↔ own p = .held

variable (h : Owned L s own) (hd : own d = .dir)

namespace Wired

theorem refl (d : ℕ) (s : Kmem) (own : ℕ → Role) : Wired d s s own own :=
  ⟨.refl d s own, fun _ _ => rfl, fun _ => Iff.rfl⟩

theorem trans (h : Wired d s s' own own') (h' : Wired d s' s'' own' own'') :
    Wired d s s'' own own'' :=
  ⟨h.toGrow.trans h'.toGrow, fun v hv => (h'.user v hv).trans (h.user v hv),
    fun p => (h'.held p).trans (h.held p)⟩

theorem of_walked (h : Walked d s s' own own') : Wired d s s' own own' :=
  ⟨h.toGrow, fun v hv => h.mapped v (by omega), h.held⟩

include h hd in
theorem setPte {j w : ℕ} (ht : own t = .table d i)
    (hi : 512 ≤ i) (hj : j < 1024) (hw : w < 2 ^ 32) : Wired d s (s.setWord t j w) own own where
  old _ _ _ := rfl
  new _ := .inl rfl
  mem p _ _ _ hpt := by
    refine update_of_ne ?_ _ _
    rintro rfl
    exact hpt i ht
  user v hv := by
    rw [h.mapped_setPte hd ht hj hw (by omega), if_neg (by omega)]
  held _ := Iff.rfl

end Wired

variable {Q : Bool → Kmem → Prop}

include h hd in
theorem wp_mapFrom_round {u q k last perm : ℕ}
    (hu : 2 ^ 19 ≤ u) (hu' : u < 2 ^ 20) (hq : q < 2 ^ 20)
    (hperm : perm < PGSIZE) (hnot : s.mapped d u = none)
    (hfail : ∀ s' own', Owned L s' own' → Wired d s s' own own' →
      (s.fails = [] → s'.freelist = []) → Q false s')
    (hok : ∀ s' own', Owned L s' own' → Wired d s s' own own' →
      (∀ v < 2 ^ 20, s'.mapped d v =
        if v = u then some (q * PGSIZE ||| perm ||| PTE_P) else s.mapped d v) →
      (s.fails = [] → s'.fails = []) → (∀ i, i ≠ u / 1024 → s'.word d i = s.word d i) →
      wp (if u * PGSIZE = last then Pure.pure true else mapFrom d last perm k
        ((u * PGSIZE + PGSIZE) % 2 ^ 32) ((q * PGSIZE + PGSIZE) % 2 ^ 32)) Q E s') :
    wp (mapFrom d last perm (k + 1) (u * PGSIZE) (q * PGSIZE)) Q E s := by
  have hpdx := PDX_page (v := u) (by omega)
  have hptx := PTX_page u
  unfold mapFrom
  rw [wp_bind]
  refine wp_walkpgdir h hd
    (fun s' hmem ho => hfail s' own ho (.of_walked (.of_mem hmem)))
    fun s1 own1 t ho hwalk ht hfails hdirs => ?_
  rw [hpdx] at ht hdirs
  have hnot1 : ¬present (s1.word t (u % 1024)) := by
    intro hpr
    have hm := hwalk.mapped u hu'
    rw [ho.mapped_of_table ht, if_pos hpr, hnot] at hm
    cases hm
  have hfl : perm ||| PTE_P < PGSIZE := flags_lt hperm
  have hlt : q * PGSIZE ||| perm ||| PTE_P < 2 ^ 32 := by
    rw [Nat.or_assoc]
    exact entry_lt hq hfl
  have hj : u % 1024 < 1024 := Nat.mod_lt _ (by decide)
  have hd1 : own1 d = .dir := hwalk.dir hd
  dsimp only
  rw [wp_bind, wp_load, hptx, if_neg hnot1, wp_bind, wp_store]
  refine hok _ own1 (ho.setKernelPte ht (by omega) hj hlt)
    ((Wired.of_walked hwalk).trans (.setPte ho hd1 ht (by omega) hj hlt)) (fun v hv => ?_) hfails
    fun i hi => ?_
  · rw [ho.mapped_setPte hd1 ht hj hlt hv, if_pos (present_or _),
      show u / 1024 * 1024 + u % 1024 = u by omega, hwalk.mapped v hv]
  · rw [word_setWord_ne (Owned.dir_ne_table hd1 ht), hdirs i hi]

include h hd in
theorem wp_mapFrom {u q k perm : ℕ} (hu : 2 ^ 19 ≤ u) (huk : u + k < 2 ^ 20) (hqk : q + k < 2 ^ 20)
    (hperm : perm < PGSIZE) (hnot : ∀ v, u ≤ v → v ≤ u + k → s.mapped d v = none)
    (hfail : ∀ s' own', Owned L s' own' → Wired d s s' own own' →
      (s.fails = [] → s'.freelist = []) → Q false s')
    (hok : ∀ s' own', Owned L s' own' → Wired d s s' own own' →
      (∀ v < 2 ^ 20, s'.mapped d v = if u ≤ v ∧ v ≤ u + k
        then some ((q + (v - u)) * PGSIZE ||| perm ||| PTE_P) else s.mapped d v) →
      (s.fails = [] → s'.fails = []) →
      (∀ i, (∀ v, u ≤ v → v ≤ u + k → i ≠ v / 1024) → s'.word d i = s.word d i) → Q true s') :
    wp (mapFrom d ((u + k) * PGSIZE) perm (k + 1) (u * PGSIZE) (q * PGSIZE)) Q E s := by
  induction k generalizing s own u q with
  | zero =>
    refine wp_mapFrom_round h hd hu (by omega) (by omega) hperm (hnot u le_rfl (by omega)) hfail
      fun s1 own1 ho hw hm hfails hdirs => ?_
    rw [Nat.add_zero, if_pos rfl, wp_pure]
    refine hok s1 own1 ho hw (fun v hv => ?_) hfails fun i hi => hdirs i (hi u le_rfl (by omega))
    rw [hm v hv]
    by_cases hvu : v = u
    · rw [if_pos hvu, if_pos (by omega), hvu, Nat.sub_self, Nat.add_zero]
    · rw [if_neg hvu, if_neg (by omega)]
  | succ k ih =>
    refine wp_mapFrom_round h hd hu (by omega) (by omega) hperm (hnot u le_rfl (by omega)) hfail
      fun s1 own1 ho hw hm hfails hdirs => ?_
    have hne : ¬u * PGSIZE = (u + (k + 1)) * PGSIZE := by
      simp only [PGSIZE]
      omega
    have hstep : ∀ a, a + (k + 1) < 2 ^ 20 → (a * PGSIZE + PGSIZE) % 2 ^ 32 = (a + 1) * PGSIZE := by
      intro a ha
      simp only [PGSIZE]
      omega
    rw [if_neg hne, hstep u huk, hstep q hqk, show u + (k + 1) = u + 1 + k by omega]
    refine ih ho (hw.dir hd) (by omega) (by omega) (by omega) (fun v hv hv' => ?_)
      (fun s2 own2 ho2 hw2 hempty =>
        hfail s2 own2 ho2 (hw.trans hw2) fun hnil => hempty (hfails hnil))
      fun s2 own2 ho2 hw2 hm2 hfails2 hdirs2 => hok s2 own2 ho2 (hw.trans hw2) (fun v hv => ?_)
        (fun hnil => hfails2 (hfails hnil)) fun i hi => ?_
    · rw [hm v (by omega), if_neg (by omega)]
      exact hnot v (by omega) (by omega)
    · rw [hm2 v hv, hm v hv]
      by_cases hvu : v = u
      · rw [if_neg (by omega), if_pos hvu, if_pos (by omega), hvu, Nat.sub_self, Nat.add_zero]
      · by_cases hin : u + 1 ≤ v ∧ v ≤ u + 1 + k
        · rw [if_pos hin, if_pos (by omega), show q + 1 + (v - (u + 1)) = q + (v - u) by omega]
        · rw [if_neg hin, if_neg hvu, if_neg (by omega)]
    · rw [hdirs2 i fun v hv hv' => hi v (by omega) (by omega), hdirs i (hi u le_rfl (by omega))]

theorem mappages_eq {u k q perm : ℕ} (huk : u + k < 2 ^ 20) :
    mappages d (u * PGSIZE) ((k + 1) * PGSIZE) (q * PGSIZE) perm =
      mapFrom d ((u + k) * PGSIZE) perm (k + 1) (u * PGSIZE) (q * PGSIZE) := by
  have hdown : PGROUNDDOWN (u * PGSIZE) = u * PGSIZE := by
    simp only [PGROUNDDOWN, PGSIZE]
    omega
  have hlast : PGROUNDDOWN ((u * PGSIZE + (k + 1) * PGSIZE + (2 ^ 32 - 1)) % 2 ^ 32) =
      (u + k) * PGSIZE := by
    simp only [PGROUNDDOWN, PGSIZE]
    omega
  have hrounds : ((u + k) * PGSIZE + 2 ^ 32 - u * PGSIZE) % 2 ^ 32 / PGSIZE = k := by
    simp only [PGSIZE]
    omega
  unfold mappages
  simp only [hdown, hlast, hrounds]

/-- The entry maps the kernel pages `u` to `u + k` to the physical pages from `q` on. -/
structure MapsPages (m : Kmap) (u k q : ℕ) : Prop where
  virt : m.virt = u * PGSIZE
  size : m.size = (k + 1) * PGSIZE
  phys : m.physStart = q * PGSIZE
  perm : m.perm < PGSIZE
  kernel : 2 ^ 19 ≤ u
  virt_lt : u + k < 2 ^ 20
  phys_lt : q + k < 2 ^ 20

theorem MapsPages.mapped_iff {m : Kmap} {u k q : ℕ} (h : MapsPages m u k q) : m.Mapped s d ↔
    ∀ v, u ≤ v → v ≤ u + k → s.mapped d v = some ((q + (v - u)) * PGSIZE ||| m.perm ||| PTE_P) := by
  unfold Kmap.Mapped
  rw [h.virt, h.size, h.phys]
  refine forall_congr' fun v => ?_
  have hle : u * PGSIZE ≤ v * PGSIZE ↔ u ≤ v := by
    simp only [PGSIZE]
    omega
  have hlt : v * PGSIZE < u * PGSIZE + (k + 1) * PGSIZE ↔ v ≤ u + k := by
    simp only [PGSIZE]
    omega
  rw [hle, hlt, ← Nat.sub_mul, ← Nat.add_mul]

include h hd in
theorem wp_mapKernel {ks : List Kmap} (hfits : ∀ m ∈ ks, ∃ u k q, MapsPages m u k q)
    (hdisj : ks.Pairwise fun m m' => ∀ v, m.virt ≤ v → v < m.virt + m.size →
      m'.virt ≤ v → v < m'.virt + m'.size → False)
    (hnot : ∀ m ∈ ks, ∀ v, m.virt ≤ v * PGSIZE → v * PGSIZE < m.virt + m.size →
      s.mapped d v = none) (hfail : ∀ s' own', Owned L s' own' → Wired d s s' own own' →
      (s.fails = [] → s'.freelist = []) → Q false s')
    (hok : ∀ s' own', Owned L s' own' → Wired d s s' own own' →
      (s.fails = [] → s'.fails = []) →
      (∀ i, (∀ m ∈ ks, ∀ v, m.virt ≤ v * PGSIZE → v * PGSIZE < m.virt + m.size → i ≠ v / 1024) →
        s'.word d i = s.word d i) →
      (∀ v < 2 ^ 20, (∀ m ∈ ks, ¬(m.virt ≤ v * PGSIZE ∧ v * PGSIZE < m.virt + m.size)) →
        s'.mapped d v = s.mapped d v) →
      (∀ m ∈ ks, m.Mapped s' d) → Q true s') : wp (mapKernel d ks) Q E s := by
  induction ks generalizing s own with
  | nil => exact hok s own h (.refl d s own) id (fun _ _ => rfl) (fun _ _ _ => rfl) (by simp)
  | cons m ks ih =>
    obtain ⟨u, k, q, hm⟩ := hfits m (by simp)
    obtain ⟨hdis, hdisj⟩ := pairwise_cons.mp hdisj
    have hin : ∀ v, u ≤ v ∧ v ≤ u + k ↔ m.virt ≤ v * PGSIZE ∧ v * PGSIZE < m.virt + m.size := by
      intro v
      rw [hm.virt, hm.size]
      simp only [PGSIZE]
      omega
    unfold mapKernel
    rw [wp_bind, hm.virt, hm.size, hm.phys, mappages_eq hm.virt_lt]
    refine wp_mapFrom h hd hm.kernel hm.virt_lt hm.phys_lt hm.perm (fun v hv hv' => ?_)
      (fun s1 own1 ho hw hempty => ?_) fun s1 own1 ho hw hmap hfails hdirs => ?_
    · obtain ⟨hle, hlt⟩ := (hin v).mp ⟨hv, hv'⟩
      exact hnot m (by simp) v hle hlt
    · simp only [Bool.false_eq_true, if_false]
      exact hfail s1 own1 ho hw hempty
    · simp only [if_true]
      have hother : ∀ m' ∈ ks, ∀ v, m'.virt ≤ v * PGSIZE → v * PGSIZE < m'.virt + m'.size →
          ¬(u ≤ v ∧ v ≤ u + k) := by
        intro m' hm' v hle hlt hv
        obtain ⟨hle', hlt'⟩ := (hin v).mp hv
        exact hdis m' hm' _ hle' hlt' hle hlt
      have hlt20 : ∀ m' ∈ ks, ∀ v, v * PGSIZE < m'.virt + m'.size → v < 2 ^ 20 := by
        intro m' hm' v hlt
        obtain ⟨u', k', q', hm''⟩ := hfits m' (by simp [hm'])
        have := hm''.virt_lt
        rw [hm''.virt, hm''.size] at hlt
        simp only [PGSIZE] at hlt
        omega
      refine ih ho (hw.dir hd) (fun m' hm' => hfits m' (by simp [hm'])) hdisj
        (fun m' hm' v hle hlt => ?_)
        (fun s2 own2 ho2 hw2 hempty =>
          hfail s2 own2 ho2 (hw.trans hw2) fun hnil => hempty (hfails hnil))
        fun s2 own2 ho2 hw2 hfails2 hdirs2 hkeep hall => hok s2 own2 ho2 (hw.trans hw2)
          (fun hnil => hfails2 (hfails hnil)) (fun i hi => ?_) (fun v hv hout => ?_) ?_
      · rw [hmap v (hlt20 m' hm' v hlt), if_neg (hother m' hm' v hle hlt)]
        exact hnot m' (by simp [hm']) v hle hlt
      · rw [hdirs2 i fun m' hm' => hi m' (by simp [hm']), hdirs i fun v hv hv' => ?_]
        obtain ⟨hle, hlt⟩ := (hin v).mp ⟨hv, hv'⟩
        exact hi m (by simp) v hle hlt
      · rw [hkeep v hv fun m' hm' => hout m' (by simp [hm']), hmap v hv, if_neg]
        rw [hin]
        exact hout m (by simp)
      · intro m' hm'
        rcases mem_cons.mp hm' with rfl | hm'
        · rw [hm.mapped_iff]
          intro v hv hv'
          have hlt : v < 2 ^ 20 := by
            have := hm.virt_lt
            omega
          rw [hkeep v hlt fun m'' hm'' e => hother m'' hm'' v e.1 e.2 ⟨hv, hv'⟩, hmap v hlt,
            if_pos ⟨hv, hv'⟩]
        · exact hall m' hm'

theorem mapsPages_kmap (hL : L.data < PHYSTOP / PGSIZE) : ∀ m ∈ kmap L, ∃ u k q, MapsPages m u k q := by
  have hgt := L.data_gt
  simp only [EXTMEM, PHYSTOP, PGSIZE] at hgt hL
  intro m hm
  simp only [kmap, mem_cons, not_mem_nil, or_false] at hm
  rcases hm with rfl | rfl | rfl | rfl
  · refine ⟨2 ^ 19, 255, 0, ?_, ?_, ?_, ?_, ?_, ?_, ?_⟩ <;>
      simp [Kmap.size, KERNBASE, EXTMEM, PGSIZE, PTE_W]
  · refine ⟨2 ^ 19 + 256, L.data - 257, 256, rfl, ?_, rfl, Nat.zero_lt_succ _, by omega, by omega,
      by omega⟩
    simp only [Kmap.size, EXTMEM, PGSIZE]
    omega
  · refine ⟨2 ^ 19 + L.data, 57343 - L.data, L.data, ?_, ?_, rfl, show PTE_W < PGSIZE by decide, by omega, by omega,
      by omega⟩
    · simp only [KERNBASE, PGSIZE]
      omega
    · simp only [Kmap.size, PHYSTOP, PGSIZE]
      omega
  · refine ⟨DEVSPACE / PGSIZE, 2 ^ 13 - 1, DEVSPACE / PGSIZE, ?_, ?_, ?_, ?_, ?_, ?_, ?_⟩ <;>
      simp [Kmap.size, DEVSPACE, PGSIZE, PTE_W]

theorem kernel_of_kmap (hL : L.data < PHYSTOP / PGSIZE) {m : Kmap} (hm : m ∈ kmap L)
    (hle : m.virt ≤ v * PGSIZE) (hlt : v * PGSIZE < m.virt + m.size) : 2 ^ 19 ≤ v ∧ v < 2 ^ 20 := by
  obtain ⟨u, k, q, hfit⟩ := mapsPages_kmap hL m hm
  have hu := hfit.kernel
  have hk := hfit.virt_lt
  rw [hfit.virt] at hle hlt
  rw [hfit.size] at hlt
  simp only [PGSIZE] at hle hlt
  omega

theorem data_lt (h : Owned L s own) (hp : own p ≠ .outside) : L.data < PHYSTOP / PGSIZE :=
  L.data_le.trans_lt ((h.managed hp).1.trans_lt (h.managed hp).2)

theorem disjoint_kmap (hL : L.data < PHYSTOP / PGSIZE) :
    (kmap L).Pairwise fun m m' => ∀ v, m.virt ≤ v → v < m.virt + m.size →
      m'.virt ≤ v → v < m'.virt + m'.size → False := by
  have hgt := L.data_gt
  simp only [EXTMEM, PHYSTOP, PGSIZE] at hgt hL
  simp only [kmap, pairwise_cons, mem_cons, not_mem_nil, or_false, forall_eq_or_imp,
    forall_eq, false_imp_iff, implies_true, List.Pairwise.nil, and_true, Kmap.size, KERNLINK,
    KERNBASE, EXTMEM, PHYSTOP, DEVSPACE, PGSIZE]
  refine ⟨⟨fun v => ?_, fun v => ?_, fun v => ?_⟩, ⟨fun v => ?_, fun v => ?_⟩, fun v => ?_⟩ <;> omega

/-! `freevm`. -/

def released (own : ℕ → Role) (d : ℕ) : ℕ → Role := fun p =>
  match own p with
  | .dir => if p = d then .free else .dir
  | .table e i => if e = d then .free else .table e i
  | .user e v => if e = d then .free else .user e v
  | r => r

theorem released_of_eq (h : own p = .table d i ∨ own p = .user d v) : released own d p = .free := by
  unfold released
  rcases h with h | h <;> simp [h]

theorem released_self (hd : own d = .dir) : released own d d = .free := by
  unfold released
  simp [hd]

theorem released_of_ne (hd : p ≠ d) (ht : ∀ i, own p ≠ .table d i) (hu : ∀ v, own p ≠ .user d v) :
    released own d p = own p := by
  unfold released
  cases hp : own p with
  | dir => simp [hd]
  | table e i =>
    have he : e ≠ d := fun e => ht i (by rw [hp, e])
    simp [he]
  | user e v =>
    have he : e ≠ d := fun e => hu v (by rw [hp, e])
    simp [he]
  | _ => rfl

theorem ne_of_released (hd : own d = .dir) (hp : released own d p ≠ .free) :
    p ≠ d ∧ (∀ i, own p ≠ .table d i) ∧ ∀ v, own p ≠ .user d v := by
  refine ⟨?_, fun i hi => hp (released_of_eq (v := 0) (.inl hi)),
    fun v hv => hp (released_of_eq (i := 0) (.inr hv))⟩
  rintro rfl
  exact hp (released_self hd)

/-- A directory is built from free pages, so that everything is as before once it is released. -/
theorem released_of_grow (h : Owned L s own) (hfree : own d = .free) (hno : NoHeld own)
    (hg : Grow d s s' (update own d .dir) own') (hno' : NoHeld own') : released own' d = own := by
  funext p
  by_cases hpd : p = d
  · subst hpd
    rw [released_self (hg.dir (update_self ..)), hfree]
  · have hnew := hg.new p
    rw [update_of_ne hpd] at hnew
    have hnd : ¬(own d = .dir ∨ own d = .dying) := by simp [hfree]
    by_cases ht : ∃ i, own' p = .table d i
    · obtain ⟨i, ht⟩ := ht
      rw [released_of_eq (v := 0) (.inl ht)]
      rcases hnew with e | ⟨e | e, -⟩
      · exact absurd (h.table p d i (e.symm.trans ht)).2.1 hnd
      · exact e.symm
      · exact absurd e (hno p)
    · by_cases hu : ∃ v, own' p = .user d v
      · obtain ⟨v, hu⟩ := hu
        rw [released_of_eq (i := 0) (.inr hu)]
        rcases hnew with e | ⟨e | e, -⟩
        · obtain ⟨-, t, htab, -⟩ := h.user p d v (e.symm.trans hu)
          exact absurd (h.table t d _ htab).2.1 hnd
        · exact e.symm
        · exact absurd e (hno p)
      · rw [released_of_ne hpd (not_exists.mp ht) (not_exists.mp hu)]
        rcases hnew with e | ⟨e | e, e' | e' | e' | e'⟩
        · exact e
        · rw [e, e']
        · exact absurd e' (hno' p)
        · exact absurd e' ht
        · exact absurd e' hu
        all_goals exact absurd e (hno p)

theorem Grow.kept_of_built (hg : Grow d s s' (Function.update own d .dir) own') (h : Owned L s own)
    (hfree : own d = .free) (hno : NoHeld own) (hp : own p ≠ .free) :
    own' p = own p ∧ s'.mem p = s.mem p := by
  have hpd : p ≠ d := by
    rintro rfl
    exact hp hfree
  have hp1 : Function.update own d .dir p = own p := update_of_ne hpd ..
  have hnt : ∀ i, own p ≠ .table d i := by
    intro i hi
    have := (h.table p d i hi).2.1
    simp [hfree] at this
  exact ⟨(hg.old p (hp1 ▸ hp) (hp1 ▸ hno p)).trans hp1,
    hg.mem p (hp1 ▸ hp) (hp1 ▸ hno p) hpd (hp1 ▸ hnt)⟩

theorem wp_freeTables {is : List ℕ} {Q : Unit → Kmem → Prop} (h : Owned L s own)
    (hd : own d = .dying) (hnu : ∀ f v, own f ≠ .user d v) (hnd : is.Nodup)
    (hin : ∀ t i, own t = .table d i → i ∈ is)
    (hpde : ∀ i ∈ is, present (s.word d i) → own (s.word d i / PGSIZE) = .table d i)
    (hQ : ∀ s' own', Owned L s' own' → (∀ p i, own p = .table d i → own' p = .free) →
      (∀ p, (∀ i, own p ≠ .table d i) → own' p = own p ∧ s'.mem p = s.mem p) → Q () s') :
    wp (freeTables L d is) Q E s := by
  induction is generalizing s own with
  | nil =>
    exact hQ s own h (fun p i hp => absurd (hin p i hp) (by simp)) fun _ _ => ⟨rfl, rfl⟩
  | cons i is ih =>
    obtain ⟨hi, hnd⟩ := nodup_cons.mp hnd
    unfold freeTables
    rw [wp_bind, wp_load]
    by_cases hpr : present (s.word d i)
    · rw [if_pos hpr, wp_bind]
      have ht := hpde i (by simp) hpr
      set t := s.word d i / PGSIZE with htdef
      have htd : d ≠ t := by
        intro e
        rw [← e] at ht
        exact absurd (hd.symm.trans ht) (by simp)
      have hheld := h.reassign (p := t) (r := .held) (by simp [ht]) (by simp) (by simp [ht])
        (by simp) (by rw [ht]; exact ⟨hd, hnu⟩) trivial
      refine wp_kfree hheld (update_self ..) fun s1 hmem ho => ?_
      rw [update_idem] at ho
      have hother : ∀ q r, r ≠ .free → (∀ j, r = .table d j → j ≠ i) →
          (update own t .free q = r ↔ own q = r) := by
        intro q r hr hrj
        by_cases hq : q = t
        · subst hq
          rw [update_self, ht]
          exact ⟨fun e => absurd e.symm hr, fun e => absurd rfl (hrj i e.symm)⟩
        · rw [update_of_ne hq]
      have hwd : ∀ j, s1.word d j = s.word d j := fun j => word_of_mem (hmem d htd)
      refine ih ho ((hother d _ (by simp) (by simp)).mpr hd) (fun f v e => ?_) hnd
        (fun t' j ht' => ?_) (fun j hj hprj => ?_) fun s2 own2 ho2 hgone hkept =>
          hQ s2 own2 ho2 (fun p j hp => ?_) fun p hp => ?_
      · exact hnu f v ((hother f _ (by simp) (by simp)).mp e)
      · have hne : t' ≠ t := by
          rintro rfl
          rw [update_self] at ht'
          cases ht'
        rw [update_of_ne hne] at ht'
        refine (mem_cons.mp (hin t' j ht')).resolve_left ?_
        rintro rfl
        exact hne (h.table_inj ht ht')
      · rw [hwd] at hprj ⊢
        refine (hother _ _ (by simp) ?_).mpr (hpde j (by simp [hj]) hprj)
        intro k hk
        obtain rfl : j = k := by simpa using hk
        rintro rfl
        exact hi hj
      · by_cases hpt : p = t
        · rw [(hkept p (by simp [hpt])).1, hpt, update_self]
        · exact hgone p j (by rw [update_of_ne hpt, hp])
      · have hpt : p ≠ t := by
          rintro rfl
          exact hp i ht
        have hk := hkept p (by rw [update_of_ne hpt]; exact hp)
        rw [update_of_ne hpt, hmem p hpt] at hk
        exact hk
    · rw [if_neg hpr]
      refine ih h hd hnu hnd (fun t j ht => ?_) (fun j hj => hpde j (by simp [hj])) hQ
      refine (mem_cons.mp (hin t j ht)).resolve_left ?_
      rintro rfl
      exact hpr (h.table t d j ht).2.2.1

include h hd in
theorem wp_freevm {Q : Unit → Kmem → Prop} (hQ : ∀ s', Owned L s' (released own d) →
      (∀ p, released own d p ≠ .free → s'.mem p = s.mem p) → Q () s') : wp (freevm L d) Q E s := by
  unfold freevm
  rw [if_neg (h.ne_zero (by simp [hd])), wp_bind]
  refine wp_deallocuvm h hd le_rfl fun s1 own1 ho1 hsh => ?_
  have hall : ∀ {f v}, own f = .user d v → 0 ≤ v * PGSIZE ∧ v * PGSIZE < KERNBASE := by
    intro f v hf
    have hv := (h.mapped_of_user hf).1
    simp only [PGSIZE, KERNBASE]
    omega
  have hkept : ∀ q, (∀ v, own q ≠ .user d v) → own1 q = own q := fun q hq =>
    hsh.kept q fun v _ => hq v
  have hd1 : own1 d = .dir := by rw [hkept d (by simp [hd]), hd]
  have hnu : ∀ f v, own1 f ≠ .user d v := by
    intro f v hf
    by_cases hu : ∃ u, own f = .user d u
    · obtain ⟨u, hu⟩ := hu
      rw [hsh.gone f u (hall hu) hu] at hf
      cases hf
    · rw [hkept f (not_exists.mp hu)] at hf
      exact hu ⟨v, hf⟩
  -- the directory is on its way out: its tables may go
  have ho2 := ho1.reassign (p := d) (r := .dying) (by simp [hd1]) (by simp) (by simp [hd1]) (by simp)
    (by rw [hd1]) trivial
  have hrole : ∀ q, q ≠ d → update own1 d .dying q = own1 q := fun q hq =>
    update_of_ne hq ..
  have htd : ∀ {t i}, own1 t = .table d i → t ≠ d := fun ht => (Owned.dir_ne_table hd1 ht).symm
  have htab : ∀ {t i}, update own1 d .dying t = .table d i ↔ own1 t = .table d i := by
    intro t i
    by_cases ht : t = d
    · simp [ht, hd1]
    · rw [hrole t ht]
  have hnodup : (range NPDENTRIES).Nodup := nodup_range
  have hmem : ∀ i, i ∈ range NPDENTRIES ↔ i < NPDENTRIES := fun _ => mem_range
  rw [wp_bind]
  generalize range NPDENTRIES = is at hnodup hmem ⊢
  refine wp_freeTables ho2 (update_self ..) (fun f v hf => ?_) hnodup
    (fun t i ht => ?_) (fun i hi hpr => ?_) fun s3 own3 ho3 hgone hkept3 => ?_
  · by_cases hfd : f = d
    · simp [hfd] at hf
    · exact hnu f v (by rwa [hrole f hfd] at hf)
  · exact (hmem i).mpr (ho1.table t d i (htab.mp ht)).1
  · exact htab.mpr (ho1.pde d i hd1 ((hmem i).mp hi) hpr)
  · have hd3 : own3 d = .dying := by
      rw [(hkept3 d (by simp)).1, update_self]
    have hnt : ∀ t i, own3 t ≠ .table d i := by
      intro t i ht
      by_cases hti : ∃ j, own1 t = .table d j
      · obtain ⟨j, hj⟩ := hti
        rw [hgone t j (htab.mpr hj)] at ht
        cases ht
      · rw [(hkept3 t fun j hj => hti ⟨j, htab.mp hj⟩).1] at ht
        exact hti ⟨i, htab.mp ht⟩
    have hheld := ho3.reassign (p := d) (r := .held) (by simp [hd3]) (by simp) (by simp [hd3])
      (by simp) (by rw [hd3]; exact hnt) trivial
    refine wp_kfree hheld (update_self ..) fun s4 hmem4 ho4 => ?_
    rw [update_idem] at ho4
    have hfinal : update own3 d .free = released own d := by
      funext p
      by_cases hpd : p = d
      · rw [hpd, update_self, released_self hd]
      · rw [update_of_ne hpd]
        by_cases hu : ∃ v, own p = .user d v
        · obtain ⟨v, hu⟩ := hu
          have hf := hsh.gone p v (hall hu) hu
          rw [(hkept3 p (by simp [hrole p hpd, hf])).1, hrole p hpd, hf,
            released_of_eq (i := 0) (.inr hu)]
        · have hp1 := hkept p (not_exists.mp hu)
          by_cases ht : ∃ i, own p = .table d i
          · obtain ⟨i, ht⟩ := ht
            rw [hgone p i (htab.mpr (hp1.trans ht)), released_of_eq (v := 0) (.inl ht)]
          · rw [(hkept3 p fun i hi => ht ⟨i, hp1 ▸ htab.mp hi⟩).1, hrole p hpd, hp1,
              released_of_ne hpd (not_exists.mp ht) (not_exists.mp hu)]
    rw [hfinal] at ho4
    refine hQ s4 ho4 fun p hp => ?_
    obtain ⟨hpd, ht, hu⟩ := ne_of_released hd hp
    have hp1 := hkept p hu
    rw [hmem4 p hpd, (hkept3 p fun i hi => ht i (hp1 ▸ htab.mp hi)).2,
      hsh.mem p (fun v _ => hu v) ht]

/-! `setupkvm`. -/

theorem wp_setupkvm {Q : Option ℕ → Kmem → Prop} (h : Owned L s own) (hno : NoHeld own)
    (hfail : ∀ s', Owned L s' own → (∀ p, own p ≠ .free → s'.mem p = s.mem p) →
      (s.fails = [] → s'.freelist = [] ∨ ∃ d, own d = .free ∧
        Exhausted L d (fun _ => False) s (update own d .dir)) → Q none s')
    (hok : ∀ s' own' d, own d = .free → Owned L s' own' → NoHeld own' → own' d = .dir →
      Grow d s s' (update own d .dir) own' → (∀ v < 2 ^ 19, s'.mapped d v = none) →
      (∀ k ∈ kmap L, k.Mapped s' d) →
      (∀ v < 2 ^ 20, (∀ k ∈ kmap L, ¬(k.virt ≤ v * PGSIZE ∧ v * PGSIZE < k.virt + k.size)) →
        s'.mapped d v = none) → (s.fails = [] → s'.fails = []) →
      (∀ i, (∀ k ∈ kmap L, ∀ v, k.virt ≤ v * PGSIZE → v * PGSIZE < k.virt + k.size → i ≠ v / 1024) →
        ¬present (s'.word d i)) → Q (some d) s') : wp (setupkvm L) Q E s := by
  unfold setupkvm
  rw [wp_bind]
  refine wp_kalloc h
    (fun s1 hmem ho hempty => hfail s1 ho (fun p _ => by rw [hmem]) fun hnil => .inl (hempty hnil))
    fun s1 d hmem hfree ho hfails => ?_
  dsimp only
  rw [wp_bind, wp_zeroPage]
  set s2 := s1.setPage d Buffer.zero with hs2
  have hmem2 : ∀ q, q ≠ d → s2.mem q = s.mem q := by
    intro q hq
    rw [hs2]
    change update s1.mem d _ q = _
    rw [update_of_ne hq, hmem]
  have hzero : ∀ i, ¬present (s2.word d i) := by
    intro i
    rw [word_zero (by rw [hs2]; exact update_self ..)]
    exact not_present_zero
  have ho2 : Owned L s2 (update own d .dir) := by
    have hheld : Owned L s2 (update own d .held) := by
      refine ho.congr rfl fun q hq => update_of_ne ?_ _ _
      rintro rfl
      simp at hq
    have := hheld.reassign (p := d) (r := .dir) (by simp) (by simp) (by simp) (by simp) (by simp)
      fun i _ => hzero i
    rwa [update_idem] at this
  have hd2 : update own d .dir d = .dir := update_self ..
  have hno2 : NoHeld (update own d .dir) := by
    intro p
    by_cases hp : p = d
    · simp [hp]
    · rw [update_of_ne hp]
      exact hno p
  have hgrow : ∀ {s' own'}, Wired d s2 s' (update own d .dir) own' →
      Grow d s s' (update own d .dir) own' := fun hw =>
    ⟨hw.old, hw.new, fun p hf hh hpd ht => (hw.mem p hf hh hpd ht).trans (hmem2 p hpd)⟩
  have hnoHeld : ∀ {s' own'}, Wired d s2 s' (update own d .dir) own' → NoHeld own' :=
    fun hw p hp => hno2 p ((hw.held p).mp hp)
  have hnone : ∀ v, s2.mapped d v = none := fun v => Owned.mapped_of_absent (hzero _)
  have hL : L.data < PHYSTOP / PGSIZE := data_lt (p := d) h (by simp [hfree])
  rw [wp_bind]
  refine wp_mapKernel ho2 hd2 (mapsPages_kmap hL) (disjoint_kmap hL) (fun m _ v _ _ => hnone v)
    (fun s3 own3 ho3 hw hempty => ?_) fun s3 own3 ho3 hw hfails3 hdirs hkeep hall => ?_
  · simp only [Bool.false_eq_true, if_false]
    rw [wp_bind]
    refine wp_freevm ho3 (hw.dir hd2) fun s4 ho4 hmem4 => ?_
    have hback := released_of_grow h hfree hno (hgrow hw) (hnoHeld hw)
    rw [hback] at ho4 hmem4
    refine hfail s4 ho4 (fun p hp => ?_) fun hnil => .inr ⟨d, hfree, s3, own3, 0, ho3, hgrow hw,
      hempty (hfails hnil), fun q hq => absurd hq (hnoHeld hw q), fun q v hq => ?_⟩
    · rw [hmem4 p hp, ((hgrow hw).kept_of_built h hfree hno hp).2]
    · obtain ⟨hv, w, hw', -⟩ := ho3.mapped_of_user hq
      rw [hw.user v hv, hnone] at hw'
      cases hw'
  · simp only [if_true]
    exact hok s3 own3 d hfree ho3 (hnoHeld hw) (hw.dir hd2) (hgrow hw)
      (fun v hv => (hw.user v hv).trans (hnone v)) hall
      (fun v hv hout => (hkeep v hv hout).trans (hnone v)) (fun hnil => hfails3 (hfails hnil))
      fun i hi => by rw [hdirs i hi]; exact hzero i

end Rules

end Xv6
