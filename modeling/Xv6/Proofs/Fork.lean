import Xv6.Proofs.Vm
import Xv6.Proofs.FreeMemory

/-! `copyuvm`: the memory that `fork` gives to the child. -/

open Function Exec

namespace Xv6

open Kmem

variable {L : Layout} {s s' : Kmem} {own own' : ℕ → Role} {d e f sz v w : ℕ}

theorem flags_of_present (h : present w) : w % PGSIZE ||| PTE_P = w % PGSIZE := by
  have hodd : w % PGSIZE % 2 = 1 := by
    rw [present_iff] at h
    simp only [PGSIZE]
    omega
  refine Nat.eq_of_testBit_eq fun i => ?_
  rw [Nat.testBit_or]
  cases i with
  | zero => simp [Nat.testBit_zero, hodd]
  | succ i => simp [PTE_P, Nat.testBit_succ]

theorem mapped_eq_some : s.mapped d v = some w ↔ present (s.word d (v / 1024)) ∧ present w ∧
    s.word (s.word d (v / 1024) / PGSIZE) (v % 1024) = w := by
  rw [mapped_eq]
  split_ifs with h
  · rw [Option.some.injEq]
    exact ⟨fun e => ⟨h.1, e ▸ h.2, e⟩, fun e => e.2.2⟩
  · simp only [false_iff]
    rintro ⟨hpde, hpte, rfl⟩
    exact h ⟨hpde, hpte⟩

theorem Grow.mem_other (h : Grow d s s' own own') (ho : Owned L s own) (hd : own d = .dir)
    (he : own e = .dir) (hne : e ≠ d) (hv : v < 2 ^ 19) (hw : s.mapped e v = some w) :
    s'.mem (w / PGSIZE) = s.mem (w / PGSIZE) := by
  have hu := (ho.user_of_mapped he hv hw).2
  refine h.mem _ (by simp [hu]) (by simp [hu]) ?_ (by simp [hu])
  rintro rfl
  exact absurd (hd.symm.trans hu) (by simp)

section Rules

variable {E : KmemStop → Kmem → Prop}

theorem wp_copyFrom {u k : ℕ} {Q : Bool → Kmem → Prop} (h : Owned L s own) (hd : own d = .dir)
    (he : own e = .dir) (hne : e ≠ d) (hno : NoHeld own) (hk : u + k ≤ 2 ^ 19)
    (hmap : ∀ v, u ≤ v → v < u + k → s.mapped e v = none →
      ∀ s', E (.panic .copyuvmPte) s' ∧ E (.panic .copyuvmPage) s')
    (hnot : ∀ v, u ≤ v → v < u + k → s.mapped d v = none)
    (hfail : ∀ s' own', Owned L s' own' → Grow d s s' own own' → NoHeld own' →
      (s.fails = [] → Exhausted L d (fun v => u ≤ v ∧ v < u + k) s own) → Q false s')
    (hok : ∀ s' own', Owned L s' own' → Grow d s s' own own' → NoHeld own' →
      (∀ v < 2 ^ 20, ¬(u ≤ v ∧ v < u + k) → s'.mapped d v = s.mapped d v) →
      (∀ v, u ≤ v → v < u + k → ∃ w f, s.mapped e v = some w ∧
        s'.mapped d v = some (f * PGSIZE ||| w % PGSIZE) ∧ s'.mem f = s.mem (w / PGSIZE)) →
      Q true s') : wp (copyFrom L e d k (u * PGSIZE)) Q E s := by
  induction k generalizing s own u with
  | zero =>
    exact hok s own h (.refl d s own) hno (fun _ _ _ => rfl) fun v hv hv' => absurd hv' (by omega)
  | succ k ih =>
    have hu19 : u < 2 ^ 19 := by omega
    have hpdx := PDX_page (v := u) (by omega)
    have hptx := PTX_page u
    unfold copyFrom
    rw [wp_bind, wp_lookup, hpdx, hptx]
    rcases hw : s.mapped e u with - | w
    · have hE := hmap u le_rfl (by omega) hw s
      rw [mapped_eq] at hw
      split_ifs at hw with hboth
      by_cases hpde : present (s.word e (u / 1024))
      · rw [if_pos hpde]
        dsimp only
        rw [wp_bind, wp_load, if_pos fun hpte => hboth ⟨hpde, hpte⟩]
        exact hE.2
      · rw [if_neg hpde]
        exact hE.1
    obtain ⟨hpde, hpr, hpte⟩ := mapped_eq_some.mp hw
    have hfl : w % PGSIZE < PGSIZE := Nat.mod_lt _ (by decide)
    rw [if_pos hpde]
    dsimp only
    rw [wp_bind, wp_load, hpte, if_neg (not_not_intro hpr), wp_bind]
    refine wp_kalloc h (fun s1 hmem ho hempty => hfail s1 own ho (.of_mem hmem) hno fun hnil =>
        ⟨s1, own, 0, ho, .of_mem hmem, hempty hnil, fun q hq => absurd hq (hno q), fun _ _ => .inl⟩)
      fun s1 p hmem hfree ho hfails => ?_
    have ht := taken_of_kalloc h hd hmem hfree ho (s1.mem (w / PGSIZE))
    set s2 := s1.setPage p (s1.mem (w / PGSIZE)) with hs2
    set own2 := update own p .held with hown2
    have hd2 : own2 d = .dir := ht.grow.dir hd
    have hp2 : own2 p = .held := update_self ..
    have hheld2 : ∀ q, own2 q = .held → q = p := by
      intro q hq
      by_contra hqp
      rw [hown2, update_of_ne hqp] at hq
      exact hno q hq
    dsimp only
    rw [wp_bind, wp_modify, ← hs2, wp_bind]
    refine wp_mapUser ht.owned hd2 hp2 hu19
      (by rw [ht.mapped u (by omega)]; exact hnot u le_rfl (by omega)) hfl
      (fun s3 own3 ho3 hwalk hempty => ?_) fun s3 own3 ho3 hg hm hheld hself hfails3 _ => ?_
    · -- no page table: the page goes back
      simp only [Bool.false_eq_true, if_false]
      rw [wp_bind]
      refine wp_kfree ho3 ((hwalk.held p).mpr hp2) fun s4 hmem4 ho4 =>
        hfail s4 _ ho4 ?_ (fun q hq => ?_) fun hnil =>
          .of_walked hd hno ht hwalk ho3 (hempty (hfails hnil))
      · refine (ht.grow.trans hwalk.toGrow).trans
          (.update (.inr ((hwalk.held p).mpr hp2)) (.inl rfl) fun q hq _ _ => hmem4 q hq)
      · by_cases hqp : q = p
        · simp [hqp] at hq
        · rw [update_of_ne hqp] at hq
          exact hqp (hheld2 q ((hwalk.held q).mp hq))
    · have hg' : Grow d s s3 own own3 := ht.grow.trans hg
      have hd3 : own3 d = .dir := hg.dir hd2
      have hno3 : NoHeld own3 := by
        intro q hq
        obtain ⟨hq2, hqp⟩ := (hheld q).mp hq
        exact hqp (hheld2 q hq2)
      have hm' : ∀ v < 2 ^ 20, s3.mapped d v =
          if v = u then some (p * PGSIZE ||| w % PGSIZE) else s.mapped d v := by
        intro v hv
        rw [hm v hv, ht.mapped v hv, Nat.or_assoc, flags_of_present hpr]
      have huser : own3 p = .user d u := by
        have hmu := hm' u (by omega)
        rw [if_pos rfl] at hmu
        have hrole := (ho3.user_of_mapped hd3 hu19 hmu).2
        rwa [entry_div p hfl] at hrole
      have hpar : ∀ v < 2 ^ 19, s3.mapped e v = s.mapped e v := fun v hv =>
        hg'.mapped_other h hd he hne (by omega)
      have hnext : u * PGSIZE + PGSIZE = (u + 1) * PGSIZE := by ring
      simp only [if_true]
      rw [hnext]
      refine ih (u := u + 1) ho3 hd3 (hg'.dir he) hno3 (by omega) (fun v hv hv' => ?_)
        (fun v hv hv' => ?_) (fun s4 own4 ho4 hg4 hno4 hexh => hfail s4 own4 ho4 (hg'.trans hg4) hno4
          fun hnil => .of_grow hg' (fun q v hq => ?_)
            ((hexh (hfails3 (hfails hnil))).mono fun v hv => by omega))
        fun s4 own4 ho4 hg4 hno4 hkeep hcopy => hok s4 own4 ho4 (hg'.trans hg4) hno4
          (fun v hv hout => ?_) fun v hv hv' => ?_
      · rw [hpar v (by omega)]
        exact hmap v (by omega) (by omega)
      · rw [hm' v (by omega), if_neg (by omega)]
        exact hnot v (by omega) (by omega)
      · obtain ⟨hv, x, hx, rfl⟩ := ho3.mapped_of_user hq
        rw [hm' v (by omega)] at hx
        split_ifs at hx with hvu
        · exact .inr (by omega)
        · exact .inl (h.user_of_mapped hd hv hx).2
      · rw [hkeep v hv (by omega), hm' v hv, if_neg (by omega)]
      · by_cases hvu : v = u
        · subst hvu
          refine ⟨w, p, hw, ?_, ?_⟩
          · rw [hkeep v (by omega) (by omega), hm' v (by omega), if_pos rfl]
          · rw [hg4.mem p (by simp [huser]) (by simp [huser]) ?_ (by simp [huser]), hself, ht.self,
              hmem]
            rintro rfl
            exact absurd (hd.symm.trans hfree) (by simp)
        · obtain ⟨x, f, hx, hf, hmemf⟩ := hcopy v (by omega) (by omega)
          rw [hpar v (by omega)] at hx
          exact ⟨x, f, hx, hf, hmemf.trans (hg'.mem_other h hd he hne (by omega) hx)⟩

theorem wp_copyuvm {Q : Option ℕ → Kmem → Prop} (h : Owned L s own) (he : own e = .dir)
    (hno : NoHeld own) (hsz : sz ≤ KERNBASE) (hmap : ∀ v, v * PGSIZE < sz → s.mapped e v = none →
      ∀ s', E (.panic .copyuvmPte) s' ∧ E (.panic .copyuvmPage) s')
    (hfail : ∀ s', Owned L s' own → (∀ p, own p ≠ .free → s'.mem p = s.mem p) →
      (s.fails = [] → s'.freelist = [] ∨ ∃ d, own d = .free ∧
        Exhausted L d (fun v => v * PGSIZE < sz) s (update own d .dir)) → Q none s')
    (hok : ∀ s' own' d, own d = .free → Owned L s' own' → NoHeld own' → own' d = .dir →
      Grow d s s' (update own d .dir) own' →
      (∀ v < 2 ^ 19, ¬v * PGSIZE < sz → s'.mapped d v = none) →
      (∀ v, v * PGSIZE < sz → ∃ w f, s.mapped e v = some w ∧
        s'.mapped d v = some (f * PGSIZE ||| w % PGSIZE) ∧ s'.mem f = s.mem (w / PGSIZE)) →
      (∀ k ∈ kmap L, k.Mapped s' d) → Q (some d) s') : wp (copyuvm L e sz) Q E s := by
  unfold copyuvm
  rw [wp_bind]
  refine wp_setupkvm h hno (fun s1 ho hmem hwhy => hfail s1 ho hmem fun hnil =>
      (hwhy hnil).imp_right fun ⟨d, hd, he⟩ => ⟨d, hd, he.mono fun _ => False.elim⟩)
    fun s1 own1 d hfree ho1 hno1 hd1 hg1 hnone hkern _ hfails _ => ?_
  have hne : e ≠ d := by
    rintro rfl
    exact absurd (he.symm.trans hfree) (by simp)
  have hold : ∀ p, own p ≠ .free → own1 p = own p ∧ s1.mem p = s.mem p := fun p =>
    hg1.kept_of_built h hfree hno
  have hpar : ∀ v < 2 ^ 19, s1.mapped e v = s.mapped e v := fun v hv =>
    h.mapped_congr he (by omega) (hold e (by simp [he])).2 fun t i ht => (hold t (by simp [ht])).2
  have hin : ∀ v, v * PGSIZE < sz ↔ v < 0 + (sz + PGSIZE - 1) / PGSIZE := by
    intro v
    simp only [PGSIZE]
    omega
  have hk : 0 + (sz + PGSIZE - 1) / PGSIZE ≤ 2 ^ 19 := by
    simp only [PGSIZE, KERNBASE] at *
    omega
  dsimp only
  rw [wp_bind, ← Nat.zero_mul PGSIZE]
  refine wp_copyFrom ho1 hd1 ((hold e (by simp [he])).1.trans he) hne hno1 hk
    (fun v _ hv hm => ?_) (fun v _ hv => hnone v (by omega)) (fun s2 own2 ho2 hg2 hno2 hexh => ?_)
    fun s2 own2 ho2 hg2 hno2 hkeep hcopy => ?_
  · rw [hpar v (by omega)] at hm
    exact hmap v ((hin v).mpr hv) hm
  · simp only [Bool.false_eq_true, if_false]
    rw [wp_bind]
    refine wp_freevm ho2 (hg2.dir hd1) fun s3 ho3 hmem3 => ?_
    rw [released_of_grow h hfree hno (hg1.trans hg2) hno2] at ho3 hmem3
    refine hfail s3 ho3 (fun p hp => ?_) fun hnil => .inr ⟨d, hfree, .of_grow hg1 (fun q v hq => ?_)
      ((hexh (hfails hnil)).mono fun v hv => (hin v).mpr hv.2)⟩
    · rw [hmem3 p hp, ((hg1.trans hg2).kept_of_built h hfree hno hp).2]
    · obtain ⟨hv, w, hw, -⟩ := ho1.mapped_of_user hq
      rw [hnone v hv] at hw
      cases hw
  · simp only [if_true]
    refine hok s2 own2 d hfree ho2 hno2 (hg2.dir hd1) (hg1.trans hg2) (fun v hv hout => ?_)
      (fun v hv => ?_) fun m hm v hle hlt => ?_
    · rw [hkeep v (by omega) fun hv' => hout ((hin v).mpr hv'.2), hnone v hv]
    · have hv' := (hin v).mp hv
      obtain ⟨w, f, hw, hf, hmem⟩ := hcopy v (Nat.zero_le v) hv'
      rw [hpar v (by omega)] at hw
      have hu := (h.user_of_mapped he (by omega) hw).2
      exact ⟨w, f, hw, hf, hmem.trans (hold _ (by simp [hu])).2⟩
    · obtain ⟨hv, hv'⟩ := kernel_of_kmap (data_lt (p := d) ho1 (by simp [hd1])) hm hle hlt
      rw [hkeep v hv' (by omega)]
      exact hkern m hm v hle hlt

end Rules

theorem unshared_of_owned (h : Owned L s own) (hd : own d = .dir) : Unshared s own d := by
  intro v w e u x hv hw he hu hx heq
  have hrole := (h.user_of_mapped he hu hx).2
  rw [heq, (h.user_of_mapped hd hv hw).2, Role.user.injEq] at hrole
  exact ⟨hrole.1.symm, hrole.2.symm⟩

theorem sameBelow_of_kept (h : Owned L s own) (he : own e = .dir)
    (hkept : ∀ p, own p ≠ .free → s'.mem p = s.mem p) : s.SameBelow s' e KERNBASE := by
  refine sameBelow_of_mem h he le_rfl (fun v hv _ => ?_) fun p v _ _ hp => hkept p (by simp [hp])
  exact h.mapped_congr he (by omega) (hkept e (by simp [he])) fun t i ht => hkept t (by simp [ht])

def Forked (L : Layout) (s s' : Kmem) (own own' : ℕ → Role) (e sz : ℕ) : Option ℕ → Prop
  | none => ∀ p, p ∈ s'.freelist ↔ p ∈ s.freelist
  | some d => (∀ p, own p = .dir → own' p = .dir) ∧ own' d = .dir ∧ s.Copied L s' e sz d ∧
      Unshared s' own' d

/-- `copyuvm` returns an isolated copy, or has taken nothing from the free list. It does not fail
when the free list has a page for the directory and each page table and user page of the copy. -/
theorem copyuvm_isolated (h : Owned L s own) (he : own e = .dir) (hno : NoHeld own)
    (hsz : sz ≤ KERNBASE) (hpages : ∀ v, v * PGSIZE < sz → s.mapped e v ≠ none) :
    ∃ r s' own', copyuvm L e sz s = .ok r s' ∧ Owned L s' own' ∧ s.SameBelow s' e KERNBASE ∧
      Forked L s s' own own' e sz r ∧
      (s.fails = [] → 1026 + (sz + PGSIZE - 1) / PGSIZE < s.freelist.length → r ≠ none) := by
  have hrun : wp (copyuvm L e sz) (fun r s' => ∃ own', Owned L s' own' ∧
      s.SameBelow s' e KERNBASE ∧ Forked L s s' own own' e sz r ∧
      (s.fails = [] → 1026 + (sz + PGSIZE - 1) / PGSIZE < s.freelist.length → r ≠ none))
      (fun _ _ => False) s := by
    refine wp_copyuvm h he hno hsz (fun v hv hm => absurd hm (hpages v hv))
      (fun s' ho hmem hwhy => ?_) fun s' own' d hfree ho _ hd hg hnone hcopy hkern => ?_
    · refine ⟨own, ho, sameBelow_of_kept h he hmem, fun p => ?_, fun hnil hlen _ => ?_⟩
      · rw [ho.free, h.free]
      · rcases hwhy hnil with hempty | ⟨d, -, hexh⟩
        · obtain ⟨p, hp⟩ := List.exists_mem_of_length_pos (Nat.zero_lt_of_lt hlen)
          rw [h.free, ← ho.free, hempty] at hp
          cases hp
        · refine not_exhausted h hlen (fun v hv => ?_) hexh
          simp only [PGSIZE] at hv ⊢
          omega
    · have hkept : ∀ p, own p ≠ .free → own' p = own p ∧ s'.mem p = s.mem p := fun p =>
        hg.kept_of_built h hfree hno
      refine ⟨own', ho, sameBelow_of_kept h he fun p hp => (hkept p hp).2,
        ⟨fun p hp => (hkept p (by simp [hp])).1.trans hp, hd, ⟨fun va hva => ?_, fun v hv => ?_,
          fun v hv => ?_, hkern⟩, unshared_of_owned ho hd⟩, fun _ _ => Option.some_ne_none d⟩
      · obtain ⟨w, f, hw, hf, hmem⟩ := hcopy _ hva
        unfold byteAt
        rw [hw, hf, Option.map_some, Option.map_some, entry_div f (Nat.mod_lt _ (by decide)), hmem]
      · obtain ⟨w, f, hw, hf, -⟩ := hcopy v hv
        exact ⟨w, _, hw, hf, entry_mod f (Nat.mod_lt _ (by decide))⟩
      · by_cases hin : v * PGSIZE < sz
        · obtain ⟨w, f, -, hf, -⟩ := hcopy v hin
          simp [hf, hin]
        · simp [hnone v hv hin, hin]
  obtain ⟨r, s', hr, own', hown⟩ := hrun.exists_ok
  exact ⟨r, s', own', hr, hown⟩

/-- A process of three pages, with most of the memory free, gets its copy. -/
theorem copyuvm_isolated_roomy : ∃ s own, Roomy 3 s own ∧
    ∃ d s' own', copyuvm wideLayout 257 (3 * PGSIZE) s = .ok (some d) s' ∧ Owned wideLayout s' own' ∧
      own' d = .dir ∧ s.Copied wideLayout s' 257 (3 * PGSIZE) d ∧ Unshared s' own' d := by
  obtain ⟨s, own, h⟩ := exists_roomy (n := 3) (by decide)
  have hlen := h.length_freelist
  obtain ⟨r, s', own', hrun, ho, -, hforked, hsome⟩ := copyuvm_isolated h.owned h.dir h.noHeld
    (by decide : 3 * PGSIZE ≤ KERNBASE) fun v hv => (h.pages v (by
      simp only [PGSIZE] at hv
      omega)).mpr hv
  cases r with
  | none => exact absurd rfl (hsome h.fails (by simp only [PGSIZE]; omega))
  | some d => exact ⟨s, own, h, d, s', own', hrun, ho, hforked.2⟩

end Xv6
