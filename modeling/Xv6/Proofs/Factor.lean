import Mathlib.Data.List.TakeWhile
import Mathlib.Data.Nat.Prime.Basic
import Xv6.Spec.Factor

/-! `factor`: for which arguments it exits, what it prints, and how it reads numbers. -/

namespace Xv6.Factor

open List

variable {k : ℕ} {n : ℤ}

/-! ### 32-bit numbers -/

theorem wrap_of_lt {x : ℤ} (h : -2 ^ 31 ≤ x) (h' : x < 2 ^ 31) : wrap x = x := by
  unfold wrap
  rw [Int.bmod_def]
  omega

theorem wrap_lt (x : ℤ) : wrap x < 2 ^ 31 := by
  unfold wrap
  rw [Int.bmod_def]
  omega

theorem wrap_emod (x : ℤ) : wrap x % 32 = x % 32 := by
  unfold wrap
  rw [Int.bmod_def]
  omega

/-- No square is `26`, …, `31` modulo 32, so the last six numbers of an `int` are no squares. -/
theorem wrap_sq_le (i : ℤ) : wrap (i * i) ≤ 2 ^ 31 - 7 := by
  have hlt := wrap_lt (i * i)
  have hmod := wrap_emod (i * i)
  have hsq : i * i % 32 = (i % 32) * (i % 32) % 32 := Int.mul_emod i i 32
  have hcases : i * i % 32 < 26 := by
    have h0 : 0 ≤ i % 32 := Int.emod_nonneg i (by decide)
    have h1 : i % 32 < 32 := Int.emod_lt_of_pos i (by decide)
    rw [hsq]
    generalize i % 32 = r at h0 h1
    interval_cases r <;> decide
  omega

def rootOfMax : ℤ := 593968971

theorem wrap_sq_rootOfMax : wrap (rootOfMax * rootOfMax) = 2 ^ 31 - 7 := by decide

/-! ### The square root -/

theorem sqrt_step {i : ℤ} (hn : n < 2 ^ 31 - 7) (hi : 1 ≤ i ∧ i ≤ rootOfMax) (hc : wrap (i * i) ≤ n) :
    wrap (i + 1) = i + 1 ∧ i + 1 ≤ rootOfMax := by
  have hne : i ≠ rootOfMax := by
    rintro rfl
    rw [wrap_sq_rootOfMax] at hc
    omega
  have hlt : i + 1 ≤ rootOfMax := by omega
  unfold rootOfMax at hlt
  exact ⟨wrap_of_lt (by omega) (by omega), hlt⟩

theorem integerSqrt_ends (hk : 2 ^ 32 ≤ k) (hn : n < 2 ^ 31 - 7) : ∃ r, integerSqrt k n = some r := by
  have hstep : ∀ i, 1 ≤ i ∧ i ≤ rootOfMax → decide (wrap (i * i) ≤ n) = true →
      ∃ j, some (wrap (i + 1)) = some j ∧ (1 ≤ j ∧ j ≤ rootOfMax) ∧
        (rootOfMax - j).toNat < (rootOfMax - i).toNat := by
    intro i hi hc
    obtain ⟨hwrap, hlt⟩ := sqrt_step hn hi (of_decide_eq_true hc)
    exact ⟨i + 1, congrArg some hwrap, ⟨by omega, hlt⟩, by omega⟩
  have hbound : (rootOfMax - 1).toNat ≤ k := le_trans (by decide) hk
  obtain ⟨i, hrun, -⟩ := While.run_ends (fun i => (rootOfMax - i).toNat) hstep ⟨le_rfl, by decide⟩ hbound
  exact ⟨wrap (i - 1), by rw [integerSqrt, hrun]; rfl⟩

theorem integerSqrt_diverges (k : ℕ) (hn : 2 ^ 31 - 7 ≤ n) : integerSqrt k n = none := by
  have hrun := While.run_diverges (c := fun i => decide (wrap (i * i) ≤ n))
    (f := fun i => some (wrap (i + 1))) (I := fun _ => True) (s := 1)
    (fun i _ => decide_eq_true ((wrap_sq_le i).trans hn)) (fun _ _ _ _ => trivial) k trivial
  rw [integerSqrt, hrun]
  rfl

theorem integerSqrt_spec {r : ℤ} (h : integerSqrt k n = some r) :
    0 ≤ r ∧ r < rootOfMax ∧ n < (r + 1) * (r + 1) := by
  have hn : n < 2 ^ 31 - 7 := by
    by_contra hge
    rw [integerSqrt_diverges k (not_lt.mp hge)] at h
    cases h
  have hstep : ∀ i j, 1 ≤ i ∧ i ≤ rootOfMax → decide (wrap (i * i) ≤ n) = true →
      some (wrap (i + 1)) = some j → 1 ≤ j ∧ j ≤ rootOfMax := by
    intro i j hi hc hj
    obtain ⟨hwrap, hlt⟩ := sqrt_step hn hi (of_decide_eq_true hc)
    rw [hwrap] at hj
    obtain rfl := Option.some.inj hj
    exact ⟨by omega, hlt⟩
  obtain ⟨i, hrun, hr⟩ := Option.bind_eq_some_iff.mp h
  obtain ⟨⟨hlow, hhigh⟩, hexit⟩ := While.run_invariant hstep hrun ⟨le_rfl, by decide⟩
  have hexit : n < wrap (i * i) := not_le.mp (of_decide_eq_false hexit)
  have hroot : rootOfMax < 2 ^ 31 := by decide
  obtain rfl : i - 1 = r := by
    rw [← wrap_of_lt (x := i - 1) (by omega) (by omega)]
    exact Option.some.inj hr
  refine ⟨by omega, by omega, ?_⟩
  rw [sub_add_cancel]
  -- up to 46340 there is no overflow; from there on the square is above every `int`
  by_cases hsmall : i ≤ 46340
  · have hsq : i * i ≤ 46340 * 46340 := mul_le_mul hsmall hsmall (by omega) (by decide)
    have hpos : 0 ≤ i * i := mul_self_nonneg i
    rwa [wrap_of_lt (by omega) (by omega)] at hexit
  · have hsq : 46341 * 46341 ≤ i * i := mul_le_mul (by omega) (by omega) (by decide) (by omega)
    omega

/-! ### The divisions end -/

theorem tdiv_step {i : ℤ} (hi : 2 ≤ i) (hn : n ≠ 0) (h : n.tmod i = 0) :
    n.tdiv i ≠ 0 ∧ 2 * (n.tdiv i).natAbs ≤ n.natAbs := by
  have hmul : n.tdiv i * i = n := Int.tdiv_mul_cancel (Int.dvd_of_tmod_eq_zero h)
  have habs : (n.tdiv i).natAbs * i.natAbs = n.natAbs := by rw [← Int.natAbs_mul, hmul]
  have hi' : 2 ≤ i.natAbs := by omega
  refine ⟨fun h0 => hn (by rw [← hmul, h0, zero_mul]), ?_⟩
  calc 2 * (n.tdiv i).natAbs ≤ i.natAbs * (n.tdiv i).natAbs := Nat.mul_le_mul_right _ hi'
    _ = n.natAbs := by rw [mul_comm, habs]

variable {d : State}

theorem divideOut_ends {i : ℤ} (hi : 2 ≤ i) (hd : d.n ≠ 0) (hk : d.n.natAbs ≤ k) :
    ∃ d', divideOut k i d = some d' ∧ d'.n ≠ 0 ∧ d'.n.natAbs ≤ d.n.natAbs ∧
      (d'.n = d.n ∨ 2 * d'.n.natAbs ≤ d.n.natAbs) := by
  refine While.run_ends (fun d : State => d.n.natAbs) (fun e he hc => ?_)
    ⟨hd, le_rfl, .inl rfl⟩ hk
  obtain ⟨hne, hle, hor⟩ := he
  obtain ⟨hne', hlt⟩ := tdiv_step hi hne (of_decide_eq_true hc)
  refine ⟨_, rfl, ⟨hne', ?_, ?_⟩, ?_⟩
  · dsimp only
    omega
  · right
    dsimp only
    omega
  · dsimp only
    omega

theorem divideOut_zero (k : ℕ) (i : ℤ) (out : List ℤ) : divideOut k i ⟨0, out⟩ = none := by
  refine While.run_diverges (I := fun d : State => d.n = 0) (fun d hd => ?_) (fun d d' hd hf => ?_) k rfl
  · rw [hd, Int.zero_tmod]
    rfl
  · obtain rfl := Option.some.inj hf
    dsimp only
    rw [hd, Int.zero_tdiv]

variable {last : ℤ}

theorem divideOdd_ends (hlast : last < rootOfMax) (hd : d.n ≠ 0)
    (hk : d.n.natAbs ≤ k) (hk' : 2 ^ 32 ≤ k) : ∃ d', divideOdd k last d = some d' := by
  have hroot : rootOfMax < 2 ^ 30 := by decide
  have hstep : ∀ x : ℤ × State, 3 ≤ x.1 ∧ x.2.n ≠ 0 ∧ x.2.n.natAbs ≤ k → decide (x.1 ≤ last) = true →
      ∃ y, (divideOut k x.1 x.2).map (fun d => (wrap (x.1 + 2), d)) = some y ∧
        (3 ≤ y.1 ∧ y.2.n ≠ 0 ∧ y.2.n.natAbs ≤ k) ∧ (last + 1 - y.1).toNat < (last + 1 - x.1).toNat := by
    rintro ⟨i, e⟩ ⟨h3, hne, hle⟩ hc
    have hc : i ≤ last := of_decide_eq_true hc
    obtain ⟨d', hdiv, hne', hle', -⟩ := divideOut_ends (show 2 ≤ i by omega) hne hle
    have hwrap : wrap (i + 2) = i + 2 := wrap_of_lt (by omega) (by omega)
    refine ⟨(i + 2, d'), ?_, ⟨by omega, hne', hle'.trans hle⟩, by omega⟩
    rw [hdiv, Option.map_some, hwrap]
  have hbound : (last + 1 - 3).toNat ≤ k := by omega
  obtain ⟨x, hrun, -⟩ := While.run_ends (s := (3, d)) (fun x : ℤ × State => (last + 1 - x.1).toNat) hstep
    ⟨le_rfl, hd, hk⟩ hbound
  exact ⟨x.2, by rw [divideOdd, hrun]; rfl⟩

/-! ### Which arguments end -/

/-- The numbers for which a loop of `printFactor` does not end: 0, which every number divides, and the
odd numbers that no square exceeds. -/
def stuck : List ℤ := [0, 2147483641, 2147483643, 2147483645, 2147483647]

theorem mem_stuck (hmax : n < 2 ^ 31) : n ∈ stuck ↔ n = 0 ∨ (n.tmod 2 ≠ 0 ∧ 2 ^ 31 - 7 ≤ n) := by
  rw [ne_eq, ← Int.dvd_iff_tmod_eq_zero]
  simp only [stuck, mem_cons, not_mem_nil, or_false]
  omega

theorem printFactor_eq {d d' : State} (hdiv : divideOut k 2 ⟨n, []⟩ = some d)
    (hsqrt : integerSqrt k d.n = some last) (hodd : divideOdd k last d = some d') :
    printFactor k n = some (if d'.n > 2 then d'.out ++ [d'.n] else d'.out) := by
  rw [printFactor, hdiv]
  change (integerSqrt k d.n).bind _ = _
  rw [hsqrt]
  change (divideOdd k last d).bind _ = _
  rw [hodd]
  rfl

theorem printFactor_ends (hk : 2 ^ 32 ≤ k) (hmin : -2 ^ 31 ≤ n) (hmax : n < 2 ^ 31) (h : n ∉ stuck) :
    ∃ out, printFactor k n = some out := by
  rw [mem_stuck hmax, not_or, not_and_or] at h
  obtain ⟨hne, hodd⟩ := h
  obtain ⟨d, hdiv, hdne, hdle, hhalf⟩ := divideOut_ends (d := ⟨n, []⟩) (i := 2) (k := k) le_rfl hne
    (by dsimp only; omega)
  have hexit := (While.run_invariant (I := fun _ => True) (fun _ _ _ _ _ => trivial) hdiv trivial).2
  have hdodd : d.n.tmod 2 ≠ 0 := of_decide_eq_false hexit
  have hsmall : d.n < 2 ^ 31 - 7 := by
    dsimp only at hdle hhalf
    obtain heq | hhalf := hhalf
    · rw [heq] at hdodd ⊢
      obtain hodd | hodd := hodd
      · exact absurd hdodd hodd
      · omega
    · omega
  obtain ⟨last, hsqrt⟩ := integerSqrt_ends hk hsmall
  have hlast := (integerSqrt_spec hsqrt).2.1
  obtain ⟨d', hodd'⟩ := divideOdd_ends hlast hdne (by dsimp only at hdle; omega) hk
  exact ⟨_, printFactor_eq hdiv hsqrt hodd'⟩

theorem printFactor_stuck (k : ℕ) (h : n ∈ stuck) : printFactor k n = none := by
  have hmax : n < 2 ^ 31 := by
    simp only [stuck, mem_cons, not_mem_nil, or_false] at h
    omega
  rw [mem_stuck hmax] at h
  obtain rfl | ⟨hodd, hn⟩ := h
  · rw [printFactor, divideOut_zero]
    rfl
  · have hdiv : divideOut k 2 ⟨n, []⟩ = some ⟨n, []⟩ := While.run_of_false k (decide_eq_false hodd)
    rw [printFactor, hdiv]
    change (integerSqrt k n).bind _ = _
    rw [integerSqrt_diverges k hn]
    rfl

theorem mapM_isSome {α β : Type} {f : α → Option β} {l : List α} :
    (∃ r, l.mapM f = some r) ↔ ∀ a ∈ l, ∃ b, f a = some b := by
  induction l with
  | nil => simp
  | cons a l ih =>
    rw [forall_mem_cons, ← ih, mapM_cons]
    cases f a with
    | none => simp
    | some b => cases l.mapM f <;> simp

theorem mainArg_stuck {arg : Str} (k : ℕ) (hc : checkInt arg = true)
    (h : (Split.atoi arg).toInt ∈ stuck) : mainArg k arg = none := by
  rw [mainArg, if_pos hc]
  dsimp only
  rw [printFactor_stuck k h]
  rfl

theorem mainArg_ends {arg : Str} (hk : 2 ^ 32 ≤ k)
    (h : checkInt arg = true → (Split.atoi arg).toInt ∉ stuck) : ∃ p, mainArg k arg = some p := by
  unfold mainArg
  split_ifs with hc
  · obtain ⟨out, hout⟩ := printFactor_ends hk (Split.atoi arg).le_toInt (Split.atoi arg).toInt_lt (h hc)
    refine ⟨.line (Split.atoi arg).toInt out, ?_⟩
    dsimp only
    rw [hout]
    rfl
  · exact ⟨_, rfl⟩

/-- `factor` exits exactly when no argument that it accepts reads as 0 or as one of the four odd
numbers from `2^31 - 7` on. -/
theorem factor_exits_iff (argv : List Str) : (∃ k out, main k argv = some out) ↔
    ∀ arg ∈ argv.drop 1, checkInt arg = true → (Split.atoi arg).toInt ∉ stuck := by
  constructor
  · rintro ⟨k, out, hmain⟩ arg harg hc hstuck
    obtain ⟨p, hp⟩ := mapM_isSome.mp ⟨out, hmain⟩ arg harg
    rw [mainArg_stuck k hc hstuck] at hp
    cases hp
  · intro h
    exact ⟨2 ^ 32, mapM_isSome.mpr fun arg harg => mainArg_ends le_rfl (h arg harg)⟩

/-- `factor 0` does not exit. -/
theorem factor_zero_loops : ¬∃ k out, main k [[102, 97, 99, 116, 111, 114], [48]] = some out := by
  rintro ⟨k, out, hmain⟩
  obtain ⟨p, hp⟩ := mapM_isSome.mp ⟨out, hmain⟩ [48] (by decide)
  rw [mainArg_stuck k rfl (by decide)] at hp
  cases hp

/-! ### The factors -/

/-- `ps` has been printed and `r` is left of `n`, when all divisors below `i` have been tried. -/
structure Trial (n i r : ℕ) (ps : List ℕ) : Prop where
  prod : r * ps.prod = n
  prime : ∀ p ∈ ps, p.Prime
  sorted : ps.Pairwise (· ≤ ·)
  le : ∀ p ∈ ps, p ≤ i
  tried : ∀ p, p.Prime → p < i → ¬p ∣ r

namespace Trial

variable {n i r : ℕ} {ps : List ℕ}

theorem divide (h : Trial n i r ps) (hi : 2 ≤ i) (hdvd : i ∣ r) : Trial n i (r / i) (ps ++ [i]) where
  prod := by
    rw [prod_append, prod_singleton, ← h.prod, mul_comm ps.prod, ← mul_assoc,
      Nat.div_mul_cancel hdvd]
  prime := by
    intro p hp
    obtain hp | hp := mem_append.mp hp
    · exact h.prime p hp
    · obtain rfl := mem_singleton.mp hp
      have hmin : p.minFac.Prime := Nat.minFac_prime (by omega)
      have hge : ¬p.minFac < p := fun hlt => h.tried _ hmin hlt (p.minFac_dvd.trans hdvd)
      rwa [← (Nat.minFac_le (by omega)).antisymm (not_lt.mp hge)]
  sorted := by
    rw [pairwise_append]
    refine ⟨h.sorted, pairwise_singleton _ _, fun p hp q hq => ?_⟩
    obtain rfl := mem_singleton.mp hq
    exact h.le p hp
  le := by
    intro p hp
    obtain hp | hp := mem_append.mp hp
    · exact h.le p hp
    · exact (mem_singleton.mp hp).le
  tried := fun p hp hlt hdiv => h.tried p hp hlt (hdiv.trans (Nat.div_dvd_of_dvd hdvd))

theorem next (h : Trial n i r ps) (hno : ¬(i.Prime ∧ i ∣ r)) : Trial n (i + 1) r ps where
  prod := h.prod
  prime := h.prime
  sorted := h.sorted
  le := fun p hp => (h.le p hp).trans (Nat.le_succ i)
  tried := by
    intro p hp hlt hdvd
    obtain hlt | rfl := Nat.lt_succ_iff_lt_or_eq.mp hlt
    · exact h.tried p hp hlt hdvd
    · exact hno ⟨hp, hdvd⟩

theorem rest_prime (h : Trial n i r ps) (hr : 2 ≤ r) (hlt : r < i * i) : r.Prime := by
  by_contra hnot
  have hmin : r.minFac.Prime := Nat.minFac_prime (by omega)
  have hsq : r.minFac * r.minFac ≤ r := by
    have := Nat.minFac_sq_le_self (by omega) hnot
    rwa [sq] at this
  have hi : r.minFac < i := Nat.mul_self_lt_mul_self_iff.mp (lt_of_le_of_lt hsq hlt)
  exact h.tried _ hmin hi r.minFac_dvd

end Trial

def stateOf (r : ℕ) (ps : List ℕ) : State := ⟨r, ps.map Int.ofNat⟩

theorem divideOut_spec {m i r : ℕ} {ps : List ℕ} (h : Trial m i r ps) (hi : 2 ≤ i)
    (hrun : divideOut k i (stateOf r ps) = some d) :
    ∃ r' ps', d = stateOf r' ps' ∧ Trial m (i + 1) r' ps' ∧ r' ≤ r := by
  have hstep : ∀ e e', (∃ r' ps', e = stateOf r' ps' ∧ Trial m i r' ps' ∧ r' ≤ r) →
      decide (e.n.tmod i = 0) = true → some (⟨e.n.tdiv i, e.out ++ [(i : ℤ)]⟩ : State) = some e' →
      ∃ r' ps', e' = stateOf r' ps' ∧ Trial m i r' ps' ∧ r' ≤ r := by
    rintro e e' ⟨r', ps', rfl, ht, hle⟩ hc he
    obtain rfl := Option.some.inj he
    have hdvd : i ∣ r' := Int.natCast_dvd_natCast.mp (Int.dvd_of_tmod_eq_zero (of_decide_eq_true hc))
    refine ⟨r' / i, ps' ++ [i], ?_, ht.divide hi hdvd, (Nat.div_le_self r' i).trans hle⟩
    simp [stateOf]
  obtain ⟨⟨r', ps', rfl, ht, hle⟩, hexit⟩ := While.run_invariant hstep hrun ⟨r, ps, rfl, h, le_rfl⟩
  refine ⟨r', ps', rfl, ht.next fun hp => ?_, hle⟩
  exact of_decide_eq_false hexit (Int.tmod_eq_zero_of_dvd (Int.natCast_dvd_natCast.mpr hp.2))

theorem divideOdd_spec {m r : ℕ} {ps : List ℕ} (h : Trial m 3 r ps)
    (hlast : last < rootOfMax) (hrun : divideOdd k last (stateOf r ps) = some d) :
    ∃ (i r' : ℕ) (ps' : List ℕ), d = stateOf r' ps' ∧ Trial m i r' ps' ∧ r' ≤ r ∧ 3 ≤ i ∧ last < i := by
  have hroot : rootOfMax < 2 ^ 30 := by decide
  have hstep : ∀ x y : ℤ × State, (∃ (i r' : ℕ) (ps' : List ℕ), x = ((i : ℤ), stateOf r' ps') ∧ 3 ≤ i ∧ i % 2 = 1 ∧
        Trial m i r' ps' ∧ r' ≤ r) → decide (x.1 ≤ last) = true →
      (divideOut k x.1 x.2).map (fun d => (wrap (x.1 + 2), d)) = some y →
      ∃ (i r' : ℕ) (ps' : List ℕ), y = ((i : ℤ), stateOf r' ps') ∧ 3 ≤ i ∧ i % 2 = 1 ∧
        Trial m i r' ps' ∧ r' ≤ r := by
    rintro x y ⟨i, r', ps', rfl, h3, hodd, ht, hle⟩ hc hy
    have hc : (i : ℤ) ≤ last := of_decide_eq_true hc
    obtain ⟨d', hdiv, rfl⟩ := Option.map_eq_some_iff.mp hy
    obtain ⟨r'', ps'', rfl, ht', hle'⟩ := divideOut_spec ht (by omega) hdiv
    have heven : ¬((i + 1).Prime ∧ i + 1 ∣ r'') := by
      rintro ⟨hp, -⟩
      have := hp.eq_one_or_self_of_dvd 2 (by omega)
      omega
    refine ⟨i + 2, r'', ps'', ?_, by omega, by omega, ht'.next heven, hle'.trans hle⟩
    rw [wrap_of_lt (by omega) (by omega)]
    rfl
  obtain ⟨x, hrun, hx⟩ := Option.bind_eq_some_iff.mp hrun
  obtain ⟨⟨i, r', ps', rfl, h3, -, ht, hle⟩, hexit⟩ :=
    While.run_invariant hstep hrun ⟨3, r, ps, rfl, le_rfl, rfl, h, le_rfl⟩
  obtain rfl := Option.some.inj hx
  exact ⟨i, r', ps', rfl, ht, hle, h3, not_le.mp (of_decide_eq_false hexit)⟩

theorem Trial.finish {m i r : ℕ} {ps : List ℕ} (h : Trial m i r ps) (hm : m ≠ 0) (hi : 3 ≤ i)
    (hlt : r < i * i) {qs : List ℕ} (hqs : qs = if 2 < r then ps ++ [r] else ps) :
    (∀ p ∈ qs, p.Prime) ∧ qs.Pairwise (· ≤ ·) ∧ qs.prod = m := by
  have hpos : r ≠ 0 := by
    rintro rfl
    exact hm (by rw [← h.prod, zero_mul])
  by_cases hr : 2 < r
  · rw [if_pos hr] at hqs
    subst hqs
    have hp := h.rest_prime (by omega) hlt
    have hge : i ≤ r := not_lt.mp fun hlt => h.tried r hp hlt dvd_rfl
    refine ⟨fun p hmem => ?_, ?_, ?_⟩
    · obtain hmem | hmem := mem_append.mp hmem
      · exact h.prime p hmem
      · rwa [mem_singleton.mp hmem]
    · rw [pairwise_append]
      refine ⟨h.sorted, pairwise_singleton _ _, fun p hmem q hq => ?_⟩
      rw [mem_singleton.mp hq]
      exact (h.le p hmem).trans hge
    · rw [prod_append, prod_singleton, mul_comm]
      exact h.prod
  · rw [if_neg hr] at hqs
    subst hqs
    have hne : r ≠ 2 := by
      rintro rfl
      exact h.tried 2 Nat.prime_two (by omega) dvd_rfl
    obtain rfl : r = 1 := by omega
    exact ⟨h.prime, h.sorted, by rw [← h.prod, one_mul]⟩

/-- Whenever `printFactor` returns, it has printed the prime factors in order. -/
theorem printFactor_primes {n : ℤ} (h2 : 2 ≤ n) (hmax : n ≤ 2 ^ 31 - 1) {k : ℕ} {out : List ℤ}
    (h : printFactor k n = some out) :
    (∀ p ∈ out, 0 ≤ p ∧ p.toNat.Prime) ∧ out.Pairwise (· ≤ ·) ∧ out.prod = n := by
  obtain ⟨m, rfl⟩ := Int.eq_ofNat_of_zero_le (show 0 ≤ n by omega)
  obtain ⟨d, hdiv, hrest⟩ := Option.bind_eq_some_iff.mp h
  obtain ⟨last, hsqrt, hrest⟩ := Option.bind_eq_some_iff.mp hrest
  obtain ⟨d', hodd, hout⟩ := Option.bind_eq_some_iff.mp hrest
  have hstart : Trial m 2 m [] := ⟨by simp, by simp, .nil, by simp, fun p hp hlt => by
    have := hp.two_le
    omega⟩
  obtain ⟨r, ps, rfl, ht, -⟩ := divideOut_spec hstart le_rfl hdiv
  obtain ⟨hlast, hsmall, hsq⟩ := integerSqrt_spec hsqrt
  obtain ⟨i, r', ps', rfl, ht', hle, h3, hi⟩ := divideOdd_spec ht hsmall hodd
  have hlt : r' < i * i := by
    have hsq' : (last + 1) * (last + 1) ≤ (i : ℤ) * i :=
      mul_le_mul (by omega) (by omega) (by omega) (by omega)
    have hr : (r : ℤ) < i * i := lt_of_lt_of_le hsq hsq'
    exact lt_of_le_of_lt hle (by exact_mod_cast hr)
  obtain ⟨hprime, hsorted, hprod⟩ := ht'.finish (by omega) h3 hlt rfl
  have hmap : out = (if 2 < r' then ps' ++ [r'] else ps').map Int.ofNat := by
    rw [← Option.some.inj hout]
    by_cases hr : 2 < r'
    · rw [if_pos hr, if_pos (show (stateOf r' ps').n > 2 from Int.ofNat_lt.mpr hr), map_append]
      rfl
    · rw [if_neg hr, if_neg (show ¬(stateOf r' ps').n > 2 from fun hlt => hr (Int.ofNat_lt.mp hlt))]
      rfl
  rw [hmap]
  refine ⟨fun p hp => ?_, ?_, ?_⟩
  · obtain ⟨q, hq, rfl⟩ := mem_map.mp hp
    exact ⟨Int.natCast_nonneg q, hprime q hq⟩
  · exact hsorted.map _ fun a b hab => Int.ofNat_le.mpr hab
  · rw [← hprod]
    exact (prod_hom _ (Nat.castRingHom ℤ)).symm ▸ rfl

theorem printFactor_primes_360 : printFactor 20 360 = some [2, 2, 2, 3, 3, 5] ∧
    (∀ p ∈ ([2, 2, 2, 3, 3, 5] : List ℤ), 0 ≤ p ∧ p.toNat.Prime) ∧
    ([2, 2, 2, 3, 3, 5] : List ℤ).prod = 360 :=
  ⟨by decide, (printFactor_primes (n := 360) (k := 20) (by decide) (by decide) (by decide)).1,
    (printFactor_primes (n := 360) (k := 20) (by decide) (by decide) (by decide)).2.2⟩

/-! ### Reading numbers -/

theorem atoi_eq {s : Str} (h : checkInt s = true) : Split.atoi s = BitVec.ofNat 32 (value s) := by
  have hall : s.takeWhile (fun c => 48 ≤ c && c ≤ 57) = s :=
    takeWhile_eq_self_iff.mpr fun c hc => all_eq_true.mp h c hc
  have hfold : ∀ (s : Str) (n : ℕ), s.foldl (fun (n : BitVec 32) c => n * 10 + (c.toNat - 48 : ℕ))
      (BitVec.ofNat 32 n) = BitVec.ofNat 32 (s.foldl (fun n c => n * 10 + (c.toNat - 48)) n) := by
    intro s
    induction s with
    | nil => exact fun _ => rfl
    | cons c s ih =>
      intro n
      rw [foldl_cons, foldl_cons, ← ih, BitVec.ofNat_add, BitVec.ofNat_mul]
      rfl
  rw [Split.atoi, hall]
  exact hfold s 0

/-- An accepted argument is read as the number it denotes exactly when that fits in an `int`. -/
theorem atoi_faithful_iff {s : Str} (h : checkInt s = true ∨ Split.checkInt s = true) :
    (Split.atoi s).toInt = value s ↔ value s < 2 ^ 31 := by
  have hs : checkInt s = true := h.elim id id
  rw [atoi_eq hs, BitVec.toInt_eq_toNat_bmod, BitVec.toNat_ofNat, Int.bmod_def]
  omega

theorem atoi_faithful_1000 : (Split.atoi [49, 48, 48, 48]).toInt = 1000 :=
  (atoi_faithful_iff (s := [49, 48, 48, 48]) (.inl rfl)).mpr (by decide)

/-- `factor 4294967298` factors 2, and `split -l 4294967297` puts one line into a part. -/
theorem atoi_wraps : main 3 [[], [52, 50, 57, 52, 57, 54, 55, 50, 57, 56]] = some [.line 2 [2]] ∧
    value [52, 50, 57, 52, 57, 54, 55, 50, 57, 56] = 4294967298 ∧
    Split.options [[], Split.optL, [52, 50, 57, 52, 57, 54, 55, 50, 57, 55], [102]] = .ok ⟨1, 2, 3⟩ ∧
    value [52, 50, 57, 52, 57, 54, 55, 50, 57, 55] = 4294967297 := by
  decide

end Xv6.Factor
