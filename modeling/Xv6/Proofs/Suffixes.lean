import Xv6.Proofs.Split

/-! `nextSuffix` counts in base 26, and so enumerates the suffixes of each length in order. -/

namespace Xv6.Split

open List

variable {a i j : ℕ} {s : Str} {text : UInt8}

def number : Str → ℕ
  | [] => 0
  | c :: s => letters.idxOf c * 26 ^ s.length + number s

def Lower (s : Str) : Prop := ∀ c ∈ s, c ∈ letters

theorem lower_cons {c : UInt8} : Lower (c :: s) ↔ c ∈ letters ∧ Lower s := forall_mem_cons

theorem length_nthSuffix (a i : ℕ) : (nthSuffix a i).length = a := by
  induction a generalizing i with
  | zero => rfl
  | succ a ih => rw [nthSuffix, length_cons, ih]

theorem digit_lt (hi : i < 26 ^ (a + 1)) : i / 26 ^ a < 26 :=
  Nat.div_lt_of_lt_mul (by rwa [← pow_succ])

theorem lower_nthSuffix (hi : i < 26 ^ a) : Lower (nthSuffix a i) := by
  induction a generalizing i with
  | zero => exact fun _ hc => nomatch hc
  | succ a ih =>
    have hall : ∀ d : Fin 26, letters.getD d 0 ∈ letters := by decide
    exact lower_cons.mpr ⟨hall ⟨_, digit_lt hi⟩, ih (Nat.mod_lt _ (by positivity))⟩

theorem number_lt (h : Lower s) : number s < 26 ^ s.length := by
  induction s with
  | nil => exact Nat.one_pos
  | cons c s ih =>
    obtain ⟨hc, hs⟩ := lower_cons.mp h
    have hidx : letters.idxOf c + 1 ≤ 26 := idxOf_lt_length_of_mem hc
    have hmul := Nat.mul_le_mul_right (26 ^ s.length) hidx
    have hlt := ih hs
    rw [number, length_cons, pow_succ']
    rw [Nat.add_mul, Nat.one_mul] at hmul
    omega

theorem nthSuffix_number (h : Lower s) : nthSuffix s.length (number s) = s := by
  induction s with
  | nil => rfl
  | cons c s ih =>
    obtain ⟨hc, hs⟩ := lower_cons.mp h
    have hget : ∀ c ∈ letters, letters.getD (letters.idxOf c) 0 = c := by decide +kernel
    rw [length_cons, nthSuffix, number, Nat.add_comm, Nat.add_mul_div_right _ _ (by positivity),
      Nat.div_eq_of_lt (number_lt hs), Nat.zero_add, hget c hc, Nat.add_mul_mod_self_right,
      Nat.mod_eq_of_lt (number_lt hs), ih hs]

theorem number_nthSuffix (hi : i < 26 ^ a) : number (nthSuffix a i) = i := by
  induction a generalizing i with
  | zero => exact (Nat.lt_one_iff.mp hi).symm
  | succ a ih =>
    have hidx : ∀ d : Fin 26, letters.idxOf (letters.getD d 0) = d := by decide
    rw [nthSuffix, number, length_nthSuffix, ih (Nat.mod_lt _ (by positivity)),
      hidx ⟨_, digit_lt hi⟩, Nat.mul_comm]
    exact Nat.div_add_mod i _

theorem nthSuffix_lt (hij : i < j) (hj : j < 26 ^ a) : nthSuffix a i < nthSuffix a j := by
  induction a generalizing i j with
  | zero => omega
  | succ a ih =>
    have hlt : ∀ d e : Fin 26, d < e → letters.getD d 0 < letters.getD e 0 := by decide
    rw [nthSuffix, nthSuffix, cons_lt_cons_iff]
    rcases (Nat.div_le_div_right (c := 26 ^ a) hij.le).lt_or_eq with hd | hd
    · exact .inl (hlt ⟨_, digit_lt (hij.trans hj)⟩ ⟨_, digit_lt hj⟩ hd)
    · refine .inr ⟨by rw [hd], ih ?_ (Nat.mod_lt _ (by positivity))⟩
      have hi' := Nat.div_add_mod i (26 ^ a)
      have hj' := Nat.div_add_mod j (26 ^ a)
      rw [hd] at hi'
      omega

theorem Lower.nextSuffix (h : Lower s) : nextSuffix text s = nextChars text s := by
  have hall : 0 ∉ letters := by decide
  exact nextSuffix_eq fun h0 => hall (h 0 h0)

def visited (text : UInt8) (k i : ℕ) : Str := (fun s => (nextSuffix text s).2)^[i] (replicate k 97)

theorem visited_eq (hi : i < 26 ^ a) : visited text a i = nthSuffix a i := by
  have := @suffixAt_eq ⟨[], text⟩ a rfl i hi
  rwa [suffixAt, append_nil] at this

theorem carry_iff (h : Lower s) : (nextChars text s).1 = true ↔ ∀ c ∈ s, c = 122 := by
  induction s with
  | nil => simp [nextChars]
  | cons c s ih =>
    obtain ⟨hc, hs⟩ := lower_cons.mp h
    have hlast : (nextChar text c).1 = true ↔ c = 122 := by
      have hall : ∀ d : Fin 26, d.val + 1 = 26 ↔ letters.getD d 0 = 122 := by decide
      have hget : ∀ c ∈ letters, letters.getD (letters.idxOf c) 0 = c := by decide +kernel
      have hidx : letters.idxOf c < 26 := idxOf_lt_length_of_mem hc
      rw [← hget c hc, nextChar_letter hidx, ← hall ⟨_, hidx⟩]
      split_ifs with h <;> simp [h]
    rw [forall_mem_cons, ← ih hs, ← hlast, nextChars]
    split_ifs with hr
    · simp [hr]
    · simp [hr]

/-- From `a…a` on, `nextSuffix` visits the suffixes of each length in order and returns 1 after the
last; a call computes the successor. -/
theorem nextSuffix_enumerates (text : UInt8) :
    (∀ k, (∀ i < 26 ^ k, (nextSuffix text (visited text k i)).1 = true ↔ i = 26 ^ k - 1) ∧
      (∀ i j, i < j → j < 26 ^ k → visited text k i < visited text k j) ∧
      ∀ s, s.length = k ∧ Lower s ↔ ∃ i < 26 ^ k, visited text k i = s) ∧
    ∀ s, Lower s → (nextSuffix text s).2.length = s.length ∧ Lower (nextSuffix text s).2 ∧
      number (nextSuffix text s).2 = (number s + 1) % 26 ^ s.length ∧
      ((nextSuffix text s).1 = true ↔ ∀ c ∈ s, c = 122) := by
  refine ⟨fun k => ⟨fun i hi => ?_, fun i j hij hj => ?_, fun s => ⟨?_, ?_⟩⟩, fun s hs => ?_⟩
  · rw [visited_eq hi, nextSuffix_nth hi]
    split_ifs with hl
    · exact iff_of_true rfl (by omega)
    · exact iff_of_false id (by omega)
  · rw [visited_eq (hij.trans hj), visited_eq hj]
    exact nthSuffix_lt hij hj
  · rintro ⟨rfl, hs⟩
    exact ⟨number s, number_lt hs, (visited_eq (number_lt hs)).trans (nthSuffix_number hs)⟩
  · rintro ⟨i, hi, rfl⟩
    rw [visited_eq hi]
    exact ⟨length_nthSuffix k i, lower_nthSuffix hi⟩
  · have hlt := number_lt hs
    have hpos : 0 < 26 ^ s.length := by positivity
    have hnext : (nextSuffix text s).2 = nthSuffix s.length ((number s + 1) % 26 ^ s.length) := by
      rw [← nthSuffix_number hs, nextSuffix_nth hlt, nthSuffix_number hs]
      split_ifs with hl
      · rw [hl, Nat.mod_self]
      · rw [Nat.mod_eq_of_lt (by omega)]
    rw [hnext, hs.nextSuffix]
    exact ⟨length_nthSuffix _ _, lower_nthSuffix (Nat.mod_lt _ hpos),
      number_nthSuffix (Nat.mod_lt _ hpos), carry_iff hs⟩

end Xv6.Split
