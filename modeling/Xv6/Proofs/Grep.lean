import Xv6.Spec.Grep

/-! The matcher of `grep` against the language of its patterns. -/

namespace Xv6.Grep

inductive Denotes : Str → Str → Str → Prop
  | nil {rest : Str} : Denotes [] [] rest
  | star {c : UInt8} {re ws w rest : Str} (hws : ∀ t ∈ ws, t = c ∨ c = dot)
      (h : Denotes re w rest) : Denotes (c :: Grep.star :: re) (ws ++ w) rest
  | eol : Denotes [dollar] [] []
  | char {c t : UInt8} {re w rest : Str} (hstar : re.head? ≠ some Grep.star)
      (heol : ¬(c = dollar ∧ re = [])) (hc : c = dot ∨ c = t) (h : Denotes re w rest) :
      Denotes (c :: re) (t :: w) rest

theorem matchstar_iff {here : Str → Bool} {c : UInt8} {text : Str} : matchstar here c text = true ↔
      ∃ ws rest, text = ws ++ rest ∧ (∀ t ∈ ws, t = c ∨ c = dot) ∧ here rest = true := by
  induction text with
  | nil => simp [matchstar]
  | cons t text ih =>
    rw [matchstar]
    constructor
    · intro h
      split_ifs at h with hhere ht
      · exact ⟨[], t :: text, rfl, nofun, hhere⟩
      · obtain ⟨ws, rest, rfl, hws, hrest⟩ := ih.mp h
        exact ⟨t :: ws, rest, rfl, List.forall_mem_cons.mpr ⟨ht, hws⟩, hrest⟩
    · rintro ⟨ws, rest, heq, hws, hrest⟩
      cases ws with
      | nil =>
        obtain rfl : t :: text = rest := heq
        rw [if_pos hrest]
      | cons t' ws =>
        obtain ⟨rfl, rfl⟩ := List.cons.inj heq
        obtain ⟨ht, hws⟩ := List.forall_mem_cons.mp hws
        rw [if_pos ht, ih.mpr ⟨ws, rest, rfl, hws, hrest⟩, ite_self]

theorem matchchar_iff {re : Str} {c : UInt8} {text : Str} (hstar : re.head? ≠ some star)
    (heol : ¬(c = dollar ∧ re = []))
    (ih : ∀ text, matchhere re text = true ↔ ∃ w rest, text = w ++ rest ∧ Denotes re w rest) :
    matchchar (matchhere re) c text = true ↔
      ∃ w rest, text = w ++ rest ∧ Denotes (c :: re) w rest := by
  constructor
  · intro h
    cases text with
    | nil => exact nomatch h
    | cons t text =>
      rw [matchchar] at h
      split_ifs at h with hc
      obtain ⟨w, rest, rfl, hd⟩ := (ih text).mp h
      exact ⟨t :: w, rest, rfl, .char hstar heol hc hd⟩
  · rintro ⟨w, rest, rfl, hd⟩
    cases hd with
    | star => exact absurd rfl hstar
    | eol => exact absurd ⟨rfl, rfl⟩ heol
    | char _ _ hc hd =>
      rw [List.cons_append, matchchar, if_pos hc]
      exact (ih _).mpr ⟨_, _, rfl, hd⟩

theorem matchhere_iff (re text : Str) :
    matchhere re text = true ↔ ∃ w rest, text = w ++ rest ∧ Denotes re w rest := by
  induction hn : re.length using Nat.strong_induction_on generalizing re text with
  | _ n ih =>
    match re with
    | [] => exact ⟨fun _ => ⟨[], text, rfl, .nil⟩, fun _ => rfl⟩
    | [c] =>
      rw [matchhere]
      split_ifs with hc
      · subst hc
        rw [decide_eq_true_iff]
        constructor
        · rintro rfl
          exact ⟨[], [], rfl, .eol⟩
        · rintro ⟨w, rest, rfl, hd⟩
          cases hd with
          | eol => rfl
          | char _ hne => exact absurd ⟨rfl, rfl⟩ hne
      · exact matchchar_iff nofun (fun h => hc h.1) fun text => ih 0 (by simp [← hn]) [] text rfl
    | c :: s :: re =>
      rw [matchhere]
      split_ifs with hs
      · subst hs
        have ih := fun text => ih re.length (by simp [← hn]) re text rfl
        rw [matchstar_iff]
        constructor
        · rintro ⟨ws, rest, rfl, hws, hrest⟩
          obtain ⟨w, rest, rfl, hd⟩ := (ih rest).mp hrest
          exact ⟨ws ++ w, rest, (List.append_assoc ..).symm, .star hws hd⟩
        · rintro ⟨w, rest, rfl, hd⟩
          cases hd with
          | star hws hd =>
            exact ⟨_, _, List.append_assoc .., hws, (ih _).mpr ⟨_, _, rfl, hd⟩⟩
          | char hns => exact absurd rfl hns
      · refine matchchar_iff (fun h => hs (Option.some.inj h)) (fun h => nomatch h.2) fun text => ?_
        exact ih (re.length + 1) (by simp [← hn]) (s :: re) text rfl

theorem matchFrom_iff (re text : Str) : matchFrom re text = true ↔
    ∃ pre rest, text = pre ++ rest ∧ matchhere re rest = true := by
  induction text with
  | nil => simp [matchFrom]
  | cons t text ih =>
    rw [matchFrom]
    constructor
    · intro h
      split_ifs at h with hhere
      · exact ⟨[], t :: text, rfl, hhere⟩
      · obtain ⟨pre, rest, rfl, hrest⟩ := ih.mp h
        exact ⟨t :: pre, rest, rfl, hrest⟩
    · rintro ⟨pre, rest, heq, hrest⟩
      cases pre with
      | nil =>
        obtain rfl : t :: text = rest := heq
        rw [if_pos hrest]
      | cons t' pre =>
        obtain ⟨rfl, rfl⟩ := List.cons.inj heq
        rw [ih.mpr ⟨pre, rest, rfl, hrest⟩, ite_self]

/-- `match` finds the texts that contain a match of the pattern, at their beginning if it starts
with `^`. -/
theorem match_iff_denotes (re text : Str) : matchRegexp re text = true ↔
    if re.head? = some caret then ∃ w rest, text = w ++ rest ∧ Denotes re.tail w rest
    else ∃ pre w rest, text = pre ++ w ++ rest ∧ Denotes re w rest := by
  unfold matchRegexp
  split_ifs with hcaret
  · exact matchhere_iff _ _
  · rw [matchFrom_iff]
    constructor
    · rintro ⟨pre, rest, rfl, h⟩
      obtain ⟨w, rest, rfl, hd⟩ := (matchhere_iff _ _).mp h
      exact ⟨pre, w, rest, (List.append_assoc ..).symm, hd⟩
    · rintro ⟨pre, w, rest, rfl, hd⟩
      exact ⟨pre, w ++ rest, List.append_assoc .., (matchhere_iff _ _).mpr ⟨w, rest, rfl, hd⟩⟩

end Xv6.Grep
