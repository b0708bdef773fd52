import Mathlib.Tactic

/-! Sequences of atomic, ordered writes to an addressed store. A crash keeps a
prefix of the sequence, so what survives a crash is what holds after every
prefix. -/

open Function

namespace Writes

variable {A V : Type} [DecidableEq A]

def apply (ws : List (A × V)) (d : A → V) : A → V :=
  ws.foldl (fun d w => Function.update d w.1 w.2) d

@[simp] theorem apply_nil (d : A → V) : apply [] d = d := rfl

@[simp] theorem apply_cons (w : A × V) (ws : List (A × V)) (d : A → V) :
    apply (w :: ws) d = apply ws (update d w.1 w.2) := rfl

theorem apply_append (ws vs : List (A × V)) (d : A → V) :
    apply (ws ++ vs) d = apply vs (apply ws d) := by
  simp [apply, List.foldl_append]

/-- A predicate that every write of the sequence preserves holds after each of
its prefixes. -/
theorem apply_take_induct {P : (A → V) → Prop} {ws : List (A × V)}
    (hstep : ∀ w ∈ ws, ∀ d, P d → P (update d w.1 w.2)) {d : A → V} (h : P d) (k : ℕ) :
    P (apply (ws.take k) d) := by
  induction ws generalizing d k with
  | nil => simpa using h
  | cons w ws ih =>
    cases k with
    | zero => simpa using h
    | succ k =>
      rw [List.take_succ_cons, apply_cons]
      exact ih (fun v hv => hstep v (List.mem_cons_of_mem _ hv))
        (hstep w List.mem_cons_self d h) k

theorem apply_induct {P : (A → V) → Prop} {ws : List (A × V)}
    (hstep : ∀ w ∈ ws, ∀ d, P d → P (update d w.1 w.2)) {d : A → V} (h : P d) : P (apply ws d) := by
  simpa using apply_take_induct hstep h ws.length

theorem apply_of_not_mem {ws : List (A × V)} {d : A → V} {a : A} (h : a ∉ ws.map Prod.fst) :
    apply ws d a = d a := by
  refine apply_induct (P := fun d' => d' a = d a) ?_ rfl
  intro w hw d' hd'
  have hne : a ≠ w.1 := fun he => h (he ▸ List.mem_map_of_mem hw)
  rw [update_of_ne hne, hd']

/-- When every write to an address carries one value, that value is there at
the end if the address was written at all. -/
theorem apply_of_mem {ws : List (A × V)} {d : A → V} {a : A} {v : V}
    (hmem : a ∈ ws.map Prod.fst) (huniq : ∀ w ∈ ws, w.1 = a → w.2 = v) : apply ws d a = v := by
  induction ws generalizing d with
  | nil => simp at hmem
  | cons w ws ih =>
    rw [apply_cons]
    by_cases hin : a ∈ ws.map Prod.fst
    · exact ih hin fun u hu => huniq u (List.mem_cons_of_mem _ hu)
    · rw [apply_of_not_mem hin]
      have ha : w.1 = a := by
        rw [List.map_cons, List.mem_cons] at hmem
        exact (hmem.resolve_right hin).symm
      rw [← huniq w List.mem_cons_self ha, ha, update_self]

end Writes
