import Mathlib.Tactic

/-! Sums and counts over a finite family, one member of which is replaced. -/

open Function Finset

namespace Count

variable {ι κ β : Type} [Fintype ι] [DecidableEq ι]

theorem sum_update (g : ι → ℤ) (i : ι) (x : ℤ) : ∑ j, update g i x j = ∑ j, g j + (x - g i) := by
  rw [sum_update_of_mem (mem_univ i), sdiff_singleton_eq_erase,
    ← add_sum_erase univ g (mem_univ i)]
  ring

theorem sum_update_apply (g : ι → κ → ℤ) (i : ι) (x : κ → ℤ) (c : κ) :
    ∑ j, update g i x j c = ∑ j, g j c + (x c - g i c) := by
  rw [← sum_update (fun j => g j c) i (x c)]
  refine sum_congr rfl fun j _ => ?_
  by_cases hj : j = i
  · subst hj
    rw [update_self, update_self]
  · rw [update_of_ne hj, update_of_ne hj]

theorem card_filter_update (P : β → Prop) [DecidablePred P] (g : ι → β) (i : ι) (x : β) :
    ((univ.filter fun j => P (update g i x j)).card : ℤ) =
      (univ.filter fun j => P (g j)).card + ((if P x then 1 else 0) - if P (g i) then 1 else 0) := by
  have hcard : ∀ h : ι → β, ((univ.filter fun j => P (h j)).card : ℤ) =
      ∑ j, if P (h j) then 1 else 0 := fun h => by
    rw [card_filter]
    push_cast
    rfl
  rw [hcard, hcard, ← sum_update (fun j => if P (g j) then (1 : ℤ) else 0) i]
  refine sum_congr rfl fun j _ => ?_
  by_cases hj : j = i
  · subst hj
    rw [update_self, update_self]
  · rw [update_of_ne hj, update_of_ne hj]

theorem add_le_sum {g : ι → ℤ} (h : ∀ j, 0 ≤ g j) {i j : ι} (hij : i ≠ j) :
    g i + g j ≤ ∑ l, g l := by
  rw [← add_sum_erase univ g (mem_univ i)]
  have := single_le_sum (f := g) (fun l _ => h l)
    (mem_erase.mpr ⟨hij.symm, mem_univ j⟩)
  omega

end Count
