import Xv6.Lib.LinkList

/-! A queue through pointers, the way `for(pp = &head; *pp; pp = &(*pp)->next)` sees it: `cell none` is
the head pointer and `cell (some i)` the `next` pointer of node `i`. -/

open Function

namespace LinkList

variable {ι : Type} {cell : Option ι → Option ι} {q : List ι} {a : Option ι} {i : ι} {fuel : ℕ}

def Queue (cell : Option ι → Option ι) (q : List ι) : Prop := Links cell (none :: q.map some) none

theorem walk_last (h : Links cell (a :: q.map some) none) (hfuel : q.length < fuel) :
    walk cell (fun pp => (cell pp).isNone) fuel a = some ((q.map some).getLastD a) := by
  induction q generalizing a fuel with
  | nil =>
    obtain ⟨fuel, rfl⟩ := Nat.exists_eq_add_one_of_ne_zero (Nat.ne_zero_of_lt hfuel)
    have ha : cell a = none := h.1
    simp [walk, ha]
  | cons j q ih =>
    obtain ⟨fuel, rfl⟩ := Nat.exists_eq_add_one_of_ne_zero (Nat.ne_zero_of_lt hfuel)
    have ha : cell a = some j := h.1
    rw [walk, ha, Option.isNone_some, if_neg Bool.false_ne_true, List.map_cons, List.getLastD_cons]
    exact ih h.2 (Nat.lt_of_succ_lt_succ hfuel)

theorem getLastD_mem (q : List ι) (a : Option ι) : (q.map some).getLastD a ∈ a :: q.map some := by
  induction q generalizing a with
  | nil => exact List.mem_cons_self
  | cons j q ih =>
    rw [List.map_cons, List.getLastD_cons]
    exact List.mem_cons_of_mem _ (ih (some j))

theorem Queue.head (h : Queue cell q) : cell none = q.head? := by
  cases q with
  | nil => exact h.1
  | cons i q => exact h.1

variable [DecidableEq ι]

theorem links_snoc (h : Links cell (a :: q.map some) none) (hnodup : (a :: q.map some).Nodup)
    (hi : cell (some i) = none) (hnew : some i ∉ a :: q.map some) :
    Links (update cell ((q.map some).getLastD a) (some i)) (a :: (q ++ [i]).map some) none := by
  induction q generalizing a with
  | nil =>
    have hne : some i ≠ a := fun he => hnew (he ▸ List.mem_cons_self)
    refine ⟨update_self .., ?_, trivial⟩
    exact (update_of_ne hne ..).trans hi
  | cons j q ih =>
    obtain ⟨ha, hrest⟩ := h
    obtain ⟨hnot, hnodup'⟩ := List.nodup_cons.mp hnodup
    rw [List.map_cons, List.getLastD_cons]
    have hne : a ≠ (q.map some).getLastD (some j) := fun he => hnot (he ▸ getLastD_mem q (some j))
    exact ⟨(update_of_ne hne ..).trans ha,
      ih hrest hnodup' fun hmem => hnew (List.mem_cons_of_mem _ hmem)⟩

theorem Queue.push (h : Queue cell q) (hnodup : q.Nodup) (hi : i ∉ q) (hfuel : q.length < fuel) :
    ∃ pp, walk (update cell (some i) none)
        (fun pp => (update cell (some i) none pp).isNone) fuel none = some pp ∧
      Queue (update (update cell (some i) none) pp (some i)) (q ++ [i]) := by
  have hnew : some i ∉ none :: q.map some := by simpa using hi
  have hcleared : Links (update cell (some i) none) (none :: q.map some) none := by
    apply Links.congr h
    intro b hb
    have hne : b ≠ some i := by
      rintro rfl
      exact hnew hb
    exact update_of_ne hne ..
  have hnodup' : (none :: q.map some).Nodup :=
    List.nodup_cons.mpr ⟨by simp, hnodup.map (Option.some_injective ι)⟩
  exact ⟨_, walk_last hcleared hfuel,
    links_snoc hcleared hnodup' (update_self ..) hnew⟩

theorem Queue.pop (h : Queue cell (i :: q)) : Queue (update cell none (cell (some i))) q := by
  obtain ⟨-, hi, hrest⟩ := h
  refine ⟨(update_self ..).trans hi, ?_⟩
  apply Links.congr hrest
  intro b hb
  apply update_of_ne
  rintro rfl
  simp at hb

end LinkList
