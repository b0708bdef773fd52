import Mathlib.Tactic

/-! Loops that need not end. A loop runs with a bound on its rounds, and so do the loops in its body;
it ends when some bound is large enough. -/

namespace While

variable {σ : Type} {c : σ → Bool} {f : σ → Option σ} {I : σ → Prop} {k : ℕ} {s s' : σ}

def run (c : σ → Bool) (f : σ → Option σ) : ℕ → σ → Option σ
  | 0, s => if c s then none else some s
  | k + 1, s => if c s then (f s).bind (run c f k) else some s

theorem run_of_false (k : ℕ) (h : c s = false) : run c f k s = some s := by
  cases k with
  | zero => rw [run, h]; rfl
  | succ k => rw [run, h]; rfl

theorem run_invariant (hstep : ∀ s s', I s → c s = true → f s = some s' → I s')
    (hrun : run c f k s = some s') (h : I s) : I s' ∧ c s' = false := by
  induction k generalizing s with
  | zero =>
    rw [run] at hrun
    cases hc : c s with
    | true =>
      rw [hc] at hrun
      cases hrun
    | false =>
      rw [hc] at hrun
      obtain rfl := Option.some.inj hrun
      exact ⟨h, hc⟩
  | succ k ih =>
    rw [run] at hrun
    cases hc : c s with
    | true =>
      rw [hc, if_pos rfl] at hrun
      obtain ⟨s1, hf, hrest⟩ := Option.bind_eq_some_iff.mp hrun
      exact ih hrest (hstep s s1 h hc hf)
    | false =>
      rw [hc] at hrun
      obtain rfl := Option.some.inj hrun
      exact ⟨h, hc⟩

theorem run_ends (V : σ → ℕ)
    (hstep : ∀ s, I s → c s = true → ∃ s', f s = some s' ∧ I s' ∧ V s' < V s)
    (h : I s) (hk : V s ≤ k) : ∃ s', run c f k s = some s' ∧ I s' := by
  induction k generalizing s with
  | zero =>
    cases hc : c s with
    | true =>
      obtain ⟨s', -, -, hlt⟩ := hstep s h hc
      omega
    | false => exact ⟨s, run_of_false 0 hc, h⟩
  | succ k ih =>
    cases hc : c s with
    | true =>
      obtain ⟨s1, hf, h1, hlt⟩ := hstep s h hc
      obtain ⟨s', hrun, h'⟩ := ih h1 (by omega)
      refine ⟨s', ?_, h'⟩
      rw [run, hc, if_pos rfl, hf]
      exact hrun
    | false => exact ⟨s, run_of_false _ hc, h⟩

theorem run_diverges (hc : ∀ s, I s → c s = true) (hstep : ∀ s s', I s → f s = some s' → I s')
    (k : ℕ) (h : I s) : run c f k s = none := by
  induction k generalizing s with
  | zero => rw [run, hc s h]; rfl
  | succ k ih =>
    rw [run, hc s h, if_pos rfl]
    cases hf : f s with
    | none => rfl
    | some s' => exact ih (hstep s s' h hf)

end While
