import Mathlib.Tactic

/-! Runs of a partial step function, and the one induction over them. A run may be
restricted to steps that meet a condition on the state before the step. -/

namespace Trans

variable {σ α : Type} {step : σ → α → Option σ} {C D : σ → α → Prop} {s s' : σ} {acts : List α}

/-- `Run step C s acts s'`: the actions `acts` lead from `s` to `s'`, each taken in a state
where it meets `C`. -/
inductive Run (step : σ → α → Option σ) (C : σ → α → Prop) : σ → List α → σ → Prop where
  | nil (s : σ) : Run step C s [] s
  | snoc {s s' s'' : σ} {acts : List α} {a : α} (hrun : Run step C s acts s') (hc : C s' a)
      (hstep : step s' a = some s'') : Run step C s (acts ++ [a]) s''

def Any (_ : σ) (_ : α) : Prop := True

theorem Run.induct {I : σ → Prop} (hrun : Run step C s acts s') (h : I s)
    (hI : ∀ s a s', I s → C s a → step s a = some s' → I s') : I s' := by
  induction hrun with
  | nil => exact h
  | snoc _ hc hstep ih => exact hI _ _ _ ih hc hstep

theorem Run.mono (hCD : ∀ s a, C s a → D s a) (hrun : Run step C s acts s') :
    Run step D s acts s' := by
  induction hrun with
  | nil => exact .nil _
  | snoc _ hc hstep ih => exact .snoc ih (hCD _ _ hc) hstep

theorem Run.append {s'' : σ} {acts' : List α} (h : Run step C s acts s')
    (h' : Run step C s' acts' s'') : Run step C s (acts ++ acts') s'' := by
  induction h' with
  | nil => simpa using h
  | snoc _ hc hstep ih =>
    rw [← List.append_assoc]
    exact .snoc ih hc hstep

theorem Run.and_mem {Q : α → Prop} (h : Run step C s acts s') (hQ : ∀ a ∈ acts, Q a) :
    Run step (fun s a => C s a ∧ Q a) s acts s' := by
  induction h with
  | nil => exact .nil _
  | snoc _ hc hstep ih =>
    exact .snoc (ih fun a ha => hQ a (List.mem_append_left _ ha)) ⟨hc, hQ _ (by simp)⟩ hstep

theorem Run.snoc_inv {a : α} {s'' : σ} (h : Run step C s (acts ++ [a]) s'') :
    ∃ s', Run step C s acts s' ∧ C s' a ∧ step s' a = some s'' := by
  generalize hb : acts ++ [a] = acts' at h
  cases h with
  | nil => simp at hb
  | snoc hrun hc hstep =>
    obtain ⟨rfl, rfl⟩ : acts = _ ∧ a = _ := by simpa using hb
    exact ⟨_, hrun, hc, hstep⟩

theorem Run.deterministic {t : σ} (h : Run step C s acts s') (h' : Run step D s acts t) :
    s' = t := by
  induction h generalizing t with
  | nil =>
    generalize hb : ([] : List α) = acts' at h'
    cases h' with
    | nil => rfl
    | snoc => simp at hb
  | snoc _ _ hstep ih =>
    obtain ⟨u, hu, -, hstep'⟩ := h'.snoc_inv
    obtain rfl := ih hu
    exact Option.some.inj (hstep.symm.trans hstep')

theorem Run.and (h : Run step C s acts s') (h' : Run step D s acts s') :
    Run step (fun s a => C s a ∧ D s a) s acts s' := by
  induction h with
  | nil => exact .nil _
  | snoc hrun hc hstep ih =>
    obtain ⟨t, ht, hd, -⟩ := h'.snoc_inv
    obtain rfl := hrun.deterministic ht
    exact .snoc (ih ht) ⟨hc, hd⟩ hstep

/-- Execute the actions in order, each of which has to pass the test `c`. -/
def exec (step : σ → α → Option σ) (c : σ → α → Bool) : σ → List α → Option σ
  | s, [] => some s
  | s, a :: acts => if c s a then (step s a).bind (exec step c · acts) else none

theorem Run.of_exec {c : σ → α → Bool} (hc : ∀ s a, c s a = true → C s a)
    (h : exec step c s acts = some s') : Run step C s acts s' := by
  induction acts generalizing s with
  | nil =>
    simp only [exec, Option.some.injEq] at h
    subst h
    exact .nil s
  | cons a acts ih =>
    simp only [exec] at h
    split_ifs at h with hca
    obtain ⟨s1, h1, h2⟩ := Option.bind_eq_some_iff.mp h
    exact (Run.snoc (.nil s) (hc s a hca) h1).append (ih h2)

theorem Run.of_exec_any {c : σ → α → Bool} {q : σ → Bool} (hc : ∀ s a, c s a = true → C s a)
    (h : (exec step c s acts).any q = true) : ∃ s', Run step C s acts s' ∧ q s' = true := by
  obtain ⟨s', hs, hq⟩ := (Option.any_eq_true q _).mp h
  exact ⟨s', .of_exec hc hs, hq⟩

end Trans
