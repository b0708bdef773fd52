import Mathlib.Tactic

/-! Computations over a mutable state that can halt. A halted computation keeps the state
it stopped in, so properties of the work done so far can be stated about it too. -/

/-- The outcome of a computation: a result, or the reason it stopped. -/
inductive Res (σ ε α : Type) where
  | ok (a : α) (s : σ)
  | halt (e : ε) (s : σ)

def Res.state {σ ε α : Type} : Res σ ε α → σ
  | .ok _ s => s
  | .halt _ s => s

def Exec (σ ε α : Type) : Type := σ → Res σ ε α

namespace Exec

variable {σ ε α β : Type}

def pure (a : α) : Exec σ ε α := fun s => .ok a s

def bind (m : Exec σ ε α) (f : α → Exec σ ε β) : Exec σ ε β := fun s =>
  match m s with
  | .ok a s' => f a s'
  | .halt e s' => .halt e s'

instance : Monad (Exec σ ε) where
  pure := pure
  bind := bind

theorem bind_apply (m : Exec σ ε α) (f : α → Exec σ ε β) (s : σ) : (m >>= f) s = match m s with
    | .ok a s' => f a s'
    | .halt e s' => .halt e s' := rfl

instance : LawfulMonad (Exec σ ε) := by
  refine LawfulMonad.mk' _ (fun m => ?_) (fun _ _ => rfl) fun m f g => ?_
  · funext s
    change (m >>= Pure.pure) s = m s
    rw [bind_apply]
    cases m s with
    | ok a s' => rfl
    | halt e s' => rfl
  · funext s
    rw [bind_apply, bind_apply, bind_apply]
    cases m s with
    | ok a s' => rfl
    | halt e s' => rfl

theorem bind_eq_ok {m : Exec σ ε α} {f : α → Exec σ ε β} {s s'' : σ} {b : β} :
    (m >>= f) s = .ok b s'' ↔ ∃ a s', m s = .ok a s' ∧ f a s' = .ok b s'' := by
  rw [bind_apply]
  cases m s <;> simp

def get : Exec σ ε σ := fun s => .ok s s

def modify (f : σ → σ) : Exec σ ε Unit := fun s => .ok () (f s)

def halt (e : ε) : Exec σ ε α := fun s => .halt e s

def zoom {τ : Type} (part : σ → τ) (put : τ → σ → σ) (m : Exec τ ε α) : Exec σ ε α := fun s =>
  match m (part s) with
  | .ok a t => .ok a (put t s)
  | .halt e t => .halt e (put t s)

/-- Every outcome of `m` from `s` satisfies `Q`, or `E` when it halts. -/
def wp (m : Exec σ ε α) (Q : α → σ → Prop) (E : ε → σ → Prop) (s : σ) : Prop :=
  match m s with
  | .ok a s' => Q a s'
  | .halt e s' => E e s'

variable {m : Exec σ ε α} {f : α → Exec σ ε β} {Q : α → σ → Prop} {E : ε → σ → Prop} {s : σ}

@[simp] theorem wp_pure (a : α) : wp (Pure.pure a : Exec σ ε α) Q E s ↔ Q a s := Iff.rfl

@[simp] theorem wp_get {Q : σ → σ → Prop} : wp get Q E s ↔ Q s s := Iff.rfl

@[simp] theorem wp_modify {Q : Unit → σ → Prop} (g : σ → σ) :
    wp (modify g) Q E s ↔ Q () (g s) := Iff.rfl

@[simp] theorem wp_halt (e : ε) : wp (halt e : Exec σ ε α) Q E s ↔ E e s := Iff.rfl

theorem wp_zoom {τ : Type} {part : σ → τ} {put : τ → σ → σ} {m : Exec τ ε α} :
    wp (zoom part put m) Q E s ↔
      wp m (fun a t => Q a (put t s)) (fun e t => E e (put t s)) (part s) := by
  unfold wp zoom
  cases m (part s) <;> rfl

theorem wp_bind {Q : β → σ → Prop} :
    wp (m >>= f) Q E s ↔ wp m (fun a s' => wp (f a) Q E s') E s := by
  unfold wp
  rw [bind_apply]
  cases m s <;> rfl

theorem wp.mono {Q' : α → σ → Prop} {E' : ε → σ → Prop} (h : wp m Q E s)
    (hQ : ∀ a s', Q a s' → Q' a s') (hE : ∀ e s', E e s' → E' e s') : wp m Q' E' s := by
  unfold wp at h ⊢
  split at h
  · exact hQ _ _ h
  · exact hE _ _ h

theorem wp.bind {R : α → σ → Prop} {Q : β → σ → Prop} (h : wp m R E s)
    (hf : ∀ a s', R a s' → wp (f a) Q E s') : wp (m >>= f) Q E s :=
  wp_bind.mpr (h.mono hf fun _ _ he => he)

theorem wp.and {Q' : α → σ → Prop} {E' : ε → σ → Prop} (h : wp m Q E s) (h' : wp m Q' E' s) :
    wp m (fun a s' => Q a s' ∧ Q' a s') (fun e s' => E e s' ∧ E' e s') s := by
  unfold wp at h h' ⊢
  split
  · rename_i heq
    rw [heq] at h h'
    exact ⟨h, h'⟩
  · rename_i heq
    rw [heq] at h h'
    exact ⟨h, h'⟩

theorem wp.of_ok {a : α} {s' : σ} (h : wp m Q E s) (hm : m s = .ok a s') : Q a s' := by
  unfold wp at h
  rw [hm] at h
  exact h

theorem wp.of_run (h : wp m (fun a s' => m s = .ok a s' → Q a s') E s) : wp m Q E s := by
  unfold wp at h ⊢
  cases hr : m s with
  | ok a s' =>
    rw [hr] at h
    exact h rfl
  | halt e s' =>
    rw [hr] at h
    exact h

theorem wp.exists_ok (h : wp m Q (fun _ _ => False) s) : ∃ a s', m s = .ok a s' ∧ Q a s' := by
  unfold wp at h
  split at h
  · next a s' heq => exact ⟨a, s', heq, h⟩
  · exact h.elim

def Keeps {β : Type} (f : σ → β) (m : Exec σ ε α) : Prop := ∀ s, f (m s).state = f s

namespace Keeps

variable {γ : Type} {p : σ → γ}

theorem pure (a : α) : Keeps p (Pure.pure a : Exec σ ε α) := fun _ => rfl

theorem halt (e : ε) : Keeps p (Exec.halt e : Exec σ ε α) := fun _ => rfl

theorem modify {g : σ → σ} (h : ∀ s, p (g s) = p s) : Keeps p (Exec.modify g : Exec σ ε Unit) := h

theorem bind (hm : Keeps p m) (hf : ∀ a, Keeps p (f a)) : Keeps p (m >>= f) := by
  intro s
  have hs := hm s
  rw [bind_apply]
  cases h : m s with
  | ok a s' =>
    rw [h] at hs
    exact (hf a s').trans hs
  | halt e s' =>
    rw [h] at hs
    exact hs

theorem ite {c : Prop} [Decidable c] {m' : Exec σ ε α} (hm : Keeps p m) (hm' : Keeps p m') :
    Keeps p (if c then m else m') := by
  split_ifs
  · exact hm
  · exact hm'

theorem wp (hm : Keeps p m) (h : Exec.wp m (fun a s' => p s' = p s → Q a s') E s) :
    Exec.wp m Q E s := by
  have hs := hm s
  unfold Exec.wp at h ⊢
  cases hr : m s with
  | ok a s' =>
    rw [hr] at h hs
    exact h hs
  | halt e s' =>
    rw [hr] at h
    exact h

end Keeps

end Exec
