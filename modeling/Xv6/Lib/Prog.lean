import Xv6.Lib.Exec
import Xv6.Lib.Run

/-! Threads over a shared state. A thread runs without interruption until it waits; what it
does between two waits is one step of the system. `Out.Safe` is the proof rule: a thread
shows the invariant at each of its waits, leaves to every other thread what that thread
counts on, and goes on from any state that the others may have left it. -/

/-- The outcome of running a thread up to its next wait: a result, the reason the whole
system stopped, or the condition it waits for and what it does next. -/
inductive Out (σ ε α : Type) where
  | ok (a : α) (s : σ)
  | halt (e : ε) (s : σ)
  | wait (s : σ) (ready : σ → Bool) (k : σ → Out σ ε α)

def Prog (σ ε α : Type) : Type := σ → Out σ ε α

variable {σ ε α β : Type}

def Out.bind (f : α → Prog σ ε β) : Out σ ε α → Out σ ε β
  | .ok a s => f a s
  | .halt e s => .halt e s
  | .wait s ready k => .wait s ready fun s' => (k s').bind f

open Function

namespace Prog

def pure (a : α) : Prog σ ε α := fun s => .ok a s

def bind (m : Prog σ ε α) (f : α → Prog σ ε β) : Prog σ ε β := fun s => (m s).bind f

instance : Monad (Prog σ ε) where
  pure := pure
  bind := bind

theorem bind_apply (m : Prog σ ε α) (f : α → Prog σ ε β) (s : σ) : (m >>= f) s = (m s).bind f := rfl

theorem out_bind_pure (o : Out σ ε α) : o.bind (fun a => (Pure.pure a : Prog σ ε α)) = o := by
  induction o with
  | ok a s => rfl
  | halt e s => rfl
  | wait s ready k ih => exact congrArg (Out.wait s ready) (funext ih)

theorem out_bind_assoc {γ : Type} (o : Out σ ε α) (f : α → Prog σ ε β) (g : β → Prog σ ε γ) :
    (o.bind f).bind g = o.bind fun a => f a >>= g := by
  induction o with
  | ok a s => rfl
  | halt e s => rfl
  | wait s ready k ih => exact congrArg (Out.wait s ready) (funext ih)

instance : LawfulMonad (Prog σ ε) :=
  LawfulMonad.mk' _ (fun m => funext fun s => out_bind_pure (m s)) (fun _ _ => rfl)
    fun m f g => funext fun s => out_bind_assoc (m s) f g

def get : Prog σ ε σ := fun s => .ok s s

def modify (f : σ → σ) : Prog σ ε Unit := fun s => .ok () (f s)

def halt (e : ε) : Prog σ ε α := fun s => .halt e s

def await (ready : σ → Bool) : Prog σ ε Unit := fun s => .wait s ready fun s' => .ok () s'

def lift (m : Exec σ ε α) : Prog σ ε α := fun s =>
  match m s with
  | .ok a s' => .ok a s'
  | .halt e s' => .halt e s'

end Prog

/-- An invariant of the shared state, and what each thread can count on while the others
run: `keeps p s s'` is what taking `s` to `s'` leaves to thread `p`. `idle p` holds while `p`
is between two calls, and `given` is assumed of every state in which a step is taken. -/
structure Protocol (P σ : Type) where
  inv : σ → Prop
  keeps : P → σ → σ → Prop
  refl : ∀ p s, keeps p s s
  trans : ∀ {p s s' s''}, keeps p s s' → keeps p s' s'' → keeps p s s''
  idle : P → σ → Prop
  idle_keeps : ∀ {p s s'}, idle p s → keeps p s s' → idle p s'
  given : σ → Prop

variable {P : Type}

/-- Taking `s` to `s'` leaves to every thread other than `p` what it counts on. -/
def Protocol.Spares (π : Protocol P σ) (p : P) (s s' : σ) : Prop := ∀ q, q ≠ p → π.keeps q s s'

theorem Protocol.Spares.refl (π : Protocol P σ) (p : P) (s : σ) : π.Spares p s s :=
  fun q _ => π.refl q s

theorem Protocol.Spares.trans {π : Protocol P σ} {p : P} {s s' s'' : σ} (h : π.Spares p s s')
    (h' : π.Spares p s' s'') : π.Spares p s s'' :=
  fun q hq => π.trans (h q hq) (h' q hq)

variable {π : Protocol P σ} {p : P} {Q Q' : α → σ → σ → Prop} {E E' : ε → σ → σ → Prop} {s₀ s : σ}

/-- Thread `p`, whose present step began in `s₀`, follows the protocol from the outcome on,
and ends with `Q` or halts with `E`. Both see the state where the last step began. -/
def Out.Safe (π : Protocol P σ) (p : P) (Q : α → σ → σ → Prop) (E : ε → σ → σ → Prop) :
    Out σ ε α → σ → Prop
  | .ok a s, s₀ => Q a s₀ s
  | .halt e s, s₀ => E e s₀ s
  | .wait s ready k, s₀ => π.inv s ∧ π.Spares p s₀ s ∧
      ∀ s', π.inv s' → π.given s' → π.keeps p s s' → ready s' = true → (k s').Safe π p Q E s'

theorem Out.Safe.mono {o : Out σ ε α} (h : o.Safe π p Q E s₀)
    (hQ : ∀ a s₀ s, Q a s₀ s → Q' a s₀ s) (hE : ∀ e s₀ s, E e s₀ s → E' e s₀ s) :
    o.Safe π p Q' E' s₀ := by
  induction o generalizing s₀ with
  | ok a s => exact hQ a s₀ s h
  | halt e s => exact hE e s₀ s h
  | wait s ready k ih =>
    obtain ⟨hinv, hsp, hk⟩ := h
    exact ⟨hinv, hsp, fun s' hi hg hkeep hr => ih s' (hk s' hi hg hkeep hr)⟩

theorem Out.safe_bind {f : α → Prog σ ε β} {Q : β → σ → σ → Prop} {o : Out σ ε α} :
    (o.bind f).Safe π p Q E s₀ ↔ o.Safe π p (fun a s₀ s => (f a s).Safe π p Q E s₀) E s₀ := by
  induction o generalizing s₀ with
  | ok a s => exact Iff.rfl
  | halt e s => exact Iff.rfl
  | wait s ready k ih =>
    simp only [Out.bind, Out.Safe, ih]

namespace Prog

/-- `Out.Safe` of running `m` from `s`, in a step that began in `s₀`. -/
def Safe (π : Protocol P σ) (p : P) (m : Prog σ ε α) (Q : α → σ → σ → Prop)
    (E : ε → σ → σ → Prop) (s₀ s : σ) : Prop := (m s).Safe π p Q E s₀

variable {m : Prog σ ε α} {f : α → Prog σ ε β}

@[simp] theorem safe_pure (a : α) :
    Safe π p (Pure.pure a : Prog σ ε α) Q E s₀ s ↔ Q a s₀ s := Iff.rfl

@[simp] theorem safe_get {Q : σ → σ → σ → Prop} : Safe π p get Q E s₀ s ↔ Q s s₀ s := Iff.rfl

@[simp] theorem safe_modify {Q : Unit → σ → σ → Prop} (g : σ → σ) :
    Safe π p (modify g) Q E s₀ s ↔ Q () s₀ (g s) := Iff.rfl

@[simp] theorem safe_halt (e : ε) : Safe π p (halt e : Prog σ ε α) Q E s₀ s ↔ E e s₀ s := Iff.rfl

@[simp] theorem safe_await {Q : Unit → σ → σ → Prop} (ready : σ → Bool) :
    Safe π p (await ready) Q E s₀ s ↔ π.inv s ∧ π.Spares p s₀ s ∧
      ∀ s', π.inv s' → π.given s' → π.keeps p s s' → ready s' = true → Q () s' s' := Iff.rfl

theorem safe_lift {m : Exec σ ε α} :
    Safe π p (lift m) Q E s₀ s ↔ m.wp (fun a s' => Q a s₀ s') (fun e s' => E e s₀ s') s := by
  unfold Safe lift Exec.wp
  cases m s <;> exact Iff.rfl

theorem safe_bind {Q : β → σ → σ → Prop} : Safe π p (m >>= f) Q E s₀ s ↔
      Safe π p m (fun a s₀ s => Safe π p (f a) Q E s₀ s) E s₀ s := Out.safe_bind

theorem Safe.mono (h : Safe π p m Q E s₀ s) (hQ : ∀ a s₀ s, Q a s₀ s → Q' a s₀ s)
    (hE : ∀ e s₀ s, E e s₀ s → E' e s₀ s) : Safe π p m Q' E' s₀ s := Out.Safe.mono h hQ hE

theorem Safe.bind {R : α → σ → σ → Prop} {Q : β → σ → σ → Prop} (h : Safe π p m R E s₀ s)
    (hf : ∀ a s₀ s, R a s₀ s → Safe π p (f a) Q E s₀ s) : Safe π p (m >>= f) Q E s₀ s :=
  safe_bind.mpr (h.mono hf fun _ _ _ he => he)

/-- The program does not wait, and the part `g` of the state is as before when it returns. -/
def Straight {γ : Type} (g : σ → γ) (m : Prog σ ε α) : Prop :=
  ∀ s, (∃ a s', m s = .ok a s' ∧ g s' = g s) ∨ ∃ e s', m s = .halt e s'

namespace Straight

variable {γ : Type} {g : σ → γ}

theorem pure (a : α) : Straight g (Pure.pure a : Prog σ ε α) := fun s => .inl ⟨a, s, rfl, rfl⟩

theorem bind (hm : Straight g m) (hf : ∀ a, Straight g (f a)) : Straight g (m >>= f) := by
  intro s
  rw [bind_apply]
  obtain ⟨a, s1, hs1, hg1⟩ | ⟨e, s1, hs1⟩ := hm s
  · rw [hs1]
    obtain ⟨b, s2, hs2, hg2⟩ | ⟨e, s2, hs2⟩ := hf a s1
    · exact .inl ⟨b, s2, hs2, hg2.trans hg1⟩
    · exact .inr ⟨e, s2, hs2⟩
  · rw [hs1]
    exact .inr ⟨e, s1, rfl⟩

theorem safe (hm : Straight g m) (h : Safe π p m Q E s₀ s) :
    Safe π p m (fun a s1 s' => Q a s1 s' ∧ g s' = g s) E s₀ s := by
  unfold Safe at h ⊢
  obtain ⟨a, s', hs, hg⟩ | ⟨e, s', hs⟩ := hm s
  · rw [hs] at h ⊢
    exact ⟨h, hg⟩
  · rw [hs] at h ⊢
    exact h

end Straight

end Prog

structure Thread (σ ε : Type) where
  ready : σ → Bool
  k : σ → Out σ ε Unit

/-- Threads over a shared state; a thread that is `none` is between two calls. -/
structure Conc (P σ ε : Type) where
  shared : σ
  thread : P → Option (Thread σ ε)
  halted : Option ε

/-- What the scheduler does next: an idle thread makes a call, or a waiting one goes on. -/
inductive Sched (P κ : Type) where
  | call (p : P) (c : κ)
  | resume (p : P)

namespace Conc

variable {κ : Type} {E : ε → σ → Prop} {c c' : Conc P σ ε}

def init (s : σ) : Conc P σ ε := ⟨s, fun _ => none, none⟩

def Quiet (c : Conc P σ ε) : Prop := ∀ p, c.thread p = none

/-- A call of thread `p` ends with the invariant, having spared the others. -/
def Ends (π : Protocol P σ) (p : P) : Unit → σ → σ → Prop :=
  fun _ s₀ s => π.inv s ∧ π.Spares p s₀ s ∧ π.idle p s

/-- Every suspended thread can go on; once halted, only `E` is known of the state. -/
structure Good (π : Protocol P σ) (E : ε → σ → Prop) (c : Conc P σ ε) : Prop where
  inv : c.halted = none → π.inv c.shared
  halt : ∀ e, c.halted = some e → E e c.shared
  threads : c.halted = none → ∀ p t, c.thread p = some t → ∀ s', π.inv s' → π.given s' →
    π.keeps p c.shared s' → t.ready s' = true →
      (t.k s').Safe π p (Ends π p) (fun e _ s => E e s) s'
  idle : c.halted = none → ∀ p, c.thread p = none → π.idle p c.shared

theorem good_init {s : σ} (h : π.inv s) (hidle : ∀ p, π.idle p s) : Good (P := P) π E (init s) :=
  ⟨fun _ => h, fun e he => by simp [init] at he, fun _ p t ht => by simp [init] at ht,
    fun _ p _ => hidle p⟩

variable [DecidableEq P]

def settle (c : Conc P σ ε) (p : P) : Out σ ε Unit → Conc P σ ε
  | .ok _ s => { c with shared := s, thread := Function.update c.thread p none }
  | .halt e s => { c with shared := s, halted := some e }
  | .wait s ready k =>
    { c with shared := s, thread := Function.update c.thread p (some ⟨ready, k⟩) }

/-- `none` when the step is not possible: the system has halted, `call` finds the thread in
the middle of a call, or `resume` finds it idle or not ready. -/
def step (prog : P → κ → Prog σ ε Unit) (c : Conc P σ ε) : Sched P κ → Option (Conc P σ ε)
  | .call p k =>
    match c.halted, c.thread p with
    | none, none => some (c.settle p (prog p k c.shared))
    | _, _ => none
  | .resume p =>
    match c.halted, c.thread p with
    | none, some t => if t.ready c.shared then some (c.settle p (t.k c.shared)) else none
    | _, _ => none

theorem Good.settle {o : Out σ ε Unit} (h : Good π E c) (hh : c.halted = none)
    (ho : o.Safe π p (Ends π p) (fun e _ s => E e s) c.shared) : Good π E (c.settle p o) := by
  -- a thread other than `p` is where it was, and `p` has spared it
  have others : ∀ s', π.Spares p c.shared s' → ∀ q t, q ≠ p → c.thread q = some t → ∀ u, π.inv u →
      π.given u → π.keeps q s' u → t.ready u = true →
        (t.k u).Safe π q (Ends π q) (fun e _ s => E e s) u :=
    fun s' hsp q t hq ht u hu hg hk => h.threads hh q t ht u hu hg (π.trans (hsp q hq) hk)
  have resting : ∀ s', π.Spares p c.shared s' → ∀ q, q ≠ p → c.thread q = none → π.idle q s' :=
    fun s' hsp q hq ht => π.idle_keeps (h.idle hh q ht) (hsp q hq)
  cases o with
  | ok a s =>
    obtain ⟨hinv, hsp, hidle⟩ := ho
    refine ⟨fun _ => hinv, fun e he => ?_, fun _ q t ht => ?_, fun _ q ht => ?_⟩
    · exact absurd (hh.symm.trans he) (by simp)
    · by_cases hq : q = p
      · subst hq
        simp [Conc.settle] at ht
      · simp only [Conc.settle, update_of_ne hq] at ht
        exact others s hsp q t hq ht
    · by_cases hq : q = p
      · subst hq
        exact hidle
      · simp only [Conc.settle, update_of_ne hq] at ht
        exact resting s hsp q hq ht
  | halt e s =>
    refine ⟨fun hn => by simp [Conc.settle] at hn, fun e' he => ?_, fun hn => by simp [Conc.settle] at hn,
      fun hn => by simp [Conc.settle] at hn⟩
    obtain rfl : e = e' := by simpa [Conc.settle] using he
    exact ho
  | wait s ready k =>
    obtain ⟨hinv, hsp, hk⟩ := ho
    refine ⟨fun _ => hinv, fun e he => ?_, fun _ q t ht => ?_, fun _ q ht => ?_⟩
    · exact absurd (hh.symm.trans he) (by simp)
    · by_cases hq : q = p
      · subst hq
        simp only [Conc.settle, update_self, Option.some.injEq] at ht
        subst ht
        exact hk
      · simp only [Conc.settle, update_of_ne hq] at ht
        exact others s hsp q t hq ht
    · by_cases hq : q = p
      · subst hq
        simp [Conc.settle] at ht
      · simp only [Conc.settle, update_of_ne hq] at ht
        exact resting s hsp q hq ht

variable {prog : P → κ → Prog σ ε Unit} {C : Conc P σ ε → Sched P κ → Prop} {acts : List (Sched P κ)}

theorem step_cases {a : Sched P κ} (h : step prog c a = some c') : c.halted = none ∧
    ((∃ p k, a = .call p k ∧ c.thread p = none ∧ c' = c.settle p (prog p k c.shared)) ∨
      ∃ p t, a = .resume p ∧ c.thread p = some t ∧ t.ready c.shared = true ∧
        c' = c.settle p (t.k c.shared)) := by
  cases a with
  | call p k =>
    simp only [step] at h
    split at h
    · rename_i hh ht
      exact ⟨hh, .inl ⟨p, k, rfl, ht, (Option.some.inj h).symm⟩⟩
    · cases h
  | resume p =>
    simp only [step] at h
    split at h
    · rename_i t hh ht
      split_ifs at h with hr
      exact ⟨hh, .inr ⟨p, t, rfl, ht, hr, (Option.some.inj h).symm⟩⟩
    · cases h

/-- Soundness of the rule: when every call is safe in every state of the invariant where the
condition allows it, whole runs keep the invariant. The condition on the steps has to imply
what is taken as given. -/
theorem Good.run (hrun : Trans.Run (step prog) C c acts c') (h : Good π E c)
    (hgiven : ∀ c a, C c a → π.given c.shared)
    (hcall : ∀ c p k, π.inv c.shared → π.idle p c.shared → c.thread p = none → C c (.call p k) →
      Prog.Safe π p (prog p k) (Ends π p) (fun e _ s => E e s) c.shared c.shared) : Good π E c' := by
  refine hrun.induct h fun c a c' hc hC hstep => ?_
  obtain ⟨hh, ⟨p, k, rfl, ht, rfl⟩ | ⟨p, t, rfl, ht, hr, rfl⟩⟩ := step_cases hstep
  · exact hc.settle hh (hcall c p k (hc.inv hh) (hc.idle hh p ht) ht hC)
  · exact hc.settle hh
      (hc.threads hh p t ht c.shared (hc.inv hh) (hgiven _ _ hC) (π.refl p c.shared) hr)

end Conc
