import Xv6.Spec.Ptable

/-! What the loops over the process table compute, and everything a step can do to it. -/

open Function

namespace Xv6.Ptable

open State

variable {n : ℕ} {C : Type} {s s' : State n C} {c : C} {p q np : Fin n} {i : ℕ}

/-! The loops over the table. -/

variable (t : Fin n → Proc n)

theorem wakeup1_eq (ch : Option (Chan n)) (q : Fin n) :
    wakeup1 t ch q = t q ∨ (t q).state = .sleeping ∧ (t q).chan = ch ∧
      wakeup1 t ch q = { t q with state := .runnable } := by
  unfold wakeup1
  split_ifs with h
  · exact .inr ⟨h.1, h.2, rfl⟩
  · exact .inl rfl

theorem not_sleeping_wakeup1 (ch : Option (Chan n)) (q : Fin n)
    (h : (wakeup1 t ch q).state = .sleeping) : (t q).chan ≠ ch := by
  unfold wakeup1 at h
  split_ifs at h with hs
  exact fun hch => hs ⟨h, hch⟩

def Roused (t t' : Fin n → Proc n) : Prop :=
  ∀ q, t' q = t q ∨ (t q).state = .sleeping ∧ t' q = { t q with state := .runnable }

theorem roused_wakeup1 (ch : Option (Chan n)) : Roused t (wakeup1 t ch) :=
  fun q => (wakeup1_eq t ch q).imp_right fun h => ⟨h.1, h.2.2⟩

theorem findUnused_eq_some {t : Fin n → Proc n} (h : findUnused t = some np) :
    (t np).state = .unused := by
  simpa using List.find?_some h

theorem findPid_eq_some {t : Fin n → Proc n} {pid : BitVec 32} (h : findPid t pid = some p) :
    (t p).pid = pid := by
  simpa using List.find?_some h

theorem scanKids_spec (p : Fin n) (l : List (Fin n)) (b : Bool) : match scanKids t p l b with
    | .zombie q => (t q).parent = some p ∧ (t q).state = .zombie
    | .none havekids => (havekids = true ↔ b = true ∨ ∃ q ∈ l, (t q).parent = some p) ∧
        ∀ q ∈ l, (t q).parent = some p → (t q).state ≠ .zombie := by
  induction l generalizing b with
  | nil => simp [scanKids]
  | cons q l ih =>
    unfold scanKids
    split_ifs with hp hz
    · have := ih b
      split at this
      · exact this
      · next kids _ =>
        refine ⟨this.1.trans ?_, ?_⟩
        · simp [hp]
        · simpa [hp] using this.2
    · exact ⟨not_not.mp hp, hz⟩
    · have hq := not_not.mp hp
      have := ih true
      split at this
      · exact this
      · refine ⟨this.1.trans ?_, ?_⟩
        · simp [hq]
        · simpa [hq, hz] using this.2

theorem waitOutcome_spec (p : Fin n) : match waitOutcome t p with
    | .reaps q => (t q).parent = some p ∧ (t q).state = .zombie
    | .fails => (t p).killed = true ∨ ∀ q, (t q).parent ≠ some p
    | .sleeps => (t p).killed = false ∧ (∃ q, (t q).parent = some p) ∧
        ∀ q, (t q).parent = some p → (t q).state ≠ .zombie := by
  have hscan := scanKids_spec t p (List.finRange n) false
  unfold waitOutcome
  cases hf : scanKids t p (List.finRange n) false with
  | zombie q =>
    rw [hf] at hscan
    exact hscan
  | none b =>
    rw [hf] at hscan
    simp only [Bool.false_eq_true, false_or, List.mem_finRange, true_and, forall_const] at hscan
    cases b with
    | false =>
      right
      intro q hq
      simpa using hscan.1.mpr ⟨q, hq⟩
    | true =>
      cases hk : (t p).killed with
      | true => exact .inl rfl
      | false => exact ⟨rfl, hscan.1.mp rfl, hscan.2⟩

structure Abandoned (p init : Fin n) (l : List (Fin n)) (t t' : Fin n → Proc n) : Prop where
  parent : ∀ q, (t' q).parent =
    if q ∈ l ∧ (t q).parent = some p then some init else (t q).parent
  pid : ∀ q, (t' q).pid = (t q).pid
  chan : ∀ q, (t' q).chan = (t q).chan
  killed : ∀ q, (t' q).killed = (t q).killed
  state : ∀ q, (t' q).state = (t q).state ∨
    (t q).state = .sleeping ∧ (t' q).state = .runnable
  woken : (∃ q ∈ l, (t q).parent = some p ∧ (t q).state = .zombie) →
    ∀ q, (t' q).state = .sleeping → (t q).chan ≠ some (.proc init)

theorem abandoned_one (p init : Fin n) (t : Fin n → Proc n) (q : Fin n) :
    Abandoned p init [q] t (abandon p init t q) := by
  unfold abandon
  split_ifs with hp
  · -- the slot is passed on; a zombie wakes init
    have hset : Abandoned p init [q] t (update t q { t q with parent := some init }) ∨
        (t q).state = .zombie := by
      by_cases hz : (t q).state = .zombie
      · exact .inr hz
      · left
        constructor <;> grind [update]
    simp only [update_self]
    split_ifs with hz
    · constructor <;> intros <;> grind [update, wakeup1]
    · exact hset.resolve_right hz
  · constructor <;> grind

theorem Abandoned.trans {init : Fin n} {l : List (Fin n)} {t t' t'' : Fin n → Proc n}
    (h : Abandoned p init [q] t t') (h' : Abandoned p init l t' t'') :
    Abandoned p init (q :: l) t t'' where
  parent r := by
    have := h.parent r
    have := h'.parent r
    grind
  pid r := (h'.pid r).trans (h.pid r)
  chan r := (h'.chan r).trans (h.chan r)
  killed r := (h'.killed r).trans (h.killed r)
  state r := by
    have := h.state r
    have := h'.state r
    grind
  woken hex r hr := by
    obtain ⟨x, hx, hpx, hzx⟩ := hex
    have hr' : (t' r).state = .sleeping := by
      have := h'.state r
      grind
    rcases List.mem_cons.mp hx with rfl | hx
    · exact h.woken ⟨x, by simp, hpx, hzx⟩ r hr'
    · rw [← h.chan r]
      by_cases hxq : x = q
      · rw [h.chan r]
        exact h.woken ⟨x, by simp [hxq], hpx, hzx⟩ r hr'
      · refine h'.woken ⟨x, hx, ?_, ?_⟩ r hr
        · simpa [hxq, hpx] using h.parent x
        · have := h.state x
          grind

theorem abandoned_foldl (p init : Fin n) (l : List (Fin n)) (t : Fin n → Proc n) :
    Abandoned p init l t (l.foldl (abandon p init) t) := by
  induction l generalizing t with
  | nil => constructor <;> simp
  | cons q l ih => exact (abandoned_one p init t q).trans (ih _)

/-! Steps. -/

namespace State

@[simp] theorem setProc_proc (x : Proc n) : (s.setProc p x).proc = update s.proc p x := rfl
@[simp] theorem setProc_cpu (x : Proc n) : (s.setProc p x).cpu = s.cpu := rfl
@[simp] theorem setProc_pc (x : Proc n) : (s.setProc p x).pc = s.pc := rfl
@[simp] theorem setProc_lock (x : Proc n) : (s.setProc p x).lock = s.lock := rfl
@[simp] theorem goto_proc (x : Pc n) : (s.goto p x).proc = s.proc := rfl
@[simp] theorem goto_cpu (x : Pc n) : (s.goto p x).cpu = s.cpu := rfl
@[simp] theorem goto_pc (x : Pc n) : (s.goto p x).pc = update s.pc p x := rfl
@[simp] theorem goto_lock (x : Pc n) : (s.goto p x).lock = s.lock := rfl
variable [DecidableEq C]

@[simp] theorem setCpu_proc (x : Cpu n) : (s.setCpu c x).proc = s.proc := rfl
@[simp] theorem setCpu_cpu (x : Cpu n) : (s.setCpu c x).cpu = update s.cpu c x := rfl
@[simp] theorem setCpu_pc (x : Cpu n) : (s.setCpu c x).pc = s.pc := rfl
@[simp] theorem setCpu_lock (x : Cpu n) : (s.setCpu c x).lock = s.lock := rfl
@[simp] theorem sched_proc : (s.sched c i).proc = s.proc := rfl
@[simp] theorem sched_cpu : (s.sched c i).cpu = update s.cpu c (.scan i) := rfl
@[simp] theorem sched_pc : (s.sched c i).pc = s.pc := rfl
@[simp] theorem sched_lock : (s.sched c i).lock = some c := rfl
@[simp] theorem release_proc : (s.release c p i).proc = s.proc := rfl
@[simp] theorem release_cpu : (s.release c p i).cpu = update s.cpu c (.runs p i) := rfl
@[simp] theorem release_pc : (s.release c p i).pc = s.pc := rfl
@[simp] theorem release_lock : (s.release c p i).lock = none := rfl

end State

variable [DecidableEq C]

/-- The process `p` on `c` has `ptable.lock` in `wait`: it has just called it, or it has been woken
in it, and then its `chan` has been cleared. `s₀` is the state it goes on from. -/
def InWait (s : State n C) (c : C) (p : Fin n) (i : ℕ) (s₀ : State n C) : Prop :=
  s.cpu c = .runs p i ∧ s.pc p = .user ∧ s.lock = none ∧ s₀ = s ∨
  s.cpu c = .switched p i ∧ s.pc p = .waiting ∧
    s₀ = s.setProc p { s.proc p with chan := none }

/-- How the code position of `p` changes within the loops, with the lock that goes with it. -/
inductive Shift (s : State n C) (p : Fin n) : Pc n → Prop where
  | enter (w : Waiter) (h : s.pc p = .user) : Shift s p (.test w)
  | relock (w : Waiter) (h : s.pc p = .relock w) : Shift s p (.test w)
  | leave (w : Waiter) (h : s.pc p = .test w) : Shift s p .user
  | stay (w : Waiter) (h : s.pc p = .test w) : Shift s p (.test w)
  | toWake (w : Waiter) (h : s.pc p = .test w) (hk : (s.proc p).killed = false) : Shift s p (.toWake w)
  | toSleep (w : Waiter) (h : s.pc p = .test w) (hk : (s.proc p).killed = false) : Shift s p (.toSleep w)

inductive Change (s : State n C) : Act n C → State n C → Prop where
  | acquire (c : C) (hc : s.cpu c = .idle) (hl : s.lock = none) :
      Change s (.sched c) ({ s with lock := some c }.setCpu c (.scan 0))
  | skip (c : C) (i : ℕ) (hc : s.cpu c = .scan i) : Change s (.sched c) (s.setCpu c (.scan (i + 1)))
  | finish (c : C) (i : ℕ) (hc : s.cpu c = .scan i) :
      Change s (.sched c) ({ s with lock := none }.setCpu c .idle)
  | switch (c : C) (i : ℕ) (p : Fin n) (hc : s.cpu c = .scan i) (hp : (s.proc p).state = .runnable) :
      Change s (.sched c) ((s.setProc p { s.proc p with state := .running }).setCpu c
        (.switched p (i + 1)))
  | unlock (c : C) (p : Fin n) (i : ℕ) (hc : s.cpu c = .switched p i)
      (hp : (s.pc p).asleep = false) : Change s (.resume c) (s.release c p i)
  | awake (c : C) (p : Fin n) (i : ℕ) (x : Pc n) (hc : s.cpu c = .switched p i)
      (hp : s.pc p = .sleptOther ∧ x = .user ∨ ∃ w, s.pc p = .slept w ∧ x = .relock w) :
      Change s (.resume c)
        (((s.setProc p { s.proc p with chan := none }).goto p x).release c p i)
  | full (c : C) (p : Fin n) (i : ℕ) (hc : s.cpu c = .runs p i) : Change s (.fork c) s
  | alloc (c : C) (p : Fin n) (i : ℕ) (np : Fin n) (hc : s.cpu c = .runs p i)
      (hp : s.pc p = .user) (hl : s.lock = none) (hnp : (s.proc np).state = .unused) :
      Change s (.fork c) ((({ s with
        nextpid := s.nextpid + 1
        born := s.born + 1
        uid := Function.update s.uid np s.born
        blows := Function.update s.blows np [] } : State n C).setProc np
          { s.proc np with state := .embryo, pid := s.nextpid }).goto p (.forkStack np))
  | stack (c : C) (p : Fin n) (i : ℕ) (np : Fin n) (hc : s.cpu c = .runs p i)
      (hp : s.pc p = .forkStack np) : Change s (.kstack c true) (s.goto p (.forkCopy np))
  | unstack (c : C) (p : Fin n) (i : ℕ) (np : Fin n) (hc : s.cpu c = .runs p i)
      (hp : s.pc p = .forkStack np) : Change s (.kstack c false) (s.unalloc p np)
  | copy (c : C) (p : Fin n) (i : ℕ) (np : Fin n) (hc : s.cpu c = .runs p i)
      (hp : s.pc p = .forkCopy np) : Change s (.copyuvm c true)
        ((s.setProc np { s.proc np with parent := some p }).goto p (.forkReady np))
  | uncopy (c : C) (p : Fin n) (i : ℕ) (np : Fin n) (hc : s.cpu c = .runs p i)
      (hp : s.pc p = .forkCopy np) : Change s (.copyuvm c false) (s.unalloc p np)
  | ready (c : C) (p : Fin n) (i : ℕ) (np : Fin n) (hc : s.cpu c = .runs p i)
      (hp : s.pc p = .forkReady np) (hl : s.lock = none) :
      Change s (.ready c) (((({ s with
        forked := s.forked ++ [(s.uid np, (s.proc np).pid)] } : State n C).setProc np
          { s.proc np with state := .runnable }).goto np .user).goto p .user)
  | exit (c : C) (p : Fin n) (i : ℕ) (hc : s.cpu c = .runs p i) (hp : s.pc p = .user)
      (hl : s.lock = none) (hinit : p ≠ s.initproc) : Change s (.exit c) (s.exit c p i)
  | reap (c : C) (p q : Fin n) (i : ℕ) (s₀ : State n C) (a : Act n C) (h : InWait s c p i s₀)
      (ha : a = .wait c ∨ a = .resume c) (hq : (s₀.proc q).parent = some p)
      (hz : (s₀.proc q).state = .zombie) :
      Change s a (((({ s₀ with
        reaped := s₀.reaped ++ [⟨p, q, s₀.uid q, (s₀.proc q).pid⟩] } : State n C).setProc q
          { s₀.proc q with pid := 0, parent := none, killed := false, state := .unused }).goto p
            .user).release c p i)
  | childless (c : C) (p : Fin n) (i : ℕ) (s₀ : State n C) (a : Act n C) (h : InWait s c p i s₀)
      (ha : a = .wait c ∨ a = .resume c)
      (hp : (s₀.proc p).killed = true ∨ ∀ q, (s₀.proc q).parent ≠ some p) :
      Change s a ((s₀.goto p .user).release c p i)
  | await (c : C) (p : Fin n) (i : ℕ) (s₀ : State n C) (a : Act n C) (h : InWait s c p i s₀)
      (ha : a = .wait c ∨ a = .resume c) (hk : (s₀.proc p).killed = false)
      (hkid : ∃ q, (s₀.proc q).parent = some p)
      (hz : ∀ q, (s₀.proc q).parent = some p → (s₀.proc q).state ≠ .zombie) :
      Change s a (s₀.fallAsleep c p i (.proc p) .waiting)
  | yield (c : C) (p : Fin n) (i : ℕ) (hc : s.cpu c = .runs p i) (hl : s.lock = none) :
      Change s (.yield c) ((s.setProc p { s.proc p with state := .runnable }).sched c i)
  | sleep (c : C) (p : Fin n) (i k : ℕ) (hc : s.cpu c = .runs p i) (hp : s.pc p = .user)
      (hl : s.lock = none) : Change s (.sleep c k) (s.fallAsleep c p i (.other k) .sleptOther)
  | sleepOn (c : C) (p : Fin n) (i : ℕ) (w : Waiter) (hc : s.cpu c = .runs p i)
      (hp : s.pc p = .toSleep w) (hl : s.lock = none) : Change s (.sleepOn c)
        (({ s with held := Function.update s.held w.lk none } : State n C).fallAsleep c p i w.chan
          (.slept w))
  | wakeup (ch : Chan n) (hl : s.lock = none) :
      Change s (.wakeup ch) { s with proc := wakeup1 s.proc (some ch) }
  | wake (c : C) (p : Fin n) (i : ℕ) (w : Waiter) (hc : s.cpu c = .runs p i)
      (hp : s.pc p = .toWake w) (hl : s.lock = none) : Change s (.wake c)
        (({ s with proc := wakeup1 s.proc (some .nread) } : State n C).goto p (.toSleep w))
  | kill (c : C) (p : Fin n) (i : ℕ) (pid : BitVec 32) (hc : s.cpu c = .runs p i)
      (hp : s.pc p = .user) (hl : s.lock = none) : Change s (.kill c pid)
        { s with proc := (Ptable.kill s.proc pid).2, blows := fun q => s.blows q ++ [.kill pid] }
  | fault (c : C) (p : Fin n) (i : ℕ) (hc : s.cpu c = .runs p i) (hp : s.pc p = .user) :
      Change s (.fault c) (({ s with blows := fun q => s.blows q ++ [.fault p] } : State n C).setProc p
        { s.proc p with killed := true })
  | shift (c : C) (p : Fin n) (i : ℕ) (x : Pc n) (l : Spinlock → Option (Fin n)) (a : Act n C)
      (hc : s.cpu c = .runs p i) (hx : Shift s p x)
      (ha : a = .test c ∨ a = .leave c ∨ a = .relock c ∨ ∃ w, a = .enter c w) :
      Change s a (({ s with held := l } : State n C).goto p x)
  | env (e : Env) : Change s (.env e) { s with env := e }

theorem change_scheduler (h : s.scheduler c = some s') : Change s (.sched c) s' := by
  unfold scheduler at h
  split at h
  · next hc =>
    split_ifs at h with hl
    cases h
    exact .acquire c hc hl
  · next i hc =>
    split_ifs at h with hi hr
    · cases h
      exact .switch c i ⟨i, hi⟩ hc hr
    · cases h
      exact .skip c i hc
    · cases h
      exact .finish c i hc
  · cases h

variable {a : Act n C}

theorem change_waitRound {s₀ : State n C} (h : InWait s c p i s₀)
    (ha : a = .wait c ∨ a = .resume c) : Change s a (s₀.waitRound c p i) := by
  have ho := waitOutcome_spec s₀.proc p
  unfold waitRound
  split
  · next q hq =>
    rw [hq] at ho
    exact .reap c p q i s₀ a h ha ho.1 ho.2
  · next hf =>
    rw [hf] at ho
    exact .childless c p i s₀ a h ha ho
  · next hsl =>
    rw [hsl] at ho
    exact .await c p i s₀ a h ha ho.1 ho.2.1 ho.2.2

theorem change_resume (hc : s.cpu c = .switched p i) : Change s (.resume c) (s.resume c p i) := by
  unfold resume
  split
  · next hp => exact change_waitRound (.inr ⟨hc, hp, rfl⟩) (.inr rfl)
  · next w hp => exact .awake c p i _ hc (.inr ⟨w, hp, rfl⟩)
  · next hp => exact .awake c p i _ hc (.inl ⟨hp, rfl⟩)
  · next h1 h2 h3 =>
    refine .unlock c p i hc ?_
    cases hp : s.pc p <;> simp_all [Pc.asleep]

theorem change_test {w : Waiter} (hc : s.cpu c = .runs p i) (hp : s.pc p = .test w) :
    Change s (.test c) (s.test p w) := by
  have hstay : s.goto p (.test w) = s := by
    unfold goto
    rw [← hp, update_eq_self]
  unfold test
  split_ifs with hw hq hk
  · exact .shift c p i _ _ _ hc (.leave w hp) (.inl rfl)
  · simp only [Bool.or_eq_true, not_or, Bool.not_eq_true] at hq
    exact .shift c p i _ s.held _ hc (.toWake w hp hq.2) (.inl rfl)
  · simp only [Bool.or_eq_true, not_or, Bool.not_eq_true] at hq
    exact .shift c p i _ s.held _ hc (.toSleep w hp hq.2) (.inl rfl)
  · have h : Change s (.test c) (s.goto p (.test w)) :=
      .shift c p i _ s.held _ hc (.stay w hp) (.inl rfl)
    rwa [hstay] at h

theorem change_fork (hc : s.cpu c = .runs p i) (hp : s.pc p = .user) (hl : s.lock = none) :
    Change s (.fork c) (s.allocproc p) := by
  unfold allocproc
  split
  · exact .full c p i hc
  · next np hnp => exact .alloc c p i np hc hp hl (findUnused_eq_some hnp)

theorem change_run (hc : s.cpu c = .runs p i) (ha : a.cpu = some c)
    (h : s.run c p i a = some s') : Change s a s' := by
  cases a with
  | sched | resume | wakeup | env => simp [run] at h
  | fork | exit | wait | yield | sleep | kill | fault | enter =>
    obtain rfl : _ = c := by simpa [Act.cpu] using ha
    simp only [run] at h
    split_ifs at h with hg
    cases h
    first
      | exact change_fork hc hg.1 hg.2
      | exact .exit _ p i hc hg.1 hg.2.1 hg.2.2
      | exact change_waitRound (.inl ⟨hc, hg.1, hg.2, rfl⟩) (.inl rfl)
      | exact .yield _ p i hc hg.2
      | exact .sleep _ p i _ hc hg.1 hg.2
      | exact .kill _ p i _ hc hg.1 hg.2
      | exact .fault _ p i hc hg
      | exact .shift _ p i _ _ _ hc (.enter _ hg.1) (.inr (.inr (.inr ⟨_, rfl⟩)))
  | kstack c' ok | copyuvm c' ok =>
    obtain rfl : c' = c := by simpa [Act.cpu] using ha
    simp only [run] at h
    split at h
    · next np hp =>
      cases h
      cases ok
      · first
          | exact .unstack _ p i np hc hp
          | exact .uncopy _ p i np hc hp
      · first
          | exact .stack _ p i np hc hp
          | exact .copy _ p i np hc hp
    · cases h
  | ready c' | wake c' | sleepOn c' | relock c' =>
    obtain rfl : c' = c := by simpa [Act.cpu] using ha
    simp only [run] at h
    split at h
    · next w hp =>
      split_ifs at h with hl
      cases h
      first
        | exact .ready _ p i w hc hp hl
        | exact .wake _ p i w hc hp hl
        | exact .sleepOn _ p i w hc hp hl
        | exact .shift _ p i _ _ _ hc (.relock w hp) (.inr (.inr (.inl rfl)))
    · cases h
  | test c' | leave c' =>
    obtain rfl : c' = c := by simpa [Act.cpu] using ha
    simp only [run] at h
    split at h
    · next w hp =>
      cases h
      first
        | exact change_test hc hp
        | exact .shift _ p i _ _ _ hc (.leave w hp) (.inr (.inl rfl))
    · cases h

theorem change_of_step (h : s.step a = some s') : Change s a s' := by
  cases a with
  | sched c => exact change_scheduler h
  | resume c =>
    simp only [step] at h
    split at h
    · next hc =>
      cases h
      exact change_resume hc
    · cases h
  | wakeup ch =>
    simp only [step] at h
    split_ifs at h with hl
    cases h
    exact .wakeup ch hl
  | env e =>
    cases h
    exact .env e
  | _ =>
    simp only [step, Act.cpu, Option.bind_some] at h
    split at h
    · next hc => exact change_run hc rfl h
    · cases h

structure Exited (s : State n C) (p : Fin n) (t : Fin n → Proc n) : Prop where
  zombie : (t p).state = .zombie
  parent : ∀ q, (t q).parent =
    if (s.proc q).parent = some p then some s.initproc else (s.proc q).parent
  pid : ∀ q, (t q).pid = (s.proc q).pid
  chan : ∀ q, (t q).chan = (s.proc q).chan
  killed : ∀ q, (t q).killed = (s.proc q).killed
  state : ∀ q ≠ p, (t q).state = (s.proc q).state ∨
    (s.proc q).state = .sleeping ∧ (t q).state = .runnable
  told : ∀ r, (s.proc p).parent = some r → (t r).state = .sleeping → (s.proc r).chan ≠ some (.proc r)
  woken : ∀ q, (s.proc q).parent = some p → (s.proc q).state = .zombie →
    ∀ r, (t r).state = .sleeping → (s.proc r).chan ≠ some (.proc s.initproc)

theorem exited (s : State n C) (c : C) (p : Fin n) (i : ℕ) : Exited s p (s.exit c p i).proc := by
  set t1 := wakeup1 s.proc ((s.proc p).parent.map .proc) with ht1
  set t2 := (List.finRange n).foldl (abandon p s.initproc) t1 with ht2
  have hproc : (s.exit c p i).proc = update t2 p { t2 p with state := .zombie } := rfl
  have hw := wakeup1_eq s.proc ((s.proc p).parent.map .proc)
  have ha := abandoned_foldl p s.initproc (List.finRange n) t1
  rw [← ht2] at ha
  rw [← ht1] at hw
  -- the slot of `p` differs from the loop's table in its state only
  have hsame : ∀ q, (t1 q).parent = (s.proc q).parent ∧ (t1 q).pid = (s.proc q).pid ∧
      (t1 q).chan = (s.proc q).chan ∧ (t1 q).killed = (s.proc q).killed := by
    intro q
    rcases hw q with h | ⟨-, -, h⟩ <;> rw [h] <;> exact ⟨rfl, rfl, rfl, rfl⟩
  have hother : ∀ q, ((s.exit c p i).proc q).parent = (t2 q).parent ∧
      ((s.exit c p i).proc q).pid = (t2 q).pid ∧ ((s.exit c p i).proc q).chan = (t2 q).chan ∧
      ((s.exit c p i).proc q).killed = (t2 q).killed := by
    intro q
    rw [hproc]
    by_cases hq : q = p
    · subst hq
      simp
    · simp [update_of_ne hq]
  have hstate : ∀ q, ((s.exit c p i).proc q).state = .sleeping → (t2 q).state = .sleeping := by
    intro q h
    rw [hproc] at h
    by_cases hq : q = p
    · subst hq
      simp at h
    · rwa [update_of_ne hq] at h
  refine ⟨by simp [hproc], fun q => ?_, fun q => ?_, fun q => ?_, fun q => ?_, fun q hq => ?_,
    fun r hr hs hch => ?_, fun q hq hz r hs => ?_⟩
  · rw [(hother q).1, ha.parent q, (hsame q).1]
    simp
  · rw [(hother q).2.1, ha.pid q, (hsame q).2.1]
  · rw [(hother q).2.2.1, ha.chan q, (hsame q).2.2.1]
  · rw [(hother q).2.2.2, ha.killed q, (hsame q).2.2.2]
  · rw [hproc, update_of_ne hq]
    have := ha.state q
    rcases hw q with h | ⟨hs, -, h⟩
    · rwa [h] at this
    · rw [h] at this
      exact .inr ⟨hs, by simpa using this⟩
  · have hs1 : (t1 r).state = .sleeping := by
      have := hstate r hs
      rcases ha.state r with h | h
      · rwa [← h]
      · rw [h.2] at this
        cases this
    exact not_sleeping_wakeup1 _ _ r hs1 (by rw [hch, hr, Option.map_some])
  · rw [← (hsame r).2.2.1]
    refine ha.woken ⟨q, List.mem_finRange q, (hsame q).1.trans hq, ?_⟩ r (hstate r hs)
    rcases hw q with h | ⟨hs, -, -⟩
    · rw [h, hz]
    · rw [hz] at hs
      cases hs

end Xv6.Ptable
