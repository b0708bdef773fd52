import Xv6.Proofs.Scheduler

/-! `kill` against the loops that sleep. A process tests `killed` and goes to sleep afterwards; the
test of `wait` is under `ptable.lock`, the tests of the others are not. -/

open Function

namespace Xv6.Ptable

open State

variable {n : ℕ} {C : Type} [DecidableEq C] {s s' : State n C} {c : C} {p q : Fin n} {i : ℕ}

def Pc.deaf : Pc n → Bool
  | .toWake _ => true
  | .toSleep _ => true
  | _ => false

def Pc.inLoop : Pc n → Bool
  | .slept _ => true
  | .waiting => true
  | _ => false

/-- `kill` hits no process between its test of `killed` and the change of its state to SLEEPING. -/
def HitsNoneDeaf (s : State n C) : Act n C → Prop
  | .kill _ pid => ∀ q, findPid s.proc pid = some q → (s.pc q).deaf = false
  | _ => True

instance (s : State n C) : DecidablePred (HitsNoneDeaf s)
  | .kill _ pid => inferInstanceAs (Decidable (∀ q, findPid s.proc pid = some q → (s.pc q).deaf = false))
  | .sched _ | .resume _ | .fork _ | .kstack _ _ | .copyuvm _ _ | .ready _ | .exit _ | .wait _
  | .yield _ | .sleep _ _ | .wakeup _ | .fault _ | .enter _ _ | .test _ | .leave _ | .wake _
  | .sleepOn _ | .relock _ | .env _ => isTrue trivial

structure Heard (s : State n C) : Prop where
  deaf : ∀ p, (s.pc p).deaf = true → (s.proc p).killed = false
  asleep : ∀ p, (s.proc p).state = .sleeping → (s.pc p).inLoop = true → (s.proc p).killed = false

omit [DecidableEq C] in
theorem Heard.turn (h : Heard s) (hpc : ∀ q ≠ p, s'.pc q = s.pc q)
    (hkill : ∀ q, (s.proc q).killed = false → (s'.proc q).killed = false)
    (hsleep : ∀ q ≠ p, (s'.proc q).state = .sleeping → (s.proc q).state = .sleeping)
    (hdeaf : (s'.pc p).deaf = true → (s'.proc p).killed = false)
    (hp : (s'.proc p).state = .sleeping → (s'.pc p).inLoop = true → (s'.proc p).killed = false) :
    Heard s' where
  deaf q hq := by
    by_cases hqp : q = p
    · subst hqp
      exact hdeaf hq
    · rw [hpc q hqp] at hq
      exact hkill q (h.deaf q hq)
  asleep q hq hin := by
    by_cases hqp : q = p
    · subst hqp
      exact hp hq hin
    · rw [hpc q hqp] at hin
      exact hkill q (h.asleep q (hsleep q hqp hq) hin)

omit [DecidableEq C] in
theorem Heard.rouse (h : Heard s) (hpc : s'.pc = s.pc)
    (hkill : ∀ q, (s'.proc q).killed = (s.proc q).killed)
    (hsleep : ∀ q, (s'.proc q).state = .sleeping → (s.proc q).state = .sleeping) : Heard s' where
  deaf q hq := by
    rw [hpc] at hq
    rw [hkill, h.deaf q hq]
  asleep q hq hin := by
    rw [hpc] at hin
    rw [hkill, h.asleep q (hsleep q hq) hin]

variable (t : Fin n → Proc n)

theorem killed_wakeup1 (ch : Option (Chan n)) (q : Fin n) :
    (wakeup1 t ch q).killed = (t q).killed := by
  rcases wakeup1_eq t ch q with h | ⟨-, -, h⟩ <;> rw [h]

theorem sleeping_wakeup1 (ch : Option (Chan n)) (q : Fin n)
    (h : (wakeup1 t ch q).state = .sleeping) : (t q).state = .sleeping :=
  (Kin.of_roused (roused_wakeup1 t ch) q).sleeping h

theorem kill_proc (pid : BitVec 32) (q : Fin n) :
    (kill t pid).2 q = t q ∨ findPid t pid = some q ∧ ((kill t pid).2 q).state ≠ .sleeping := by
  unfold kill
  split
  · next p hp =>
    by_cases hq : q = p
    · subst hq
      right
      refine ⟨hp, ?_⟩
      simp only [update_self]
      split_ifs with hs
      · simp
      · exact hs
    · left
      exact update_of_ne hq _ _
  · exact .inl rfl

omit [DecidableEq C] in
theorem InWait.proc {s0 : State n C} (hw : InWait s c p i s0) (q : Fin n) :
    (s0.proc q).state = (s.proc q).state ∧ (s0.proc q).killed = (s.proc q).killed ∧
      (s0.proc q).parent = (s.proc q).parent ∧ (s0.proc q).pid = (s.proc q).pid := by
  rcases hw with ⟨-, -, -, rfl⟩ | ⟨-, -, rfl⟩
  · exact ⟨rfl, rfl, rfl, rfl⟩
  · by_cases hq : q = p
    · subst hq
      simp
    · simp [update_of_ne hq]

omit [DecidableEq C] in
theorem InWait.heard {s0 : State n C} (hw : InWait s c p i s0) (h : Heard s) : Heard s0 := by
  have hpc : s0.pc = s.pc := by
    rcases hw with ⟨-, -, -, rfl⟩ | ⟨-, -, rfl⟩ <;> rfl
  exact h.rouse hpc (fun q => (hw.proc q).2.1) fun q hq => (hw.proc q).1 ▸ hq

theorem Heard.fallAsleep (h : Heard s) {ch : Chan n} {x : Pc n}
    (hx : x.inLoop = true → (s.proc p).killed = false) (hdeaf : x.deaf = false) :
    Heard (s.fallAsleep c p i ch x) := by
  refine h.turn (p := p) (fun q hq => ?_) (fun q hq => ?_) (fun q hq hsl => ?_) (fun hd => ?_) fun _ hin => ?_
  · simp [State.fallAsleep, update_of_ne hq]
  · by_cases hqp : q = p
    · subst hqp
      simpa [State.fallAsleep] using hq
    · simpa [State.fallAsleep, update_of_ne hqp] using hq
  · simpa [State.fallAsleep, update_of_ne hq] using hsl
  · simp [State.fallAsleep, hdeaf] at hd
  · simp only [State.fallAsleep, sched_pc, goto_pc, update_self] at hin
    simpa [State.fallAsleep] using hx hin

omit [DecidableEq C] in
theorem Heard.congr (h : Heard s) (hpc : s'.pc = s.pc) (hproc : s'.proc = s.proc) : Heard s' :=
  h.rouse hpc (fun _ => by rw [hproc]) fun _ hq => by rwa [hproc] at hq

omit [DecidableEq C] in
theorem Heard.put (h : Heard s) {y : Proc n} (hpc : s'.pc = s.pc) (hproc : s'.proc = update s.proc q y)
    (hk : (s.proc q).killed = false → y.killed = false)
    (hsleep : y.state = .sleeping → (s.proc q).state = .sleeping) : Heard s' := by
  refine ⟨fun r hr => ?_, fun r hr hin => ?_⟩
  all_goals
    rw [hpc] at *
    rw [hproc] at *
    by_cases hrq : r = q
  · subst hrq
    rw [update_self]
    exact hk (h.deaf r hr)
  · rw [update_of_ne hrq]
    exact h.deaf r hr
  · subst hrq
    rw [update_self] at hr ⊢
    exact hk (h.asleep r (hsleep hr) hin)
  · rw [update_of_ne hrq] at hr ⊢
    exact h.asleep r hr hin

omit [DecidableEq C] in
theorem Heard.goto (h : Heard s) {x : Pc n} (hp : (s.proc p).state ≠ .sleeping)
    (hx : x.deaf = true → (s.proc p).killed = false) : Heard (s.goto p x) := by
  refine h.turn (p := p) (fun q hq => ?_) (fun q hq => hq) (fun q _ hsl => hsl) (fun hd => ?_)
    fun hsl => absurd hsl hp
  · simp [update_of_ne hq]
  · exact hx (by simpa using hd)

theorem Heard.change {a : Act n C} (hs : Sound s) (h : Heard s) (hk : HitsNoneDeaf s a)
    (hc : Change s a s') : Heard s' := by
  have hrun : ∀ {c p i}, s.cpu c = .runs p i → (s.proc p).state ≠ .sleeping := fun hc => by
    simp [hs.seats.running _ _ (Sound.proc_of_runs hc)]
  cases hc with
  | acquire | skip | finish | unlock | full | env => exact h.congr rfl rfl
  | switch c i p hc hp => exact h.put (q := p) rfl rfl id (by simp)
  | awake c p i x hc hp =>
    have hx : x.deaf = false := by
      rcases hp with ⟨-, rfl⟩ | ⟨w, -, rfl⟩ <;> rfl
    have hp : (s.proc p).state ≠ .sleeping := by simp [hs.seats.running c p (by rw [hc]; rfl)]
    exact (h.goto (x := x) hp (by simp [hx])).put (q := p) rfl rfl id id
  | alloc c p i np hc hp hl hnp =>
    exact (h.goto (x := .forkStack np) (hrun hc) (by simp [Pc.deaf])).put (q := np) rfl rfl id (by simp)
  | stack c p i np hc hp => exact h.goto (hrun hc) (by simp [Pc.deaf])
  | unstack c p i np hc hp | uncopy c p i np hc hp =>
    exact (h.goto (x := .user) (hrun hc) (by simp [Pc.deaf])).put (q := np) rfl rfl id (by simp)
  | copy c p i np hc hp =>
    exact (h.goto (x := .forkReady np) (hrun hc) (by simp [Pc.deaf])).put (q := np) rfl rfl id id
  | ready c p i np hc hp hl =>
    have hnp : (s.proc np).state ≠ .sleeping := by simp [hs.posts.fork p np (by rw [hp]; rfl)]
    have hboth := (h.goto (x := .user) hnp (by simp [Pc.deaf])).goto (x := .user) (hrun hc)
      (by simp [Pc.deaf])
    exact hboth.put (q := np) rfl rfl id (by simp)
  | exit c p i hc hp hl hinit =>
    have he := exited s c p i
    refine h.turn (p := p) (fun q hq => ?_) (fun q hq => ?_) (fun q hq hsl => ?_) (fun hd => ?_) fun hsl => ?_
    · simp [exit, update_of_ne hq]
    · rw [he.killed q, hq]
    · exact Kin.sleeping (he.state q hq) hsl
    · simp [exit, Pc.deaf] at hd
    · rw [he.zombie] at hsl
      cases hsl
  | reap c p q i s0 a hw ha hq hz =>
    obtain ⟨h0, hcpu, -, -⟩ := hw.spec hs
    have hp : (s0.proc p).state ≠ .sleeping := by simp [h0.seats.running c p hcpu]
    exact ((hw.heard h).goto (x := .user) hp (by simp [Pc.deaf])).put (q := q) rfl rfl (fun _ => rfl) (by simp)
  | childless c p i s0 a hw ha hp =>
    obtain ⟨h0, hcpu, -, -⟩ := hw.spec hs
    have hp : (s0.proc p).state ≠ .sleeping := by simp [h0.seats.running c p hcpu]
    exact ((hw.heard h).goto (x := .user) hp (by simp [Pc.deaf])).congr rfl rfl
  | await c p i s0 a hw ha hk' hkid hz =>
    exact (hw.heard h).fallAsleep (fun _ => hk') rfl
  | yield c p i hc hl => exact h.put (q := p) rfl rfl id (by simp)
  | sleep c p i k hc hp hl =>
    exact h.fallAsleep (fun hin => by simp [Pc.inLoop] at hin) rfl
  | sleepOn c p i w hc hp hl =>
    have hheld : Heard { s with held := update s.held w.lk none } := h.congr rfl rfl
    exact hheld.fallAsleep (fun _ => h.deaf p (by rw [hp]; rfl)) rfl
  | wakeup ch hl => exact h.rouse rfl (killed_wakeup1 _ _) (sleeping_wakeup1 _ _)
  | wake c p i w hc hp hl =>
    have hwoken : Heard { s with proc := wakeup1 s.proc (some .nread) } :=
      h.rouse rfl (killed_wakeup1 _ _) (sleeping_wakeup1 _ _)
    exact hwoken.goto (fun hsl => hrun hc (sleeping_wakeup1 _ _ p hsl)) fun _ =>
      hwoken.deaf p (by rw [hp]; rfl)
  | kill c p i pid hc hp hl =>
    refine ⟨fun q hq => ?_, fun q hq hin => ?_⟩
    · rcases kill_proc s.proc pid q with h' | ⟨hf, -⟩
      · exact (congrArg Proc.killed h').trans (h.deaf q hq)
      · rw [hk q hf] at hq
        cases hq
    · rcases kill_proc s.proc pid q with h' | ⟨-, hsl⟩
      · exact (congrArg Proc.killed h').trans (h.asleep q ((congrArg Proc.state h').symm.trans hq) hin)
      · exact absurd hq hsl
  | fault c p i hc hp =>
    refine ⟨fun q hq => ?_, fun q hq hin => ?_⟩
    · have hqp : q ≠ p := by
        rintro rfl
        simp [hp, Pc.deaf] at hq
      simpa [update_of_ne hqp] using h.deaf q hq
    · have hqp : q ≠ p := by
        rintro rfl
        simp [hrun hc] at hq
      simp only [setProc_proc, update_of_ne hqp] at hq ⊢
      exact h.asleep q hq hin
  | shift c p i x l a hc hx ha =>
    refine (h.goto (x := x) (hrun hc) fun hd => ?_).congr rfl rfl
    -- the two ways on to sleep are behind the test
    cases hx <;> simp_all [Pc.deaf]

omit [DecidableEq C] in
theorem heard_userinit (init : Fin n) : Heard (userinit init : State n C) := by
  have hpc : ∀ q, (userinit init : State n C).pc q = .user ∨
      (userinit init : State n C).pc q = .dead := by
    intro q
    by_cases hq : q = init
    · subst hq
      exact .inl (update_self _ _ _)
    · exact .inr (update_of_ne hq _ _)
  refine ⟨fun p hp => ?_, fun p _ hp => ?_⟩
  all_goals rcases hpc p with h | h <;> rw [h] at hp <;> cases hp

/-- Where no `kill` hits a process between its test of `killed` and its falling asleep, a killed
process does not sleep in `piperead`, `pipewrite`, `consoleread`, `sys_sleep` or `wait`. -/
theorem killed_not_asleep {init : Fin n} {acts : List (Act n C)}
    (hrun : Trans.Run State.step HitsNoneDeaf (State.userinit init) acts s)
    (p : Fin n) (hk : (s.proc p).killed = true) :
    ¬ ((s.proc p).state = .sleeping ∧ (s.pc p = .waiting ∨ ∃ w, s.pc p = .slept w)) := by
  have h : Sound s ∧ Heard s := by
    refine hrun.induct (I := fun s => Sound s ∧ Heard s) ⟨sound_userinit init, heard_userinit init⟩
      fun s a s' h hc hstep => ?_
    exact ⟨h.1.change (change_of_step hstep), h.2.change h.1 hc (change_of_step hstep)⟩
  rintro ⟨hs, hpc⟩
  have hin : (s.pc p).inLoop = true := by
    rcases hpc with hpc | ⟨w, hpc⟩ <;> rw [hpc] <;> rfl
  rw [h.2.asleep p hs hin] at hk
  cases hk

def killChild : List (Act NPROC Bool) := firstFork ++ [.kill true 2]

def killSleeper : List (Act NPROC Bool) :=
  firstFork ++ [.enter false (.sysSleep 100 0), .test false, .sleepOn false] ++
    List.replicate 63 (.sched false) ++ [.kill true 2]

theorem killed_not_asleep_killSleeper : ∃ s : State NPROC Bool,
    Trans.Run State.step HitsNoneDeaf (State.userinit ⟨0, by decide⟩) killSleeper s ∧
      (s.proc ⟨1, by decide⟩).killed = true ∧ s.pc ⟨1, by decide⟩ = .slept (.sysSleep 100 0) ∧
      ¬ ((s.proc ⟨1, by decide⟩).state = .sleeping ∧
        (s.pc ⟨1, by decide⟩ = .waiting ∨ ∃ w, s.pc ⟨1, by decide⟩ = .slept w)) := by
  have hexec : (Trans.exec step (fun s a => decide (HitsNoneDeaf s a))
      (userinit ⟨0, by decide⟩ : State NPROC Bool) killSleeper).any
        (fun s => (s.proc ⟨1, by decide⟩).killed ∧ s.pc ⟨1, by decide⟩ = .slept (.sysSleep 100 0)) =
          true := by
    decide +kernel
  obtain ⟨s, hrun, hq⟩ := Trans.Run.of_exec_any (C := HitsNoneDeaf)
    (fun _ _ => of_decide_eq_true) hexec
  obtain ⟨hk, hpc⟩ := of_decide_eq_true hq
  exact ⟨s, hrun, hk, hpc, killed_not_asleep hrun _ hk⟩

/-- The child calls `sleep(100)` and tests `killed`; `kill(2)` runs to its end; then the child goes
to sleep, and its CPU searches the rest of the table. -/
def killInWindow : List (Act NPROC Bool) :=
  firstFork ++ [.enter false (.sysSleep 100 0), .test false, .kill true 2, .sleepOn false] ++
    List.replicate 63 (.sched false)

/-- The child sleeps although `kill` has returned. -/
theorem killed_asleep_sysSleep : ∃ s : State NPROC Bool,
    Trans.Run State.step Trans.Any (State.userinit ⟨0, by decide⟩) killInWindow s ∧ s.lock = none ∧
      (s.proc ⟨1, by decide⟩).pid = 2 ∧ (s.proc ⟨1, by decide⟩).killed = true ∧
      (s.proc ⟨1, by decide⟩).state = .sleeping ∧
      s.pc ⟨1, by decide⟩ = .slept (.sysSleep 100 0) := by
  have hexec : (Trans.exec step (fun _ _ => true)
      (userinit ⟨0, by decide⟩ : State NPROC Bool) killInWindow).any
        (fun s => s.lock = none ∧ (s.proc ⟨1, by decide⟩).pid = 2 ∧
          (s.proc ⟨1, by decide⟩).killed = true ∧ (s.proc ⟨1, by decide⟩).state = .sleeping ∧
          s.pc ⟨1, by decide⟩ = .slept (.sysSleep 100 0)) = true := by
    decide +kernel
  obtain ⟨s, hrun, hq⟩ := Trans.Run.of_exec_any (C := Trans.Any) (fun _ _ _ => trivial) hexec
  exact ⟨s, hrun, of_decide_eq_true hq⟩

end Xv6.Ptable
