import Xv6.Proofs.Ptable

/-! The scheduler. Every step keeps `ptable.lock` with one CPU, the RUNNING processes those that
the CPUs run, and every process at a place in its code that goes with its state. -/

open Function Trans

namespace Xv6.Ptable

open State

variable {n : ℕ} {C : Type} [DecidableEq C] {s s' : State n C} {c : C} {p q np : Fin n} {i : ℕ}

/-! The CPUs. -/

def Cpu.locked : Cpu n → Bool
  | .scan _ => true
  | .switched _ _ => true
  | _ => false

/-- The lock is with the CPU that scans or has just switched, and the RUNNING processes are those
of the CPUs, one each. -/
structure Seats (s : State n C) : Prop where
  owner : ∀ c, s.lock = some c ↔ (s.cpu c).locked = true
  running : ∀ c p, (s.cpu c).proc = some p → (s.proc p).state = .running
  once : ∀ c c' p, (s.cpu c).proc = some p → (s.cpu c').proc = some p → c = c'
  placed : ∀ p, (s.proc p).state = .running → ∃ c, (s.cpu c).proc = some p

omit [DecidableEq C] in
theorem Seats.keep (h : Seats s) (hcpu : s'.cpu = s.cpu) (hlock : s'.lock = s.lock)
    (hrun : ∀ q, (s'.proc q).state = .running ↔ (s.proc q).state = .running) : Seats s' where
  owner c := by
    rw [hcpu, hlock]
    exact h.owner c
  running c p hp := by
    rw [hcpu] at hp
    exact (hrun p).mpr (h.running c p hp)
  once c c' p hp hp' := by
    rw [hcpu] at hp hp'
    exact h.once c c' p hp hp'
  placed p hp := by
    rw [hcpu]
    exact h.placed p ((hrun p).mp hp)

section

variable (h : Seats s) (hl : s.lock = none ∨ s.lock = some c)
include h hl

theorem Seats.owner_set {x : Cpu n} {l : Option C} (hx : l = if x.locked then some c else none)
    (c' : C) : l = some c' ↔ (update s.cpu c x c').locked = true := by
  have := h.owner c'
  by_cases hc : c' = c
  · subst hc
    rw [update_self, hx]
    cases x.locked <;> simp
  · rw [update_of_ne hc, ← this, hx]
    rcases hl with hl | hl <;> rw [hl] <;> cases x.locked <;> simp [Ne.symm hc]

theorem Seats.set {x : Cpu n} (hcpu : s'.cpu = update s.cpu c x)
    (hx : s'.lock = if x.locked then some c else none) (hproc : x.proc = (s.cpu c).proc)
    (hrun : ∀ q, (s'.proc q).state = .running ↔ (s.proc q).state = .running) : Seats s' := by
  have hsame : ∀ c', (s'.cpu c').proc = (s.cpu c').proc := by
    intro c'
    rw [hcpu]
    by_cases hc : c' = c
    · subst hc
      rw [update_self, hproc]
    · rw [update_of_ne hc]
  refine ⟨fun c' => ?_, fun c' p hp => ?_, fun c' c'' p hp hp' => ?_, fun p hp => ?_⟩
  · rw [hcpu]
    exact h.owner_set hl hx c'
  · exact (hrun p).mpr (h.running c' p (hsame c' ▸ hp))
  · exact h.once c' c'' p (hsame c' ▸ hp) (hsame c'' ▸ hp')
  · obtain ⟨c', hc'⟩ := h.placed p ((hrun p).mp hp)
    exact ⟨c', (hsame c').trans hc'⟩

theorem Seats.leave {x : Cpu n} (hc : (s.cpu c).proc = some p) (hcpu : s'.cpu = update s.cpu c x)
    (hx : s'.lock = if x.locked then some c else none) (hproc : x.proc = none)
    (hp : (s'.proc p).state ≠ .running)
    (hrun : ∀ q ≠ p, (s'.proc q).state = .running ↔ (s.proc q).state = .running) : Seats s' := by
  have hother : ∀ c' q, (s'.cpu c').proc = some q → c' ≠ c ∧ (s.cpu c').proc = some q := by
    intro c' q hq
    rw [hcpu] at hq
    by_cases hcc : c' = c
    · subst hcc
      rw [update_self, hproc] at hq
      cases hq
    · rw [update_of_ne hcc] at hq
      exact ⟨hcc, hq⟩
  refine ⟨fun c' => ?_, fun c' q hq => ?_, fun c' c'' q hq hq' => ?_, fun q hq => ?_⟩
  · rw [hcpu]
    exact h.owner_set hl hx c'
  · obtain ⟨hne, hq⟩ := hother c' q hq
    have hqp : q ≠ p := fun hqp => hne (h.once c' c q hq (hqp ▸ hc))
    exact (hrun q hqp).mpr (h.running c' q hq)
  · exact h.once c' c'' q (hother c' q hq).2 (hother c'' q hq').2
  · have hqp : q ≠ p := fun hqp => hp (hqp ▸ hq)
    obtain ⟨c', hc'⟩ := h.placed q ((hrun q hqp).mp hq)
    have hne : c' ≠ c := fun hcc => hqp (Option.some.inj ((hcc ▸ hc').symm.trans hc))
    exact ⟨c', by rw [hcpu, update_of_ne hne, hc']⟩

end

theorem Seats.switch (h : Seats s) (hc : s.cpu c = .scan i) (hp : (s.proc p).state = .runnable) :
    Seats ((s.setProc p { s.proc p with state := .running }).setCpu c (.switched p (i + 1))) := by
  have hfree : ∀ c', (s.cpu c').proc ≠ some p := fun c' hc' => by
    have := h.running c' p hc'
    rw [hp] at this
    cases this
  refine ⟨fun c' => ?_, fun c' q hq => ?_, fun c' c'' q hq hq' => ?_, fun q hq => ?_⟩
  · exact h.owner_set (.inr ((h.owner c).mpr (by rw [hc]; rfl))) ((h.owner c).mpr (by rw [hc]; rfl)) c'
  · by_cases hqp : q = p
    · subst hqp
      simp
    · simp only [setCpu_cpu, setProc_cpu, setCpu_proc, setProc_proc] at hq ⊢
      rw [update_of_ne hqp]
      by_cases hcc : c' = c
      · subst hcc
        rw [update_self] at hq
        exact absurd (Option.some.inj hq).symm hqp
      · rw [update_of_ne hcc] at hq
        exact h.running c' q hq
  · simp only [setCpu_cpu, setProc_cpu] at hq hq'
    by_cases hc1 : c' = c <;> by_cases hc2 : c'' = c
    · rw [hc1, hc2]
    · subst hc1
      rw [update_self] at hq
      rw [update_of_ne hc2] at hq'
      exact absurd ((Option.some.inj hq).symm ▸ hq') (hfree c'')
    · subst hc2
      rw [update_self] at hq'
      rw [update_of_ne hc1] at hq
      exact absurd ((Option.some.inj hq').symm ▸ hq) (hfree c')
    · rw [update_of_ne hc1] at hq
      rw [update_of_ne hc2] at hq'
      exact h.once c' c'' q hq hq'
  · by_cases hqp : q = p
    · exact ⟨c, by simp [hqp, Cpu.proc]⟩
    · simp only [setCpu_proc, setProc_proc, update_of_ne hqp] at hq
      obtain ⟨c', hc'⟩ := h.placed q hq
      have hne : c' ≠ c := by
        rintro rfl
        rw [hc] at hc'
        cases hc'
      exact ⟨c', by simp [update_of_ne hne, hc']⟩

/-! The code positions. -/

def ProcState.lifeless : ProcState → Bool
  | .unused => true
  | .embryo => true
  | .zombie => true
  | _ => false

def Kin (x y : ProcState) : Prop := y = x ∨ x = .sleeping ∧ y = .runnable

/-- Where the processes are in their code, by their states, and the slots that are being filled. -/
structure Posts (s : State n C) : Prop where
  dead : ∀ p, s.pc p = .dead ↔ (s.proc p).state.lifeless = true
  asleep : ∀ p, (s.proc p).state = .sleeping → (s.pc p).asleep = true
  awake : ∀ c p i, s.cpu c = .runs p i → (s.pc p).asleep = false
  fork : ∀ p np, (s.pc p).forking = some np → (s.proc np).state = .embryo
  forkOnce : ∀ p p' np, (s.pc p).forking = some np → (s.pc p').forking = some np → p = p'

structure Sound (s : State n C) : Prop where
  seats : Seats s
  posts : Posts s

variable {x y : ProcState} {acts : List (Act n C)} {s0 : State n C} {init : Fin n} {a : Act n C}

theorem Kin.lifeless (h : Kin x y) : y.lifeless = x.lifeless := by
  rcases h with rfl | ⟨rfl, rfl⟩ <;> rfl

theorem Kin.running (h : Kin x y) : y = .running ↔ x = .running := by
  rcases h with rfl | ⟨rfl, rfl⟩ <;> simp

theorem Kin.same {x y z : ProcState} (h : Kin x y) (hz : z ≠ .runnable) (hy : y = z) : x = z := by
  rcases h with rfl | ⟨-, rfl⟩
  · exact hy
  · exact absurd hy.symm hz

theorem Kin.sleeping (h : Kin x y) (hy : y = .sleeping) : x = .sleeping :=
  h.same (by simp) hy

theorem Kin.embryo (h : Kin x y) (hx : x = .embryo) : y = .embryo := by
  rcases h with rfl | ⟨rfl, rfl⟩
  · exact hx
  · cases hx

theorem Kin.of_roused {t t' : Fin n → Proc n} (h : Roused t t') (q : Fin n) :
    Kin (t q).state (t' q).state := by
  rcases h q with h | ⟨hs, h⟩
  · exact .inl (by rw [h])
  · exact .inr ⟨hs, by rw [h]⟩

omit [DecidableEq C] in
/-- A process acts: the other slots are left alone or woken, and it fills no other slot than
before. -/
theorem Posts.turn (h : Posts s) (hother : ∀ q ≠ p, s'.pc q = s.pc q)
    (hkin : ∀ q ≠ p, Kin (s.proc q).state (s'.proc q).state)
    (hp : s.pc p ≠ .dead) (hdead : s'.pc p = .dead ↔ (s'.proc p).state.lifeless = true)
    (hsleep : (s'.proc p).state = .sleeping → (s'.pc p).asleep = true)
    (hfork : ∀ np, (s'.pc p).forking = some np → (s.pc p).forking = some np)
    (hrun : ∀ c q i, s'.cpu c = .runs q i → (s'.pc q).asleep = false) : Posts s' := by
  have hforking : ∀ q np, (s'.pc q).forking = some np → (s.pc q).forking = some np := by
    intro q np hq
    by_cases hqp : q = p
    · subst hqp
      exact hfork np hq
    · rwa [hother q hqp] at hq
  refine ⟨fun q => ?_, fun q hq => ?_, hrun, fun q np hq => ?_, fun q q' np hq hq' => ?_⟩
  · by_cases hqp : q = p
    · subst hqp
      exact hdead
    · rw [hother q hqp, (hkin q hqp).lifeless]
      exact h.dead q
  · by_cases hqp : q = p
    · subst hqp
      exact hsleep hq
    · rw [hother q hqp]
      exact h.asleep q ((hkin q hqp).sleeping hq)
  · have hnp := h.fork q np (hforking q np hq)
    have hne : np ≠ p := by
      rintro rfl
      exact hp ((h.dead np).mpr (by rw [hnp]; rfl))
    exact (hkin np hne).embryo hnp
  · exact h.forkOnce q q' np (hforking q np hq) (hforking q' np hq')

omit [DecidableEq C] in
theorem Posts.rouse (h : Posts s) (hpc : s'.pc = s.pc)
    (hkin : ∀ q, Kin (s.proc q).state (s'.proc q).state)
    (hrun : ∀ c q i, s'.cpu c = .runs q i → (s.pc q).asleep = false) : Posts s' where
  dead q := by
    rw [hpc, (hkin q).lifeless]
    exact h.dead q
  asleep q hq := by
    rw [hpc]
    exact h.asleep q ((hkin q).sleeping hq)
  awake c q i hc := by
    rw [hpc]
    exact hrun c q i hc
  fork q np hq := by
    rw [hpc] at hq
    exact (hkin np).embryo (h.fork q np hq)
  forkOnce q q' np hq hq' := by
    rw [hpc] at hq hq'
    exact h.forkOnce q q' np hq hq'

theorem Posts.awake_set (h : Posts s) {x : Cpu n} (hx : ∀ q j, x ≠ .runs q j) (c' : C) (q : Fin n)
    (j : ℕ) (hq : update s.cpu c x c' = .runs q j) : (s.pc q).asleep = false := by
  by_cases hcc : c' = c
  · rw [hcc, update_self] at hq
    exact absurd hq (hx q j)
  · rw [update_of_ne hcc] at hq
    exact h.awake c' q j hq

omit [DecidableEq C] in
theorem Sound.proc_of_runs (hc : s.cpu c = .runs p i) : (s.cpu c).proc = some p := by
  rw [hc]
  rfl

omit [DecidableEq C] in
theorem Sound.alive (h : Sound s) (hc : (s.cpu c).proc = some p) : s.pc p ≠ .dead := by
  intro hd
  have := (h.posts.dead p).mp hd
  rw [h.seats.running c p hc] at this
  cases this

theorem Sound.runs_awake (h : Sound s) (hc : (s.cpu c).proc = some p) {x : Cpu n}
    (hcpu : s'.cpu = update s.cpu c x) (hother : ∀ q ≠ p, s'.pc q = s.pc q)
    (hx : ∀ q j, x = .runs q j → q = p ∧ (s'.pc p).asleep = false) :
    ∀ c q i, s'.cpu c = .runs q i → (s'.pc q).asleep = false := by
  intro c' q j hq
  rw [hcpu] at hq
  by_cases hcc : c' = c
  · subst hcc
    rw [update_self] at hq
    obtain ⟨rfl, ha⟩ := hx q j hq
    exact ha
  · rw [update_of_ne hcc] at hq
    have hqp : q ≠ p := by
      rintro rfl
      exact hcc (h.seats.once c' c q (by rw [hq]; rfl) hc)
    rw [hother q hqp]
    exact h.posts.awake c' q j hq

omit [DecidableEq C] in
theorem Sound.goes (h : Sound s) (hc : (s.cpu c).proc = some p) {x : Pc n} (hseats : Seats s')
    (hpc : s'.pc = update s.pc p x) (hkin : ∀ q, Kin (s.proc q).state (s'.proc q).state)
    (hdead : x ≠ .dead) (hfork : ∀ np, x.forking = some np → (s.pc p).forking = some np)
    (hrun : ∀ c q i, s'.cpu c = .runs q i → (s'.pc q).asleep = false) : Sound s' := by
  have hx : s'.pc p = x := by rw [hpc, update_self]
  have hrunning : (s'.proc p).state = .running :=
    (hkin p).running.mpr (h.seats.running c p hc)
  refine ⟨hseats, h.posts.turn (p := p) (fun q hq => by rw [hpc, update_of_ne hq])
    (fun q _ => hkin q) (h.alive hc) ?_ ?_ (by rwa [hx]) hrun⟩
  · rw [hx, hrunning]
    simp [hdead, ProcState.lifeless]
  · rw [hrunning]
    simp

theorem Sound.stay (h : Sound s) (hl : s.lock = none ∨ s.lock = some c)
    (hc : (s.cpu c).proc = some p) {x : Pc n} (hcpu : s'.cpu = update s.cpu c (.runs p i))
    (hlock : s'.lock = none) (hpc : s'.pc = update s.pc p x)
    (hkin : ∀ q, Kin (s.proc q).state (s'.proc q).state) (hdead : x ≠ .dead)
    (hasleep : x.asleep = false) (hfork : ∀ np, x.forking = some np → (s.pc p).forking = some np) :
    Sound s' := by
  have hseats := h.seats.set hl hcpu (by simpa [Cpu.locked] using hlock) (by rw [hc]; rfl)
    fun q => (hkin q).running
  refine h.goes hc hseats hpc hkin hdead hfork (h.runs_awake hc hcpu
    (fun q hq => by rw [hpc, update_of_ne hq]) fun q j hq => ?_)
  cases hq
  exact ⟨rfl, by rw [hpc, update_self, hasleep]⟩

theorem Sound.leave (h : Sound s) (hl : s.lock = none ∨ s.lock = some c)
    (hc : (s.cpu c).proc = some p) {x : Pc n} (hcpu : s'.cpu = update s.cpu c (.scan i))
    (hlock : s'.lock = some c) (hpc : s'.pc = update s.pc p x)
    (hkin : ∀ q ≠ p, Kin (s.proc q).state (s'.proc q).state)
    (hp : (s'.proc p).state ≠ .running) (hdead : x = .dead ↔ (s'.proc p).state.lifeless = true)
    (hsleep : (s'.proc p).state = .sleeping → x.asleep = true)
    (hfork : ∀ np, x.forking = some np → (s.pc p).forking = some np) : Sound s' := by
  have hother : ∀ q ≠ p, s'.pc q = s.pc q := fun q hq => by rw [hpc, update_of_ne hq]
  have hx : s'.pc p = x := by rw [hpc, update_self]
  refine ⟨h.seats.leave hl hc hcpu (by simpa [Cpu.locked] using hlock) rfl hp
    fun q hq => (hkin q hq).running, h.posts.turn (p := p) hother hkin (h.alive hc) ?_ ?_ ?_
      (h.runs_awake hc hcpu hother ?_)⟩
  · rwa [hx]
  · rwa [hx]
  · rwa [hx]
  · intro q j hq
    cases hq

omit [DecidableEq C] in
theorem Sound.act (h : Sound s) (hc : s.cpu c = .runs p i) {x : Pc n} (hcpu : s'.cpu = s.cpu)
    (hlock : s'.lock = s.lock) (hpc : s'.pc = update s.pc p x)
    (hkin : ∀ q, Kin (s.proc q).state (s'.proc q).state) (hdead : x ≠ .dead)
    (hasleep : x.asleep = false) (hfork : ∀ np, x.forking = some np → (s.pc p).forking = some np) :
    Sound s' := by
  have hseats := h.seats.keep hcpu hlock fun q => (hkin q).running
  refine h.goes (Sound.proc_of_runs hc) hseats hpc hkin hdead hfork fun c' q j hq => ?_
  rw [hcpu] at hq
  rw [hpc]
  by_cases hqp : q = p
  · rw [hqp, update_self, hasleep]
  · rw [update_of_ne hqp]
    exact h.posts.awake c' q j hq

omit [DecidableEq C] in
theorem Sound.forking_ne (h : Sound s) (hq : (s.proc q).state ≠ .embryo) (r : Fin n) :
    (s.pc r).forking ≠ some q := fun hr => hq (h.posts.fork r q hr)

omit [DecidableEq C] in
theorem Sound.relabel (h : Sound s) {x : Proc n} (hq : (s.proc q).state.lifeless = true)
    (hx : x.state.lifeless = true) (hno : ∀ r, (s.pc r).forking ≠ some q) :
    Sound (s.setProc q x) := by
  have hrun : ∀ r, ((s.setProc q x).proc r).state = .running ↔ (s.proc r).state = .running := by
    intro r
    by_cases hr : r = q
    · subst hr
      rw [setProc_proc, update_self]
      constructor <;> intro h' <;> simp [h', ProcState.lifeless] at hq hx
    · rw [setProc_proc, update_of_ne hr]
  refine ⟨h.seats.keep rfl rfl hrun, fun r => ?_, fun r hr => ?_, h.posts.awake, fun r np hr => ?_,
    h.posts.forkOnce⟩
  · by_cases hr : r = q
    · subst hr
      rw [setProc_proc, update_self, hx]
      simpa [hq] using h.posts.dead r
    · rw [setProc_proc, update_of_ne hr]
      exact h.posts.dead r
  · by_cases hrq : r = q
    · subst hrq
      rw [setProc_proc, update_self] at hr
      simp [hr, ProcState.lifeless] at hx
    · rw [setProc_proc, update_of_ne hrq] at hr
      exact h.posts.asleep r hr
  · have hne : np ≠ q := by
      rintro rfl
      exact hno r hr
    rw [setProc_proc, update_of_ne hne]
    exact h.posts.fork r np hr

omit [DecidableEq C] in
theorem Sound.fill (h : Sound s) (hc : s.cpu c = .runs p i) (hp : s.pc p = .user)
    (hnp : (s.proc np).state = .embryo) (hno : ∀ r, (s.pc r).forking ≠ some np) :
    Sound (s.goto p (.forkStack np)) := by
  have hrunning := h.seats.running c p (Sound.proc_of_runs hc)
  have hpc : ∀ r ≠ p, (s.goto p (.forkStack np)).pc r = s.pc r := fun r hr =>
    update_of_ne hr _ _
  have hself : (s.goto p (.forkStack np)).pc p = .forkStack np := update_self _ _ _
  refine ⟨h.seats.keep rfl rfl fun q => Iff.rfl, fun r => ?_, fun r hr => ?_, fun c' r j hr => ?_,
    fun r np' hr => ?_, fun r r' np' hr hr' => ?_⟩
  · by_cases hrp : r = p
    · subst hrp
      rw [hself, goto_proc, hrunning]
      simp [ProcState.lifeless]
    · rw [hpc r hrp]
      exact h.posts.dead r
  · have hrp : r ≠ p := by
      rintro rfl
      rw [goto_proc, hrunning] at hr
      cases hr
    rw [hpc r hrp]
    exact h.posts.asleep r hr
  · by_cases hrp : r = p
    · rw [hrp, hself]
      rfl
    · rw [hpc r hrp]
      exact h.posts.awake c' r j hr
  · by_cases hrp : r = p
    · subst hrp
      rw [hself] at hr
      cases hr
      exact hnp
    · rw [hpc r hrp] at hr
      exact h.posts.fork r np' hr
  · -- nobody else fills `np`
    have hmine : ∀ x, ((s.goto p (.forkStack np)).pc x).forking = some np → x = p := by
      intro x hx
      by_contra hxp
      rw [hpc x hxp] at hx
      exact hno x hx
    by_cases hnn : np' = np
    · subst hnn
      rw [hmine r hr, hmine r' hr']
    · have hne : ∀ x, ((s.goto p (.forkStack np)).pc x).forking = some np' → x ≠ p := by
        rintro x hx rfl
        rw [hself] at hx
        exact hnn (Option.some.inj hx).symm
      rw [hpc r (hne r hr)] at hr
      rw [hpc r' (hne r' hr')] at hr'
      exact h.posts.forkOnce r r' np' hr hr'

omit [DecidableEq C] in
theorem Sound.birth (h : Sound s) {x : Proc n} (hnp : (s.proc np).state = .embryo)
    (hx : x.state = .runnable) (hno : ∀ r, (s.pc r).forking ≠ some np) :
    Sound ((s.setProc np x).goto np .user) := by
  have hproc : ∀ r ≠ np, ((s.setProc np x).goto np .user).proc r = s.proc r := fun r hr =>
    update_of_ne hr _ _
  have hself : ((s.setProc np x).goto np .user).proc np = x := update_self _ _ _
  have hpc : ∀ r ≠ np, ((s.setProc np x).goto np .user).pc r = s.pc r := fun r hr =>
    update_of_ne hr _ _
  have hpself : ((s.setProc np x).goto np .user).pc np = .user := update_self _ _ _
  have hforking : ∀ r np', (((s.setProc np x).goto np .user).pc r).forking = some np' →
      (s.pc r).forking = some np' := by
    intro r np' hr
    by_cases hrn : r = np
    · subst hrn
      rw [hpself] at hr
      cases hr
    · rwa [hpc r hrn] at hr
  refine ⟨h.seats.keep rfl rfl fun r => ?_, fun r => ?_, fun r hr => ?_, fun c' r j hr => ?_,
    fun r np' hr => ?_, fun r r' np' hr hr' =>
      h.posts.forkOnce r r' np' (hforking r np' hr) (hforking r' np' hr')⟩
  · by_cases hrn : r = np
    · subst hrn
      rw [hself, hx, hnp]
      simp
    · rw [hproc r hrn]
  · by_cases hrn : r = np
    · subst hrn
      rw [hself, hpself, hx]
      simp [ProcState.lifeless]
    · rw [hproc r hrn, hpc r hrn]
      exact h.posts.dead r
  · have hrn : r ≠ np := by
      rintro rfl
      rw [hself, hx] at hr
      cases hr
    rw [hproc r hrn] at hr
    rw [hpc r hrn]
    exact h.posts.asleep r hr
  · by_cases hrn : r = np
    · rw [hrn, hpself]
      rfl
    · rw [hpc r hrn]
      exact h.posts.awake c' r j hr
  · have hne : np' ≠ np := by
      rintro rfl
      exact hno r (hforking r np' hr)
    rw [hproc np' hne]
    exact h.posts.fork r np' (hforking r np' hr)

omit [DecidableEq C] in
theorem Sound.congr (h : Sound s) (hproc : s'.proc = s.proc) (hpc : s'.pc = s.pc)
    (hcpu : s'.cpu = s.cpu) (hlock : s'.lock = s.lock) : Sound s' :=
  ⟨h.seats.keep hcpu hlock fun q => by rw [hproc],
    h.posts.rouse hpc (fun q => .inl (by rw [hproc])) fun c q i hq => by
      rw [hcpu] at hq
      exact h.posts.awake c q i hq⟩

theorem kin_update {t : Fin n → Proc n} {x : Proc n} (hx : x.state = (t p).state) (q : Fin n) :
    Kin (t q).state (update t p x q).state := by
  left
  by_cases hq : q = p
  · rw [hq, update_self, hx]
  · rw [update_of_ne hq]

theorem kin_kill (t : Fin n → Proc n) (pid : BitVec 32) (q : Fin n) :
    Kin (t q).state ((kill t pid).2 q).state := by
  unfold kill
  split
  · next p _ =>
    by_cases hq : q = p
    · subst hq
      simp only [update_self]
      split_ifs with hs
      · exact .inr ⟨hs, rfl⟩
      · exact .inl rfl
    · simp only [update_of_ne hq]
      exact .inl rfl
  · exact .inl rfl

omit [DecidableEq C] in
theorem Sound.lock_of_switched (h : Sound s) (hc : s.cpu c = .switched p i) : s.lock = some c :=
  (h.seats.owner c).mpr (by rw [hc]; rfl)

omit [DecidableEq C] in
theorem Sound.lock_of_scan (h : Sound s) (hc : s.cpu c = .scan i) : s.lock = some c :=
  (h.seats.owner c).mpr (by rw [hc]; rfl)

omit [DecidableEq C] in
theorem InWait.spec (hw : InWait s c p i s0) (h : Sound s) :
    Sound s0 ∧ (s0.cpu c).proc = some p ∧ (s0.lock = none ∨ s0.lock = some c) ∧
      (s0.pc p).forking = none := by
  rcases hw with ⟨hc, hp, hl, rfl⟩ | ⟨hc, hp, rfl⟩
  · exact ⟨h, Sound.proc_of_runs hc, .inl hl, by rw [hp]; rfl⟩
  · refine ⟨?_, by simp [hc, Cpu.proc], .inr (h.lock_of_switched hc), by simp [hp, Pc.forking]⟩
    exact ⟨h.seats.keep rfl rfl fun q => (kin_update (by rfl) q).running,
      h.posts.rouse rfl (kin_update (by rfl)) h.posts.awake⟩

theorem InWait.return (hw : InWait s c p i s0) (h : Sound s) :
    Sound ((s0.goto p .user).release c p i) := by
  obtain ⟨h0, hc, hl, -⟩ := hw.spec h
  exact h0.stay hl hc (x := .user) rfl rfl rfl (fun q => .inl rfl) (by simp) rfl (by simp [Pc.forking])

theorem Sound.fallAsleep (h : Sound s) (hl : s.lock = none ∨ s.lock = some c)
    (hc : (s.cpu c).proc = some p) {ch : Chan n} {x : Pc n} (hx : x.asleep = true) :
    Sound (s.fallAsleep c p i ch x) := by
  refine h.leave (x := x) (i := i) hl hc rfl rfl rfl (fun q hq => ?_) ?_ ?_ ?_ ?_
  · simp [State.fallAsleep, update_of_ne hq, Kin]
  · simp [State.fallAsleep]
  · simp only [State.fallAsleep, sched_proc, goto_proc, setProc_proc,
      update_self, ProcState.lifeless, Bool.false_eq_true, iff_false]
    rintro rfl
    cases hx
  · exact fun _ => hx
  · intro np hnp
    cases x <;> simp_all [Pc.asleep, Pc.forking]

theorem Sound.change (h : Sound s) (hs : Change s a s') : Sound s' := by
  cases hs with
  | acquire c hc hl =>
    exact ⟨h.seats.set (c := c) (.inl hl) rfl rfl (by rw [hc]; rfl) fun q => Iff.rfl,
      h.posts.rouse rfl (fun q => .inl rfl) (h.posts.awake_set nofun)⟩
  | skip c i hc =>
    exact ⟨h.seats.set (.inr (h.lock_of_scan hc)) rfl (h.lock_of_scan hc) (by rw [hc]; rfl)
      fun q => Iff.rfl, h.posts.rouse rfl (fun q => .inl rfl) (h.posts.awake_set nofun)⟩
  | finish c i hc =>
    exact ⟨h.seats.set (c := c) (.inr (h.lock_of_scan hc)) rfl rfl (by rw [hc]; rfl)
      fun q => Iff.rfl, h.posts.rouse rfl (fun q => .inl rfl) (h.posts.awake_set nofun)⟩
  | switch c i p hc hp =>
    have hpc : s.pc p ≠ .dead := fun hd => by
      have := (h.posts.dead p).mp hd
      rw [hp] at this
      cases this
    refine ⟨h.seats.switch hc hp, h.posts.turn (p := p) (fun q _ => rfl) (fun q hq => ?_) hpc ?_ ?_
      (fun np hnp => hnp) (h.posts.awake_set nofun)⟩
    · simp [update_of_ne hq, Kin]
    · simp [hpc, ProcState.lifeless]
    · simp
  | unlock c p i hc hp =>
    have hproc : (s.cpu c).proc = some p := by rw [hc]; rfl
    exact h.stay (x := s.pc p) (.inr (h.lock_of_switched hc)) hproc rfl rfl
      (update_eq_self _ _).symm (fun q => .inl rfl) (h.alive hproc) hp fun np hnp => hnp
  | awake c p i x hc hp =>
    have hproc : (s.cpu c).proc = some p := by rw [hc]; rfl
    refine h.stay (x := x) (.inr (h.lock_of_switched hc)) hproc rfl rfl rfl (kin_update (by rfl)) ?_ ?_ ?_
    all_goals rcases hp with ⟨-, rfl⟩ | ⟨w, -, rfl⟩ <;> simp [Pc.asleep, Pc.forking]
  | full => exact h
  | alloc c p i np hc hp hl hnp =>
    have hno := h.forking_ne (q := np) (by rw [hnp]; simp)
    have hset : Sound (s.setProc np { s.proc np with state := .embryo, pid := s.nextpid }) :=
      h.relabel (by rw [hnp]; rfl) rfl hno
    have hembryo : ((s.setProc np { s.proc np with state := .embryo, pid := s.nextpid }).proc np).state =
        .embryo := by simp
    exact (hset.fill hc hp hembryo hno).congr rfl rfl rfl rfl
  | stack c p i np hc hp =>
    exact h.act (x := .forkCopy np) hc rfl rfl rfl (fun q => .inl rfl) (by simp) rfl
      (by simp [hp, Pc.forking])
  | unstack c p i np hc hp | uncopy c p i np hc hp =>
    have hfork : (s.pc p).forking = some np := by rw [hp]; rfl
    have hquit : Sound (s.goto p .user) :=
      h.act (x := .user) hc rfl rfl rfl (fun q => .inl rfl) (by simp) rfl (by simp [Pc.forking])
    refine hquit.relabel (q := np) ?_ rfl fun r hr => ?_
    · rw [goto_proc, h.posts.fork p np hfork]
      rfl
    · by_cases hrp : r = p
      · simp [hrp, Pc.forking] at hr
      · rw [goto_pc, update_of_ne hrp] at hr
        exact hrp (h.posts.forkOnce r p np hr hfork)
  | copy c p i np hc hp =>
    exact h.act (x := .forkReady np) hc rfl rfl rfl (kin_update (by rfl)) (by simp) rfl
      (by simp [hp, Pc.forking])
  | ready c p i np hc hp hl =>
    have hfork : (s.pc p).forking = some np := by rw [hp]; rfl
    have hembryo := h.posts.fork p np hfork
    have hquit : Sound (s.goto p .user) :=
      h.act (x := .user) hc rfl rfl rfl (fun q => .inl rfl) (by simp) rfl (by simp [Pc.forking])
    have hne : p ≠ np := by
      rintro rfl
      have := h.seats.running c p (Sound.proc_of_runs hc)
      rw [hembryo] at this
      cases this
    have hbirth := hquit.birth (x := { s.proc np with state := .runnable }) hembryo rfl
      fun r hr => by
        by_cases hrp : r = p
        · simp [hrp, Pc.forking] at hr
        · rw [goto_pc, update_of_ne hrp] at hr
          exact hrp (h.posts.forkOnce r p np hr hfork)
    refine hbirth.congr rfl ?_ rfl rfl
    simp only [goto_pc, setProc_pc]
    exact update_comm hne.symm _ _ _
  | exit c p i hc hp hl hinit =>
    have he := exited s c p i
    refine h.leave (x := .dead) (.inl hl) (Sound.proc_of_runs hc) rfl rfl rfl (fun q hq => ?_) ?_ ?_ ?_ ?_
    · exact he.state q hq
    · rw [he.zombie]
      simp
    · rw [he.zombie]
      simp [ProcState.lifeless]
    · rw [he.zombie]
      simp
    · simp [Pc.forking]
  | reap c p q i s0 a hw ha hq hz =>
    have hret := hw.return h
    have hlife : (s0.proc q).state.lifeless = true := by rw [hz]; rfl
    have hno := hret.forking_ne (q := q) (by
      rw [release_proc, goto_proc, hz]
      simp)
    exact (hret.relabel (x := { s0.proc q with pid := 0, parent := none, killed := false, state := .unused })
      hlife rfl hno).congr rfl rfl rfl rfl
  | childless c p i s0 a hw ha hp => exact hw.return h
  | await c p i s0 a hw ha hk hkid hz =>
    obtain ⟨h0, hc, hl, -⟩ := hw.spec h
    exact h0.fallAsleep hl hc rfl
  | yield c p i hc hl =>
    refine h.leave (x := s.pc p) (i := i) (.inl hl) (Sound.proc_of_runs hc) rfl rfl
      (update_eq_self _ _).symm (fun q hq => ?_) ?_ ?_ ?_ fun np hnp => hnp
    · simp [update_of_ne hq, Kin]
    · simp
    · simp [h.alive (Sound.proc_of_runs hc), ProcState.lifeless]
    · simp
  | sleep c p i k hc hp hl => exact h.fallAsleep (.inl hl) (Sound.proc_of_runs hc) rfl
  | sleepOn c p i w hc hp hl =>
    have hheld : Sound { s with held := update s.held w.lk none } := h.congr rfl rfl rfl rfl
    exact hheld.fallAsleep (.inl hl) (Sound.proc_of_runs hc) rfl
  | wakeup ch hl =>
    have hkin := Kin.of_roused (roused_wakeup1 s.proc (some ch))
    exact ⟨h.seats.keep rfl rfl fun q => (hkin q).running, h.posts.rouse rfl hkin h.posts.awake⟩
  | wake c p i w hc hp hl =>
    exact h.act (x := .toSleep w) hc rfl rfl rfl (Kin.of_roused (roused_wakeup1 s.proc _)) (by simp) rfl
      (by simp [Pc.forking])
  | kill c p i pid hc hp hl =>
    have hkin := kin_kill s.proc pid
    exact ⟨h.seats.keep rfl rfl fun q => (hkin q).running, h.posts.rouse rfl hkin h.posts.awake⟩
  | fault c p i hc hp =>
    have hkin : ∀ q, Kin (s.proc q).state
        (update s.proc p { s.proc p with killed := true } q).state := kin_update (by rfl)
    exact ⟨h.seats.keep rfl rfl fun q => (hkin q).running, h.posts.rouse rfl hkin h.posts.awake⟩
  | shift c p i x l a hc hx ha =>
    refine h.act (x := x) hc rfl rfl rfl (fun q => .inl rfl) ?_ ?_ ?_
    all_goals cases hx <;> simp [Pc.asleep, Pc.forking]
  | env e => exact h.congr rfl rfl rfl rfl

/-! Runs. -/

omit [DecidableEq C] in
theorem sound_userinit (init : Fin n) : Sound (userinit init : State n C) := by
  have hproc : ∀ q ≠ init, ((userinit init : State n C).proc q) = {} := fun q hq =>
    update_of_ne hq _ _
  have hself : ((userinit init : State n C).proc init).state = .runnable := by
    simp [userinit]
  have hpc : ∀ q ≠ init, (userinit init : State n C).pc q = .dead := fun q hq =>
    update_of_ne hq _ _
  have hpself : (userinit init : State n C).pc init = .user := update_self _ _ _
  have hstate : ∀ q, ((userinit init : State n C).proc q).state ≠ .running ∧
      ((userinit init : State n C).proc q).state ≠ .sleeping := by
    intro q
    by_cases hq : q = init
    · rw [hq, hself]
      simp
    · rw [hproc q hq]
      simp
  have hforking : ∀ q, ((userinit init : State n C).pc q).forking = none := by
    intro q
    by_cases hq : q = init
    · rw [hq, hpself]
      rfl
    · rw [hpc q hq]
      rfl
  refine ⟨⟨fun c => ?_, fun c p hp => ?_, fun c c' p hp => ?_, fun p hp => absurd hp (hstate p).1⟩,
    ⟨fun q => ?_, fun q hq => absurd hq (hstate q).2, fun c p i hc => ?_, fun p np hp => ?_,
      fun p p' np hp => ?_⟩⟩
  · constructor <;> intro h <;> cases h
  · cases hp
  · cases hp
  · by_cases hq : q = init
    · rw [hq, hpself, hself]
      simp [ProcState.lifeless]
    · rw [hpc q hq, hproc q hq]
      simp [ProcState.lifeless]
  · cases hc
  · rw [hforking] at hp
    cases hp
  · rw [hforking] at hp
    cases hp

theorem Sound.run {C' : State n C → Act n C → Prop}
    (hrun : Run step C' (userinit init) acts s) : Sound s :=
  hrun.induct (sound_userinit init) fun _ _ _ h _ hstep => h.change (change_of_step hstep)

theorem dead_update {t : Fin n → Pc n} {x : Pc n} (hp : t p ≠ .dead) (hq : t q = .dead) :
    update t p x q = .dead := by
  rw [update_of_ne, hq]
  rintro rfl
  exact hp hq

theorem Sound.dead_change (h : Sound s) (hs : Change s a s') (hq : s.pc q = .dead) :
    s'.pc q = .dead ∨ ∃ c, a = .ready c ∧ (s.proc q).state = .embryo ∧
      (s'.proc q).state = .runnable := by
  cases hs with
  | acquire | skip | finish | switch | unlock | full | yield | wakeup | kill | fault | env => exact .inl hq
  | ready c p i np hc hp hl =>
    have hfork : (s.pc p).forking = some np := by rw [hp]; rfl
    by_cases hqn : q = np
    · subst hqn
      exact .inr ⟨c, rfl, h.posts.fork p q hfork, by simp⟩
    · left
      have hq' : update s.pc np .user q = .dead := by rwa [update_of_ne hqn]
      have hqp : q ≠ p := by
        rintro rfl
        rw [hp] at hq
        cases hq
      simp only [goto_pc, update_of_ne hqp]
      exact hq'
  | exit c p i hc =>
    left
    by_cases hqp : q = p
    · simp [exit, hqp]
    · simpa [exit, update_of_ne hqp] using hq
  | awake c p i x hc =>
    exact .inl (dead_update (h.alive (c := c) (by rw [hc]; rfl)) hq)
  | alloc c p i np hc | unstack c p i np hc | stack c p i np hc | copy c p i np hc
  | uncopy c p i np hc =>
    exact .inl (dead_update (h.alive (Sound.proc_of_runs hc)) hq)
  | sleep c p i k hc => exact .inl (dead_update (h.alive (Sound.proc_of_runs hc)) hq)
  | sleepOn c p i w hc | wake c p i w hc | shift c p i x l a hc =>
    exact .inl (dead_update (h.alive (Sound.proc_of_runs hc)) hq)
  | reap c p q' i s0 a hw | childless c p i s0 a hw | await c p i s0 a hw =>
    obtain ⟨h0, hc, -, -⟩ := hw.spec h
    have hpc : s0.pc = s.pc := by
      rcases hw with ⟨-, -, -, rfl⟩ | ⟨-, -, rfl⟩ <;> rfl
    rw [← hpc] at hq
    exact .inl (dead_update (h0.alive hc) hq)

/-- Between a state in which the slot has no process and one in which it is alive, `fork` makes it
RUNNABLE. -/
theorem Sound.born (h : Sound s) (hrun : Run step Any s acts s') (hq : s.pc q = .dead) :
    s'.pc q = .dead ∨ ∃ acts₁ c acts₂ s₁ s₂, acts = acts₁ ++ .ready c :: acts₂ ∧
      Run step Any s acts₁ s₁ ∧ s₁.step (.ready c) = some s₂ ∧
      Run step Any s₂ acts₂ s' ∧ (s₁.proc q).state = .embryo ∧ (s₂.proc q).state = .runnable := by
  induction hrun with
  | nil => exact .inl hq
  | @snoc s' s'' acts a hrun hc hstep ih =>
    have hs' : Sound s' := hrun.induct h fun _ _ _ h _ hstep => h.change (change_of_step hstep)
    rcases ih with hd | ⟨acts₁, c, acts₂, s₁, s₂, rfl, hr1, hready, hr2, he, hb⟩
    · rcases hs'.dead_change (change_of_step hstep) hd with hd' | ⟨c, rfl, he, hb⟩
      · exact .inl hd'
      · exact .inr ⟨acts, c, [], s', s'', rfl, hrun, hstep, .nil _, he, hb⟩
    · refine .inr ⟨acts₁, c, acts₂ ++ [a], s₁, s₂, ?_, hr1, hready, .snoc hr2 hc hstep, he, hb⟩
      rw [List.append_assoc, List.cons_append]

/-- In every state, with `ptable.lock` free or not, a process is RUNNING iff exactly one CPU has it as `c->proc`, and
no CPU has a process in another state; a slot that is UNUSED, EMBRYO or ZOMBIE becomes RUNNING only
after a `fork` has made it RUNNABLE. -/
theorem one_cpu_per_process {init : Fin n} {acts : List (Act n C)}
    (hrun : Trans.Run State.step Trans.Any (State.userinit init) acts s) :
    (∀ p, ((s.proc p).state = .running ↔ ∃! c, (s.cpu c).proc = some p) ∧
      ∀ c, (s.cpu c).proc = some p → (s.proc p).state = .running) ∧
    ∀ p acts' s', (s.proc p).state = .unused ∨ (s.proc p).state = .embryo ∨
        (s.proc p).state = .zombie →
      Trans.Run State.step Trans.Any s acts' s' → (s'.proc p).state = .running →
      ∃ acts₁ c acts₂ s₁ s₂, acts' = acts₁ ++ .ready c :: acts₂ ∧
        Trans.Run State.step Trans.Any s acts₁ s₁ ∧ s₁.step (.ready c) = some s₂ ∧
        Trans.Run State.step Trans.Any s₂ acts₂ s' ∧ (s₁.proc p).state = .embryo ∧
        (s₂.proc p).state = .runnable := by
  have h := Sound.run hrun
  refine ⟨fun p => ⟨⟨fun hp => ?_, ?_⟩, fun c => h.seats.running c p⟩, fun p acts' s' hp hrun' hp' => ?_⟩
  · obtain ⟨c, hc⟩ := h.seats.placed p hp
    exact ⟨c, hc, fun c' hc' => h.seats.once c' c p hc' hc⟩
  · rintro ⟨c, hc, -⟩
    exact h.seats.running c p hc
  · have hdead : s.pc p = .dead := by
      rw [h.posts.dead p]
      rcases hp with hp | hp | hp <;> rw [hp] <;> rfl
    have h' : Sound s' := hrun'.induct h fun _ _ _ h _ hstep => h.change (change_of_step hstep)
    refine (h.born hrun' hdead).resolve_left fun hd => ?_
    have := (h'.posts.dead p).mp hd
    rw [hp'] at this
    cases this

def firstFork : List (Act NPROC Bool) :=
  [.sched true, .sched true, .resume true, .fork true, .kstack true true, .copyuvm true true,
    .ready true, .sched false, .sched false, .sched false, .resume false]

theorem one_cpu_per_process_firstFork : ∃ s : State NPROC Bool,
    Trans.Run State.step Trans.Any (State.userinit ⟨0, by decide⟩) firstFork s ∧ s.lock = none ∧
      (s.proc ⟨1, by decide⟩).state = .running ∧ ∃! c, (s.cpu c).proc = some ⟨1, by decide⟩ := by
  have hexec : (exec step (fun _ _ => true)
      (userinit ⟨0, by decide⟩ : State NPROC Bool) firstFork).any
        (fun s => s.lock = none ∧ (s.proc ⟨1, by decide⟩).state = .running) = true := by
    decide +kernel
  obtain ⟨s, hrun, hq⟩ := Run.of_exec_any (C := Any) (fun _ _ _ => trivial) hexec
  obtain ⟨hl, hr⟩ := of_decide_eq_true hq
  exact ⟨s, hrun, hl, hr, ((one_cpu_per_process hrun).1 _).1.mp hr⟩

end Xv6.Ptable
