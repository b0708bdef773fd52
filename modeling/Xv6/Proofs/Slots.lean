import Xv6.Proofs.Kill

/-! How slots are recycled: what their pids and their `killed` are as `fork` takes them, fails or
succeeds, and `wait` gives them back. -/

open Function

open Trans (Any Run exec)

namespace Xv6.Ptable

open State

variable {n : ℕ} {C : Type} [DecidableEq C] {s s' : State n C} {c : C} {p q np : Fin n} {i : ℕ}

def Meek (t t' : Fin n → Proc n) : Prop :=
  ∀ q, (t' q).pid = (t q).pid ∧ (t' q).killed = (t q).killed ∧
    ((t' q).state = .unused ↔ (t q).state = .unused)

variable (t : Fin n → Proc n)

theorem Meek.refl : Meek t t := fun _ => ⟨rfl, rfl, Iff.rfl⟩

theorem Meek.trans {t t' t'' : Fin n → Proc n} (h : Meek t t') (h' : Meek t' t'') : Meek t t'' :=
  fun q => ⟨(h' q).1.trans (h q).1, (h' q).2.1.trans (h q).2.1, (h' q).2.2.trans (h q).2.2⟩

theorem meek_update {t : Fin n → Proc n} {x : Proc n} (hpid : x.pid = (t p).pid)
    (hk : x.killed = (t p).killed) (hst : x.state = .unused ↔ (t p).state = .unused) :
    Meek t (update t p x) := by
  intro q
  by_cases hq : q = p
  · subst hq
    rw [update_self]
    exact ⟨hpid, hk, hst⟩
  · rw [update_of_ne hq]
    exact ⟨rfl, rfl, Iff.rfl⟩

theorem meek_wakeup1 (ch : Option (Chan n)) : Meek t (wakeup1 t ch) := by
  intro q
  rcases wakeup1_eq t ch q with h | ⟨hs, -, h⟩
  · rw [h]
    exact ⟨rfl, rfl, Iff.rfl⟩
  · rw [h, hs]
    simp

omit [DecidableEq C] in
theorem InWait.meek {s0 : State n C} (hw : InWait s c p i s0) : Meek s.proc s0.proc :=
  fun q => ⟨(hw.proc q).2.2.2, (hw.proc q).2.1, by rw [(hw.proc q).1]⟩

theorem meek_exit (hp : (s.proc p).state ≠ .unused) : Meek s.proc (s.exit c p i).proc := by
  have he := exited s c p i
  refine fun q => ⟨he.pid q, he.killed q, ?_⟩
  by_cases hq : q = p
  · subst hq
    rw [he.zombie]
    simp [hp]
  · rcases he.state q hq with h | ⟨h, h'⟩
    · rw [h]
    · rw [h, h']
      simp

theorem kill_spec (pid : BitVec 32) (q : Fin n) : ((kill t pid).2 q).pid = (t q).pid ∧
      (((kill t pid).2 q).state = .unused ↔ (t q).state = .unused) := by
  unfold kill
  split
  · next p _ =>
    by_cases hq : q = p
    · subst hq
      simp only [update_self]
      split_ifs with hs
      · simp [hs]
      · simp
    · simp [update_of_ne hq]
  · simp

inductive Marked (s : State n C) : Act n C → State n C → Prop where
  | alloc (c : C) (np : Fin n) (s' : State n C) (hnp : (s.proc np).state = .unused)
      (hproc : s'.proc = Function.update s.proc np
        { s.proc np with state := .embryo, pid := s.nextpid })
      (hnext : s'.nextpid = s.nextpid + 1) (hblows : s'.blows = Function.update s.blows np []) :
      Marked s (.fork c) s'
  | unalloc (c : C) (p np : Fin n) (i : ℕ) (a : Act n C) (s' : State n C) (hc : s.cpu c = .runs p i)
      (ha : a = .kstack c false ∨ a = .copyuvm c false) (hp : (s.pc p).forking = some np)
      (hproc : s'.proc = Function.update s.proc np { s.proc np with state := .unused })
      (hnext : s'.nextpid = s.nextpid) (hblows : s'.blows = s.blows) : Marked s a s'
  | reap (q : Fin n) (t : Fin n → Proc n) (x : Proc n) (a : Act n C) (s' : State n C)
      (ht : Meek s.proc t) (hx : x.state = .unused) (hk : x.killed = false)
      (hproc : s'.proc = Function.update t q x) (hnext : s'.nextpid = s.nextpid)
      (hblows : s'.blows = s.blows) : Marked s a s'
  | kill (c : C) (pid : BitVec 32) (s' : State n C) (hproc : s'.proc = (kill s.proc pid).2)
      (hnext : s'.nextpid = s.nextpid) (hblows : s'.blows = fun q => s.blows q ++ [.kill pid]) :
      Marked s (.kill c pid) s'
  | fault (c : C) (p : Fin n) (s' : State n C) (hp : (s.proc p).state ≠ .unused)
      (hproc : s'.proc = Function.update s.proc p { s.proc p with killed := true })
      (hnext : s'.nextpid = s.nextpid) (hblows : s'.blows = fun q => s.blows q ++ [.fault p]) :
      Marked s (.fault c) s'

variable {a : Act n C}

theorem Sound.meek_or_marked (h : Sound s) (hc : Change s a s') :
    Meek s.proc s'.proc ∧ s'.nextpid = s.nextpid ∧ s'.blows = s.blows ∨ Marked s a s' := by
  have hlive : ∀ {c p i}, s.cpu c = .runs p i → (s.proc p).state = .running := fun hc =>
    h.seats.running _ _ (Sound.proc_of_runs hc)
  cases hc with
  | acquire | skip | finish | unlock | full | stack | shift | env =>
    exact .inl ⟨.refl _, rfl, rfl⟩
  | switch c i p hc hp => exact .inl ⟨meek_update rfl rfl (by simp [hp]), rfl, rfl⟩
  | awake => exact .inl ⟨meek_update rfl rfl Iff.rfl, rfl, rfl⟩
  | alloc c p i np hc hp hl hnp => exact .inr (.alloc c np _ hnp rfl rfl rfl)
  | unstack c p i np hc hp =>
    exact .inr (.unalloc c p np i _ _ hc (.inl rfl) (by rw [hp]; rfl) rfl rfl rfl)
  | uncopy c p i np hc hp =>
    exact .inr (.unalloc c p np i _ _ hc (.inr rfl) (by rw [hp]; rfl) rfl rfl rfl)
  | copy => exact .inl ⟨meek_update rfl rfl Iff.rfl, rfl, rfl⟩
  | ready c p i np hc hp hl =>
    have hnp := h.posts.fork p np (by rw [hp]; rfl)
    exact .inl ⟨meek_update rfl rfl (by simp [hnp]), rfl, rfl⟩
  | exit c p i hc => exact .inl ⟨meek_exit (by rw [hlive hc]; simp), rfl, rfl⟩
  | reap c p q i s0 a hw =>
    have hsame : s0.nextpid = s.nextpid ∧ s0.blows = s.blows := by
      rcases hw with ⟨-, -, -, rfl⟩ | ⟨-, -, rfl⟩ <;> exact ⟨rfl, rfl⟩
    exact .inr (.reap q s0.proc _ _ _ hw.meek rfl rfl rfl hsame.1 hsame.2)
  | childless c p i s0 a hw =>
    have hsame : s0.nextpid = s.nextpid ∧ s0.blows = s.blows := by
      rcases hw with ⟨-, -, -, rfl⟩ | ⟨-, -, rfl⟩ <;> exact ⟨rfl, rfl⟩
    exact .inl ⟨hw.meek, hsame⟩
  | await c p i s0 a hw =>
    have hsame : s0.nextpid = s.nextpid ∧ s0.blows = s.blows := by
      rcases hw with ⟨-, -, -, rfl⟩ | ⟨-, -, rfl⟩ <;> exact ⟨rfl, rfl⟩
    obtain ⟨h0, hcpu, -, -⟩ := hw.spec h
    refine .inl ⟨hw.meek.trans (meek_update rfl rfl ?_), hsame⟩
    simp [h0.seats.running c p hcpu]
  | yield c p i hc => exact .inl ⟨meek_update rfl rfl (by simp [hlive hc]), rfl, rfl⟩
  | sleep c p i k hc => exact .inl ⟨meek_update rfl rfl (by simp [hlive hc]), rfl, rfl⟩
  | sleepOn c p i w hc => exact .inl ⟨meek_update rfl rfl (by simp [hlive hc]), rfl, rfl⟩
  | wakeup => exact .inl ⟨meek_wakeup1 _ _, rfl, rfl⟩
  | wake => exact .inl ⟨meek_wakeup1 _ _, rfl, rfl⟩
  | kill c p i pid => exact .inr (.kill c pid _ rfl rfl rfl)
  | fault c p i hc => exact .inr (.fault c p _ (by rw [hlive hc]; simp) rfl rfl rfl)

/-! Pids. -/

def BeforeWrap (s : State n C) : Act n C → Prop
  | .fork _ => 0 < s.nextpid.toInt
  | _ => True

instance (s : State n C) : DecidablePred (BeforeWrap s)
  | .fork _ => inferInstanceAs (Decidable (0 < s.nextpid.toInt))
  | .sched _ | .resume _ | .kill _ _ | .kstack _ _ | .copyuvm _ _ | .ready _ | .exit _ | .wait _
  | .yield _ | .sleep _ _ | .wakeup _ | .fault _ | .enter _ _ | .test _ | .leave _ | .wake _
  | .sleepOn _ | .relock _ | .env _ => isTrue trivial

structure Numbered (s : State n C) : Prop where
  next : s.nextpid.toNat ≤ 2 ^ 31
  bound : ∀ p, (s.proc p).state ≠ .unused →
    0 < (s.proc p).pid.toNat ∧ (s.proc p).pid.toNat < s.nextpid.toNat
  once : ∀ p q, (s.proc p).state ≠ .unused → (s.proc q).state ≠ .unused →
    (s.proc p).pid = (s.proc q).pid → p = q
  forked : ∀ e ∈ s.forked, 0 < e.2.toInt

theorem toInt_pos_iff (x : BitVec 32) : 0 < x.toInt ↔ 0 < x.toNat ∧ x.toNat < 2 ^ 31 := by
  rw [BitVec.toInt_eq_toNat_cond]
  have := x.isLt
  split_ifs <;> omega

theorem Sound.forked_change (h : Sound s) (hc : Change s a s') :
    s'.forked = s.forked ∨ ∃ np, (s.proc np).state ≠ .unused ∧
      s'.forked = s.forked ++ [(s.uid np, (s.proc np).pid)] := by
  cases hc with
  | ready c p i np hc hp hl =>
    refine .inr ⟨np, ?_, rfl⟩
    rw [h.posts.fork p np (by rw [hp]; rfl)]
    simp
  | reap c p q i s0 a hw | childless c p i s0 a hw | await c p i s0 a hw =>
    rcases hw with ⟨-, -, -, rfl⟩ | ⟨-, -, rfl⟩ <;> exact .inl rfl
  | _ => exact .inl rfl

omit [DecidableEq C] in
theorem Numbered.shrink (h : Numbered s) (hnext : s'.nextpid = s.nextpid)
    (hproc : ∀ q, (s'.proc q).state ≠ .unused →
      (s.proc q).state ≠ .unused ∧ (s'.proc q).pid = (s.proc q).pid)
    (hforked : ∀ e ∈ s'.forked, 0 < e.2.toInt) : Numbered s' where
  next := hnext ▸ h.next
  bound p hp := by
    rw [hnext, (hproc p hp).2]
    exact h.bound p (hproc p hp).1
  once p q hp hq hpq := by
    rw [(hproc p hp).2, (hproc q hq).2] at hpq
    exact h.once p q (hproc p hp).1 (hproc q hq).1 hpq
  forked := hforked

omit [DecidableEq C] in
theorem Numbered.alloc (h : Numbered s) (hpos : 0 < s.nextpid.toInt)
    (hproc : s'.proc = update s.proc np
      { s.proc np with state := .embryo, pid := s.nextpid })
    (hnext : s'.nextpid = s.nextpid + 1) (hforked : ∀ e ∈ s'.forked, 0 < e.2.toInt) :
    Numbered s' := by
  obtain ⟨hlow, hhigh⟩ := (toInt_pos_iff _).mp hpos
  have hone : (s.nextpid + 1).toNat = s.nextpid.toNat + 1 := by
    rw [BitVec.toNat_add, show (1 : BitVec 32).toNat = 1 from rfl]
    omega
  have hself : (s'.proc np).pid = s.nextpid := by rw [hproc, update_self]
  have hother : ∀ q ≠ np, s'.proc q = s.proc q := fun q hq => by rw [hproc, update_of_ne hq]
  -- no slot in use has the new pid
  have hfresh : ∀ q ≠ np, (s'.proc q).state ≠ .unused → (s'.proc q).pid ≠ s.nextpid := by
    intro q hq hst heq
    rw [hother q hq] at hst heq
    have := (h.bound q hst).2
    rw [heq] at this
    omega
  refine ⟨by rw [hnext, hone]; omega, fun p hp => ?_, fun p q hp hq hpq => ?_, hforked⟩
  · rw [hnext, hone]
    by_cases hpn : p = np
    · rw [hpn, hself]
      omega
    · rw [hother p hpn] at hp ⊢
      have := h.bound p hp
      omega
  · by_cases hpn : p = np <;> by_cases hqn : q = np
    · rw [hpn, hqn]
    · rw [hpn, hself] at hpq
      exact absurd hpq.symm (hfresh q hqn hq)
    · rw [hqn, hself] at hpq
      exact absurd hpq (hfresh p hpn hp)
    · rw [hother p hpn] at hp hpq
      rw [hother q hqn] at hq hpq
      exact h.once p q hp hq hpq

theorem Numbered.change (hs : Sound s) (h : Numbered s) (hw : BeforeWrap s a)
    (hc : Change s a s') : Numbered s' := by
  have hforked : ∀ e ∈ s'.forked, 0 < e.2.toInt := by
    intro e he
    rcases hs.forked_change hc with hf | ⟨np, hnp, hf⟩
    · exact h.forked e (hf ▸ he)
    · rw [hf, List.mem_append, List.mem_singleton] at he
      rcases he with he | rfl
      · exact h.forked e he
      · have hb := h.bound np hnp
        have hn := h.next
        exact (toInt_pos_iff (s.proc np).pid).mpr ⟨hb.1, by omega⟩
  rcases hs.meek_or_marked hc with ⟨hm, hnext, -⟩ | hm
  · exact h.shrink hnext (fun q hq => ⟨fun hu => hq ((hm q).2.2.mpr hu), (hm q).1⟩) hforked
  · cases hm with
    | alloc c np _ hnp hproc hnext => exact h.alloc hw hproc hnext hforked
    | unalloc c p np i _ _ hc ha hp hproc hnext =>
      refine h.shrink hnext (fun q hq => ?_) hforked
      by_cases hqn : q = np
      · subst hqn
        simp [hproc] at hq
      · rw [hproc, update_of_ne hqn] at hq ⊢
        exact ⟨hq, rfl⟩
    | reap q t x _ _ ht hx hk hproc hnext =>
      refine h.shrink hnext (fun r hr => ?_) hforked
      by_cases hrq : r = q
      · subst hrq
        simp [hproc, hx] at hr
      · rw [hproc, update_of_ne hrq] at hr ⊢
        exact ⟨fun hu => hr ((ht r).2.2.mpr hu), (ht r).1⟩
    | kill c pid _ hproc hnext =>
      refine h.shrink hnext (fun q hq => ?_) hforked
      rw [hproc] at hq ⊢
      have := kill_spec s.proc pid q
      exact ⟨fun hu => hq (this.2.mpr hu), this.1⟩
    | fault c p _ hp hproc hnext =>
      refine h.shrink hnext (fun q hq => ?_) hforked
      by_cases hqp : q = p
      · subst hqp
        rw [hproc, update_self] at hq ⊢
        exact ⟨hq, rfl⟩
      · rw [hproc, update_of_ne hqp] at hq ⊢
        exact ⟨hq, rfl⟩

omit [DecidableEq C] in
theorem numbered_userinit (init : Fin n) : Numbered (userinit init : State n C) := by
  have hother : ∀ q ≠ init, ((userinit init : State n C).proc q).state = .unused := by
    intro q hq
    rw [show (userinit init : State n C).proc q = {} from update_of_ne hq _ _]
  have hself : ((userinit init : State n C).proc init).pid = 1 := by simp [userinit]
  have hinit : ∀ q, ((userinit init : State n C).proc q).state ≠ .unused → q = init :=
    fun q hq => by_contra fun hne => hq (hother q hne)
  have hnext : (userinit init : State n C).nextpid = 2 := rfl
  refine ⟨?_, fun p hp => ?_, fun p q hp hq _ => (hinit p hp).trans (hinit q hq).symm,
    fun e he => by cases he⟩
  · rw [hnext]
    decide
  · rw [hinit p hp, hself, hnext]
    decide

/-- Where `allocproc` runs only while `nextpid` is positive, no two processes have one pid, and
`fork` returns positive pids. -/
theorem pids_unique {init : Fin n} {acts : List (Act n C)}
    (hrun : Trans.Run State.step BeforeWrap (State.userinit init) acts s) :
    (∀ p q, (s.proc p).state ≠ .unused → (s.proc q).state ≠ .unused →
      (s.proc p).pid = (s.proc q).pid → p = q) ∧ ∀ e ∈ s.forked, 0 < e.2.toInt := by
  have h : Sound s ∧ Numbered s := by
    refine hrun.induct (I := fun s => Sound s ∧ Numbered s)
      ⟨sound_userinit init, numbered_userinit init⟩ fun s a s' h hc hstep => ?_
    exact ⟨h.1.change (change_of_step hstep), h.2.change h.1 hc (change_of_step hstep)⟩
  exact ⟨h.2.once, h.2.forked⟩

theorem pids_unique_firstFork : ∃ s : State NPROC Bool,
    Trans.Run State.step BeforeWrap (State.userinit ⟨0, by decide⟩) firstFork s ∧
      s.forked = [(1, 2)] ∧ (∀ p q, (s.proc p).state ≠ .unused → (s.proc q).state ≠ .unused →
        (s.proc p).pid = (s.proc q).pid → p = q) ∧ ∀ e ∈ s.forked, 0 < e.2.toInt := by
  have hexec : (exec step (fun s a => decide (BeforeWrap s a))
      (userinit ⟨0, by decide⟩ : State NPROC Bool) firstFork).any
        (fun s => s.forked = [(1, 2)]) = true := by
    decide +kernel
  obtain ⟨s, hrun, hq⟩ := Trans.Run.of_exec_any (C := BeforeWrap) (fun _ _ => of_decide_eq_true) hexec
  exact ⟨s, hrun, of_decide_eq_true hq, pids_unique hrun⟩

/-! The first process forks again and again, without memory for the child's stack. -/

structure AboutToFork (s : State n C) (c : C) (p : Fin n) (i : ℕ) (np : Fin n) : Prop where
  cpu : s.cpu c = .runs p i
  pc : s.pc p = .user
  lock : s.lock = none
  free : findUnused s.proc = some np

theorem findUnused_congr {t t' : Fin n → Proc n} (h : ∀ q, (t' q).state = (t q).state) :
    findUnused t' = findUnused t := by
  unfold findUnused
  congr 1
  funext q
  rw [h q]

theorem AboutToFork.fail (h : AboutToFork s c p i np) : ∃ s', AboutToFork s' c p i np ∧
    Run step Any s [.fork c, .kstack c false] s' ∧ s'.nextpid = s.nextpid + 1 := by
  have hnp := findUnused_eq_some h.free
  set s1 := s.allocproc p with hs1
  have hpc1 : s1.pc p = .forkStack np := by simp [hs1, allocproc, h.free]
  have hcpu1 : s1.cpu c = .runs p i := by simp [hs1, allocproc, h.free, h.cpu]
  have h1 : s.step (.fork c) = some s1 := by
    simp [step, Act.cpu, h.cpu, run, h.pc, h.lock, hs1]
  have h2 : s1.step (.kstack c false) = some (s1.unalloc p np) := by
    simp [step, Act.cpu, hcpu1, run, hpc1]
  refine ⟨s1.unalloc p np, ⟨hcpu1, ?_, ?_, ?_⟩, ?_, ?_⟩
  · simp [unalloc]
  · simp [unalloc, hs1, allocproc, h.free, h.lock]
  · rw [← h.free]
    refine findUnused_congr fun q => ?_
    by_cases hq : q = np
    · subst hq
      simp [unalloc, hnp]
    · simp [unalloc, hs1, allocproc, h.free, update_of_ne hq]
  · exact .snoc (.snoc (.nil s) trivial h1) trivial h2
  · simp [unalloc, hs1, allocproc, h.free, setProc, goto]

theorem AboutToFork.fails (h : AboutToFork s c p i np) (k : ℕ) : ∃ acts s',
    AboutToFork s' c p i np ∧ Run step Any s acts s' ∧
    s'.nextpid = s.nextpid + BitVec.ofNat 32 k := by
  induction k with
  | zero => exact ⟨[], s, h, .nil s, by simp⟩
  | succ k ih =>
    obtain ⟨acts, s1, h1, hrun, hnext⟩ := ih
    obtain ⟨s2, h2, hrun2, hnext2⟩ := h1.fail
    refine ⟨_, s2, h2, hrun.append hrun2, ?_⟩
    rw [hnext2, hnext, BitVec.add_assoc, BitVec.ofNat_add]
    rfl

theorem AboutToFork.succeed (h : AboutToFork s c p i np) : ∃ acts s',
    Run step Any s acts s' ∧ ∃ e ∈ s'.forked, e.2 = s.nextpid := by
  set s1 := s.allocproc p with hs1
  have hpc1 : s1.pc p = .forkStack np := by simp [hs1, allocproc, h.free]
  have hcpu1 : s1.cpu c = .runs p i := by simp [hs1, allocproc, h.free, h.cpu]
  have hlock1 : s1.lock = none := by simp [hs1, allocproc, h.free, h.lock]
  have hpid1 : (s1.proc np).pid = s.nextpid := by simp [hs1, allocproc, h.free]
  have h1 : s.step (.fork c) = some s1 := by
    simp [step, Act.cpu, h.cpu, run, h.pc, h.lock, hs1]
  set s2 := s1.goto p (.forkCopy np) with hs2
  have h2 : s1.step (.kstack c true) = some s2 := by
    simp [step, Act.cpu, hcpu1, run, hpc1, hs2]
  set s3 := (s2.setProc np { s2.proc np with parent := some p }).goto p (.forkReady np) with hs3
  have h3 : s2.step (.copyuvm c true) = some s3 := by
    simp [step, Act.cpu, hcpu1, run, hs2, hs3]
  have h4 : ∃ s4, s3.step (.ready c) = some s4 ∧
      s4.forked = s3.forked ++ [(s3.uid np, (s3.proc np).pid)] := by
    simp [step, Act.cpu, hcpu1, run, hs2, hs3, hlock1, goto, setProc]
  obtain ⟨s4, h4, hforked⟩ := h4
  refine ⟨_, s4, .snoc (.snoc (.snoc (.snoc (.nil s) trivial h1) trivial h2) trivial h3) trivial h4,
    (s3.uid np, (s3.proc np).pid), by simp [hforked], ?_⟩
  simp [hs3, hs2, hpid1]

/-- After 2^31 - 2 forks that failed, `fork` returns a negative pid. -/
theorem fork_negative_pid : ∃ (acts : List (Act NPROC Unit)) (s : State NPROC Unit),
    Trans.Run State.step Trans.Any (State.userinit ⟨0, by decide⟩) acts s ∧
      ∃ e ∈ s.forked, e.2.toInt < 0 := by
  have hexec : (exec step (fun _ _ => true)
      (userinit ⟨0, by decide⟩ : State NPROC Unit) [.sched (), .sched (), .resume ()]).any
        (fun s => s.cpu () = .runs ⟨0, by decide⟩ 1 ∧ s.pc ⟨0, by decide⟩ = .user ∧ s.lock = none ∧
          findUnused s.proc = some ⟨1, by decide⟩ ∧ s.nextpid = 2) = true := by
    decide +kernel
  obtain ⟨s, hrun, hq⟩ := Trans.Run.of_exec_any (C := Any) (fun _ _ _ => trivial) hexec
  obtain ⟨hcpu, hpc, hlock, hfree, hnext⟩ := of_decide_eq_true hq
  obtain ⟨acts1, s1, h1, hrun1, hnext1⟩ :=
    AboutToFork.fails ⟨hcpu, hpc, hlock, hfree⟩ 2147483646
  obtain ⟨acts2, s2, hrun2, e, he, hpid⟩ := h1.succeed
  refine ⟨_, s2, (hrun.append hrun1).append hrun2, e, he, ?_⟩
  rw [hpid, hnext1, hnext]
  decide

/-! Who is killed. -/

/-- `kill` finds a slot that is not UNUSED, if any, and a `fork` that fails gives back a slot that has
not been killed meanwhile. -/
def Addressed (s : State n C) : Act n C → Prop
  | .kill _ pid => ∀ q, findPid s.proc pid = some q → (s.proc q).state ≠ .unused
  | .kstack c false | .copyuvm c false =>
    ∀ p np, (s.cpu c).proc = some p → (s.pc p).forking = some np → (s.proc np).killed = false
  | _ => True

instance (s : State n C) : DecidablePred (Addressed s)
  | .kill _ pid => inferInstanceAs (Decidable
      (∀ q, findPid s.proc pid = some q → (s.proc q).state ≠ .unused))
  | .kstack c false | .copyuvm c false => inferInstanceAs (Decidable
      (∀ p np, (s.cpu c).proc = some p → (s.pc p).forking = some np → (s.proc np).killed = false))
  | .kstack _ true | .copyuvm _ true => isTrue trivial
  | .sched _ | .resume _ | .fork _ | .ready _ | .exit _ | .wait _ | .yield _ | .sleep _ _
  | .wakeup _ | .fault _ | .enter _ _ | .test _ | .leave _ | .wake _ | .sleepOn _ | .relock _
  | .env _ => isTrue trivial

structure Blamed (s : State n C) : Prop where
  free : ∀ p, (s.proc p).state = .unused → (s.proc p).killed = false
  blow : ∀ p, (s.proc p).state ≠ .unused → (s.proc p).killed = true →
    .kill (s.proc p).pid ∈ s.blows p ∨ .fault p ∈ s.blows p

omit [DecidableEq C] in
theorem Blamed.turn (h : Blamed s)
    (hother : ∀ q ≠ p, (s'.proc q).pid = (s.proc q).pid ∧ (s'.proc q).killed = (s.proc q).killed ∧
      ((s'.proc q).state = .unused ↔ (s.proc q).state = .unused))
    (hblows : ∀ q ≠ p, s.blows q ⊆ s'.blows q)
    (hfree : (s'.proc p).state = .unused → (s'.proc p).killed = false)
    (hblow : (s'.proc p).state ≠ .unused → (s'.proc p).killed = true →
      .kill (s'.proc p).pid ∈ s'.blows p ∨ .fault p ∈ s'.blows p) : Blamed s' where
  free q hq := by
    by_cases hqp : q = p
    · subst hqp
      exact hfree hq
    · obtain ⟨-, hk, hu⟩ := hother q hqp
      rw [hk, h.free q (hu.mp hq)]
  blow q hq hkq := by
    by_cases hqp : q = p
    · subst hqp
      exact hblow hq hkq
    · obtain ⟨hpid, hk, hu⟩ := hother q hqp
      rw [hpid]
      exact (h.blow q (fun hq' => hq (hu.mpr hq')) (hk ▸ hkq)).imp
        (fun hb => hblows q hqp hb) fun hb => hblows q hqp hb

theorem kill_other (pid : BitVec 32) (hq : findPid t pid ≠ some q) : (kill t pid).2 q = t q := by
  rcases kill_proc t pid q with h | ⟨h, -⟩
  · exact h
  · exact absurd h hq

theorem Blamed.change (hs : Sound s) (h : Blamed s) (ha : Addressed s a)
    (hc : Change s a s') : Blamed s' := by
  rcases hs.meek_or_marked hc with ⟨hm, -, hblows⟩ | hm
  · refine ⟨fun q hq => ?_, fun q hq hk => ?_⟩
    · rw [(hm q).2.1, h.free q ((hm q).2.2.mp hq)]
    · rw [(hm q).1, hblows]
      exact h.blow q (fun hu => hq ((hm q).2.2.mpr hu)) ((hm q).2.1 ▸ hk)
  · cases hm with
    | alloc c np _ hnp hproc hnext hblows =>
      -- a free slot is not killed, so the new process is not
      have hk : (s'.proc np).killed = false := by
        rw [hproc, update_self]
        exact h.free np hnp
      refine h.turn (p := np) (fun q hq => ?_) (fun q hq => ?_) (fun _ => hk) fun _ hk' => ?_
      · rw [hproc, update_of_ne hq]
        exact ⟨rfl, rfl, Iff.rfl⟩
      · rw [hblows, update_of_ne hq]
        exact List.Subset.refl _
      · rw [hk] at hk'
        cases hk'
    | unalloc c p np i _ _ hcpu ha' hp hproc hnext hblows =>
      have hk : (s.proc np).killed = false := by
        rcases ha' with rfl | rfl <;> exact ha p np (Sound.proc_of_runs hcpu) hp
      refine h.turn (p := np) (fun q hq => ?_) (fun q _ => ?_) (fun _ => ?_) fun hu => ?_
      · rw [hproc, update_of_ne hq]
        exact ⟨rfl, rfl, Iff.rfl⟩
      · rw [hblows]
        exact List.Subset.refl _
      · rw [hproc, update_self]
        exact hk
      · simp [hproc] at hu
    | reap q t x _ _ ht hx hk hproc hnext hblows =>
      refine h.turn (p := q) (fun r hr => ?_) (fun r _ => ?_) (fun _ => ?_) fun hu => ?_
      · rw [hproc, update_of_ne hr]
        exact ht r
      · rw [hblows]
        exact List.Subset.refl _
      · rw [hproc, update_self, hk]
      · simp [hproc, hx] at hu
    | kill c pid _ hproc hnext hblows =>
      have hsub : ∀ q, s.blows q ⊆ s'.blows q := fun q => by
        rw [hblows]
        exact List.subset_append_left _ _
      refine ⟨fun q hq => ?_, fun q hq hk => ?_⟩
      · rw [hproc] at hq ⊢
        have hu := (kill_spec s.proc pid q).2.mp hq
        rw [kill_other s.proc pid fun hf => ha q hf hu, h.free q hu]
      · by_cases hf : findPid s.proc pid = some q
        · left
          rw [hproc, (kill_spec s.proc pid q).1, findPid_eq_some hf, hblows]
          simp
        · rw [hproc, kill_other s.proc pid hf] at hq hk
          rw [hproc, kill_other s.proc pid hf]
          exact (h.blow q hq hk).imp (fun hb => hsub q hb) fun hb => hsub q hb
    | fault c p _ hp hproc hnext hblows =>
      refine h.turn (p := p) (fun q hq => ?_) (fun q _ => ?_) (fun hu => ?_) fun _ _ => ?_
      · rw [hproc, update_of_ne hq]
        exact ⟨rfl, rfl, Iff.rfl⟩
      · rw [hblows]
        exact List.subset_append_left _ _
      · rw [hproc, update_self] at hu
        exact absurd hu hp
      · rw [hblows]
        simp

omit [DecidableEq C] in
theorem blamed_userinit (init : Fin n) : Blamed (userinit init : State n C) := by
  have hk : ∀ q, ((userinit init : State n C).proc q).killed = false := by
    intro q
    by_cases hq : q = init
    · subst hq
      simp [userinit]
    · rw [show (userinit init : State n C).proc q = {} from update_of_ne hq _ _]
  refine ⟨fun p _ => hk p, fun p _ hp => ?_⟩
  rw [hk] at hp
  cases hp

/-- Where every `kill` finds a slot in use, if any, and no slot is given back killed by a failed
`fork`: a `kill` that returns 0 named a process, `allocproc` hands out processes that are not
killed, and a process is killed only by a `kill` of its pid or a fault since it was created. -/
theorem only_addressed_killed {init : Fin n} {acts : List (Act n C)}
    (hrun : Trans.Run State.step Addressed (State.userinit init) acts s) :
    (∀ c pid, Addressed s (.kill c pid) → (kill s.proc pid).1 = 0 →
      ∃ p, (s.proc p).pid = pid ∧ (s.proc p).state ≠ .unused) ∧
    (∀ c s' p, s.step (.fork c) = some s' → (s.proc p).state = .unused →
      (s'.proc p).state ≠ .unused → (s'.proc p).killed = false) ∧
    ∀ p, (s.proc p).state ≠ .unused → (s.proc p).killed = true →
      .kill (s.proc p).pid ∈ s.blows p ∨ .fault p ∈ s.blows p := by
  have h : Sound s ∧ Blamed s := by
    refine hrun.induct (I := fun s => Sound s ∧ Blamed s)
      ⟨sound_userinit init, blamed_userinit init⟩ fun s a s' h hc hstep => ?_
    exact ⟨h.1.change (change_of_step hstep), h.2.change h.1 hc (change_of_step hstep)⟩
  refine ⟨fun c pid ha hk => ?_, fun c s' p hstep hp hp' => ?_, h.2.blow⟩
  · unfold kill at hk
    split at hk
    · next p hp => exact ⟨p, findPid_eq_some hp, ha p hp⟩
    · cases hk
  · rcases h.1.meek_or_marked (change_of_step hstep) with ⟨hm, -, -⟩ | hm
    · exact absurd ((hm p).2.2.mpr hp) hp'
    · -- only `allocproc` takes a slot
      cases hm with
      | alloc c np _ hnp hproc =>
        by_cases hpn : p = np
        · subst hpn
          rw [hproc, update_self]
          exact h.2.free p hp
        · rw [hproc, update_of_ne hpn] at hp'
          exact absurd hp hp'
      | unalloc _ _ _ _ _ _ _ ha => rcases ha with ha | ha <;> cases ha
      | reap q t x _ _ ht hx hk hproc =>
        by_cases hpq : p = q
        · subst hpq
          rw [hproc, update_self] at hp'
          exact absurd hx hp'
        · rw [hproc, update_of_ne hpq] at hp'
          exact absurd ((ht p).2.2.mpr hp) hp'

theorem only_addressed_killed_killChild : ∃ s : State NPROC Bool,
    Trans.Run State.step Addressed (State.userinit ⟨0, by decide⟩) killChild s ∧
      (s.proc ⟨1, by decide⟩).state ≠ .unused ∧ (s.proc ⟨1, by decide⟩).killed = true ∧
      (.kill (s.proc ⟨1, by decide⟩).pid ∈ s.blows ⟨1, by decide⟩ ∨
        .fault ⟨1, by decide⟩ ∈ s.blows ⟨1, by decide⟩) := by
  have hexec : (exec step (fun s a => decide (Addressed s a))
      (userinit ⟨0, by decide⟩ : State NPROC Bool) killChild).any
        (fun s => (s.proc ⟨1, by decide⟩).state ≠ .unused ∧ (s.proc ⟨1, by decide⟩).killed = true) =
      true := by
    decide +kernel
  obtain ⟨s, hrun, hq⟩ := Trans.Run.of_exec_any (C := Addressed) (fun _ _ => of_decide_eq_true) hexec
  obtain ⟨hst, hk⟩ := of_decide_eq_true hq
  exact ⟨s, hrun, hst, hk, (only_addressed_killed hrun).2.2 _ hst hk⟩

def killZero : List (Act NPROC Unit) :=
  [.sched (), .sched (), .resume (), .kill () 0, .fork ()]

/-- `kill(0)` returns 0 although no process has the pid 0, and the next process is born killed. -/
theorem kill_zero_hits_unused :
    (∀ p, (((State.userinit ⟨0, by decide⟩ : State NPROC Unit)).proc p).pid = 0 →
      (((State.userinit ⟨0, by decide⟩ : State NPROC Unit)).proc p).state = .unused) ∧
    (kill (State.userinit ⟨0, by decide⟩ : State NPROC Unit).proc 0).1 = 0 ∧
    ∃ s : State NPROC Unit,
      Trans.Run State.step Trans.Any (State.userinit ⟨0, by decide⟩) killZero s ∧
        (s.proc ⟨1, by decide⟩).state = .embryo ∧ (s.proc ⟨1, by decide⟩).pid = 2 ∧
        (s.proc ⟨1, by decide⟩).killed = true ∧ s.blows ⟨1, by decide⟩ = [] := by
  have hexec : (exec step (fun _ _ => true)
      (userinit ⟨0, by decide⟩ : State NPROC Unit) killZero).any
        (fun s => (s.proc ⟨1, by decide⟩).state = .embryo ∧ (s.proc ⟨1, by decide⟩).pid = 2 ∧
          (s.proc ⟨1, by decide⟩).killed = true ∧ s.blows ⟨1, by decide⟩ = []) = true := by
    decide +kernel
  obtain ⟨s, hrun, hq⟩ := Trans.Run.of_exec_any (C := Any) (fun _ _ _ => trivial) hexec
  exact ⟨by decide +kernel, by decide +kernel, s, hrun, of_decide_eq_true hq⟩

end Xv6.Ptable
