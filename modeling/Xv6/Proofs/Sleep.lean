import Xv6.Spec.Sleep

/-! No wakeup is lost. Between its test and `release(lk)` a sleeper keeps the condition false,
since it has `lk`; before it releases `lk` it has `ptable.lock`, and keeps it until it is asleep.
So a `wakeup(chan)` that begins after the condition became true finds it asleep. -/

open Function Option

namespace Xv6

namespace SleepPc

@[simp] def hasLk : SleepPc → Bool
  | .inside | .sleepAcquire | .sleepRelease => true
  | .owes held | .wakeAcquire held | .wakeScan held _ => held
  | _ => false

@[simp] def hasPtable : SleepPc → Bool
  | .sleepRelease | .sleepChan | .sleepState | .sleepSched | .sleepTidy | .sleepUnlock => true
  | .wakeScan _ _ | .yieldState | .yieldSched | .yieldUnlock => true
  | _ => false

end SleepPc

namespace Sleepers

variable {n : ℕ} {C : Type} {s s' : Sleepers n C} {c : C} {p q : Fin n}

def Committed (s : Sleepers n C) (p : Fin n) : Prop :=
  match s.pc p with
  | .sleepChan | .sleepState | .sleepSched => True
  | .sleepTidy => s.state p = .sleeping
  | _ => False

def Asleep (s : Sleepers n C) (p : Fin n) : Prop :=
  s.state p = .sleeping ∧ s.onChan p = true

structure Placed (s : Sleepers n C) (p : Fin n) : Prop where
  asleep : s.state p = .sleeping → s.pc p = .sleepSched ∨ s.pc p = .sleepTidy
  chan : s.pc p = .sleepState ∨ s.pc p = .sleepSched ∨ s.pc p = .sleepTidy → s.onChan p = true
  unmet : s.pc p = .sleepAcquire ∨ s.pc p = .sleepRelease → s.cond = false
  pending : s.Committed p → s.cond = true → s.woken < s.since
  scanned : ∀ held i, s.pc p = .wakeScan held i → ∀ q : Fin n, q.val < i → ¬s.Asleep q

structure Sound (s : Sleepers n C) : Prop where
  scans : ∀ c, s.scans c = true → s.ptable = some c ∧ s.running c = none
  ptable : ∀ c p, s.running c = some p → (s.pc p).hasPtable = true → s.ptable = some c
  lk : ∀ c p, s.running c = some p → (s.pc p).hasLk = true → s.lk = some c
  one_cpu : ∀ c c' p, s.running c = some p → s.running c' = some p → c = c'
  on_cpu : ∀ c p, s.running c = some p →
    s.state p = .running ∨ s.pc p = .sleepSched ∨ s.pc p = .yieldSched
  off_cpu : ∀ p, (∀ c, s.running c ≠ some p) → s.pc p = .sleepTidy ∨ s.pc p = .yieldUnlock
  placed : ∀ p, s.Placed p
  since_lt : s.since < s.clock
  woken_lt : s.woken < s.clock

theorem sound_init (cond : Bool) : (init (n := n) (C := C) cond).Sound where
  scans := by simp [init]
  ptable := by simp [init]
  lk := by simp [init]
  one_cpu := by simp [init]
  on_cpu := by simp [init]
  off_cpu := by simp [init]
  placed p := by constructor <;> simp [init, Committed]
  since_lt := by simp [init]
  woken_lt := by simp [init]

theorem Sound.tick (h : s.Sound) : { s with clock := s.clock + 1 }.Sound where
  scans := h.scans
  ptable := h.ptable
  lk := h.lk
  one_cpu := h.one_cpu
  on_cpu := h.on_cpu
  off_cpu := h.off_cpu
  placed p := ⟨(h.placed p).asleep, (h.placed p).chan, (h.placed p).unmet, (h.placed p).pending,
    (h.placed p).scanned⟩
  since_lt := h.since_lt.trans (Nat.lt_succ_self _)
  woken_lt := h.woken_lt.trans (Nat.lt_succ_self _)

variable {c' : C}

theorem Sound.eq_of_ptable (h : s.Sound) (hp : s.running c = some p)
    (hq : s.running c' = some q) (hpp : (s.pc p).hasPtable = true)
    (hqp : (s.pc q).hasPtable = true) : q = p := by
  have hcc : some c = some c' := (h.ptable c p hp hpp).symm.trans (h.ptable c' q hq hqp)
  obtain rfl := some.inj hcc
  exact some.inj (hq.symm.trans hp)

theorem Sound.eq_of_lk (h : s.Sound) (hp : s.running c = some p)
    (hq : s.running c' = some q) (hpl : (s.pc p).hasLk = true)
    (hql : (s.pc q).hasLk = true) : q = p := by
  have hcc : some c = some c' := (h.lk c p hp hpl).symm.trans (h.lk c' q hq hql)
  obtain rfl := some.inj hcc
  exact some.inj (hq.symm.trans hp)

theorem Sound.exists_cpu (h : s.Sound) (ht : s.pc p ≠ .sleepTidy) (hy : s.pc p ≠ .yieldUnlock) :
    ∃ c, s.running c = some p := by
  by_contra hno
  rcases h.off_cpu p (fun c hc => hno ⟨c, hc⟩) with hpc | hpc
  · exact ht hpc
  · exact hy hpc

theorem Sound.committed (h : s.Sound) (hp : s.running c = some p)
    (hpp : (s.pc p).hasPtable = true) (hq : q ≠ p) (hc : s.Committed q) :
    s.pc q = .sleepTidy ∧ s.Asleep q := by
  have hrun (hpc : (s.pc q).hasPtable = true) : ¬∃ c', s.running c' = some q := by
    rintro ⟨c', hc'⟩
    exact hq (h.eq_of_ptable hp hc' hpp hpc)
  unfold Committed at hc
  split at hc
  · next hpc => exact absurd (h.exists_cpu (by simp [hpc]) (by simp [hpc])) (hrun (by simp [hpc]))
  · next hpc => exact absurd (h.exists_cpu (by simp [hpc]) (by simp [hpc])) (hrun (by simp [hpc]))
  · next hpc => exact absurd (h.exists_cpu (by simp [hpc]) (by simp [hpc])) (hrun (by simp [hpc]))
  · next hpc => exact ⟨hpc, hc, (h.placed q).chan (.inr (.inr hpc))⟩
  · exact hc.elim

/-- What a step of process `p` on CPU `c` may do to the rest of the system: it touches no other
process, it gives up and takes only its own locks, and it assigns to the condition only with
`lk`, marks itself asleep only with `ptable.lock` and completes a wakeup only when no other
process is on its way to sleep. -/
structure Turn (s s' : Sleepers n C) (c : C) (p : Fin n) : Prop where
  running : s'.running = s.running
  scans : s'.scans = s.scans
  pc : ∀ q, q ≠ p → s'.pc q = s.pc q
  state : ∀ q, q ≠ p → s'.state q = s.state q
  onChan : ∀ q, q ≠ p → s'.onChan q = s.onChan q
  keeps_lk : ∀ c', c' ≠ c → s.lk = some c' → s'.lk = some c'
  keeps_ptable : ∀ c', c' ≠ c → s.ptable = some c' → s'.ptable = some c'
  lk : (s'.pc p).hasLk = true → s'.lk = some c
  ptable : (s'.pc p).hasPtable = true → s'.ptable = some c
  on_cpu : s'.state p = .running ∨ s'.pc p = .sleepSched ∨ s'.pc p = .yieldSched
  asleep : s'.Asleep p → s.Asleep p ∨ (s.pc p).hasPtable = true
  cond : (s'.cond = s.cond ∧ s'.since = s.since) ∨
    (s.pc p).hasLk = true ∧ (s'.cond = true → s'.woken < s'.since)
  woken : s'.woken = s.woken ∨ ∀ q, q ≠ p → ¬s.Committed q
  since_lt : s'.since < s'.clock + 1
  woken_lt : s'.woken < s'.clock + 1
  placed : s'.Placed p

theorem Turn.committed (ht : Turn s s' c p) (hq : q ≠ p) : s'.Committed q ↔ s.Committed q := by
  unfold Committed
  rw [ht.pc q hq, ht.state q hq]

theorem Turn.placed_other (ht : Turn s s' c p) (h : s.Sound) (hr : s.running c = some p)
    (hq : q ≠ p) : s'.Placed q where
  asleep := by
    rw [ht.state q hq, ht.pc q hq]
    exact (h.placed q).asleep
  chan := by
    rw [ht.onChan q hq, ht.pc q hq]
    exact (h.placed q).chan
  unmet := by
    intro hpc
    rw [ht.pc q hq] at hpc
    rcases ht.cond with ⟨hcond, -⟩ | ⟨hlk, -⟩
    · rw [hcond]
      exact (h.placed q).unmet hpc
    · -- both would hold `lk`
      obtain ⟨c', hc'⟩ := h.exists_cpu (p := q) (by rcases hpc with hpc | hpc <;> simp [hpc])
        (by rcases hpc with hpc | hpc <;> simp [hpc])
      have hql : (s.pc q).hasLk = true := by rcases hpc with hpc | hpc <;> simp [hpc]
      exact absurd (h.eq_of_lk hr hc' hlk hql) hq
  pending := by
    intro hc hcond
    have hc0 : s.Committed q := (ht.committed hq).mp hc
    rcases ht.cond with ⟨hsame, hsince⟩ | ⟨-, hset⟩
    · rcases ht.woken with hw | hnone
      · rw [hw, hsince]
        exact (h.placed q).pending hc0 (hsame ▸ hcond)
      · exact absurd hc0 (hnone q hq)
    · exact hset hcond
  scanned := by
    intro held i hpc j hj hasleep
    rw [ht.pc q hq] at hpc
    have hold : ¬s.Asleep j := (h.placed q).scanned held i hpc j hj
    by_cases hjp : j = p
    · subst hjp
      rcases ht.asleep hasleep with hbefore | hpt
      · exact hold hbefore
      · obtain ⟨c', hc'⟩ := h.exists_cpu (p := q) (by simp [hpc]) (by simp [hpc])
        exact hq (h.eq_of_ptable hr hc' hpt (by simp [hpc]))
    · exact hold ⟨(ht.state j hjp) ▸ hasleep.1, (ht.onChan j hjp) ▸ hasleep.2⟩

theorem Turn.sound (ht : Turn s s' c p) (h : s.Sound) (hr : s.running c = some p) :
    { s' with clock := s'.clock + 1 }.Sound := by
  have other {c' : C} {q : Fin n} (hc' : s.running c' = some q) (hq : q ≠ p) : c' ≠ c := by
    rintro rfl
    exact hq (some.inj (hc'.symm.trans hr))
  have placed (q : Fin n) : s'.Placed q := by
    by_cases hq : q = p
    · exact hq ▸ ht.placed
    · exact ht.placed_other h hr hq
  exact
    { scans := by
        intro c' hc'
        rw [ht.scans] at hc'
        obtain ⟨hpt, hnone⟩ := h.scans c' hc'
        have hne : c' ≠ c := by
          rintro rfl
          exact absurd (hnone.symm.trans hr) (by simp)
        exact ⟨ht.keeps_ptable c' hne hpt, by rw [ht.running]; exact hnone⟩
      ptable := by
        intro c' q hc' hpc
        rw [ht.running] at hc'
        by_cases hq : q = p
        · subst hq
          rw [h.one_cpu c' c q hc' hr]
          exact ht.ptable hpc
        · rw [ht.pc q hq] at hpc
          exact ht.keeps_ptable c' (other hc' hq) (h.ptable c' q hc' hpc)
      lk := by
        intro c' q hc' hpc
        rw [ht.running] at hc'
        by_cases hq : q = p
        · subst hq
          rw [h.one_cpu c' c q hc' hr]
          exact ht.lk hpc
        · rw [ht.pc q hq] at hpc
          exact ht.keeps_lk c' (other hc' hq) (h.lk c' q hc' hpc)
      one_cpu := by
        rw [ht.running]
        exact h.one_cpu
      on_cpu := by
        intro c' q hc'
        rw [ht.running] at hc'
        by_cases hq : q = p
        · exact hq ▸ ht.on_cpu
        · rw [ht.state q hq, ht.pc q hq]
          exact h.on_cpu c' q hc'
      off_cpu := by
        intro q hoff
        rw [ht.running] at hoff
        have hq : q ≠ p := by
          rintro rfl
          exact hoff c hr
        rw [ht.pc q hq]
        exact h.off_cpu q hoff
      placed := fun q => ⟨(placed q).asleep, (placed q).chan, (placed q).unmet, (placed q).pending,
        (placed q).scanned⟩
      since_lt := ht.since_lt
      woken_lt := ht.woken_lt }

/-- What a process may do to a lock: nothing, take it if it is free, or give up its own. -/
def Uses (c : C) (has : Bool) (l l' : Option C) : Prop :=
  l' = l ∨ (l = none ∧ l' = some c) ∨ (has = true ∧ l' = none)

theorem Uses.keeps {has : Bool} {l l' : Option C} (h : Uses c has l l')
    (hown : has = true → l = some c) (hne : c' ≠ c) (hl : l = some c') : l' = some c' := by
  rcases h with rfl | ⟨hnone, -⟩ | ⟨hhas, -⟩
  · exact hl
  · exact absurd (hnone.symm.trans hl) (by simp)
  · exact absurd (some.inj ((hown hhas).symm.trans hl)).symm hne

variable {x : SleepPc}

theorem Sound.turn (h : s.Sound) (hr : s.running c = some p) {l t : Option C}
    {st : Fin n → RunState} {ch : Fin n → Bool} {tm : Fin n → ℕ}
    (hst : ∀ q, q ≠ p → st q = s.state q)
    (hch : ∀ q, q ≠ p → ch q = s.onChan q) (hl : Uses c (s.pc p).hasLk s.lk l)
    (ht : Uses c (s.pc p).hasPtable s.ptable t) (hlk : x.hasLk = true → l = some c)
    (hpt : x.hasPtable = true → t = some c)
    (hon : st p = .running ∨ x = .sleepSched ∨ x = .yieldSched)
    (hasleep : st p = .sleeping → ch p = true → s.Asleep p ∨ (s.pc p).hasPtable = true)
    (hp : ({ s with lk := l, ptable := t, state := st, onChan := ch, tested := tm }.goto p x).Placed
      p) :
    Turn s ({ s with lk := l, ptable := t, state := st, onChan := ch, tested := tm }.goto p x) c
      p where
  running := rfl
  scans := rfl
  pc q hq := update_of_ne hq _ _
  state := hst
  onChan := hch
  keeps_lk c' hne := hl.keeps (h.lk c p hr) hne
  keeps_ptable c' hne := ht.keeps (h.ptable c p hr) hne
  lk := by simpa [goto] using hlk
  ptable := by simpa [goto] using hpt
  on_cpu := by simpa [goto] using hon
  asleep hs := hasleep hs.1 hs.2
  cond := .inl ⟨rfl, rfl⟩
  woken := .inl rfl
  since_lt := h.since_lt.trans (Nat.lt_succ_self _)
  woken_lt := h.woken_lt.trans (Nat.lt_succ_self _)
  placed := hp

theorem placed_of_plain (hpc : s.pc p = x) (hst : s.state p ≠ .sleeping) (hx : match x with
      | .out | .inside | .sleepUnlock | .sleepReacquire | .owes _ | .wakeAcquire _ => True
      | .yieldAcquire | .yieldState | .yieldSched | .yieldUnlock => True
      | _ => False) : s.Placed p := by
  constructor
  · exact fun hs => absurd hs hst
  all_goals cases x <;> simp_all [Committed]

theorem Sound.state_running (h : s.Sound) (hr : s.running c = some p)
    (hs : s.pc p ≠ .sleepSched) (hy : s.pc p ≠ .yieldSched) : s.state p = .running := by
  rcases h.on_cpu c p hr with hst | hpc | hpc
  · exact hst
  · exact absurd hpc hs
  · exact absurd hpc hy

theorem acquirePtable_eq_some :
    s.acquirePtable c = some s' ↔ s.ptable = none ∧ s' = { s with ptable := some c } := by
  unfold acquirePtable
  split <;> simp_all [eq_comm]

theorem acquireLk_eq_some :
    s.acquireLk c = some s' ↔ s.lk = none ∧ s' = { s with lk := some c } := by
  unfold acquireLk
  split <;> simp_all [eq_comm]

/-- The end of `wakeup`: no process is on its way to sleep, and `wakeup1` has left none asleep. -/
theorem Sound.wake_turn (h : s.Sound) (hr : s.running c = some p) {held : Bool} {i : ℕ}
    (hpc : s.pc p = .wakeScan held i) (hi : ¬i < n) :
    Turn s ({ s with ptable := none, woken := s.clock }.goto p (if held then .inside else .out))
      c p where
  running := rfl
  scans := rfl
  pc q hq := update_of_ne hq _ _
  state _ _ := rfl
  onChan _ _ := rfl
  keeps_lk _ _ h := h
  keeps_ptable c' hne hc' := by
    rw [h.ptable c p hr (by simp [hpc])] at hc'
    exact absurd (some.inj hc').symm hne
  lk := by
    have hlk := h.lk c p hr
    cases held <;> simp_all [goto]
  ptable := by cases held <;> simp [goto]
  on_cpu := .inl (h.state_running hr (by simp [hpc]) (by simp [hpc]))
  asleep hs := .inl hs
  cond := .inl ⟨rfl, rfl⟩
  woken := by
    refine .inr fun q hq hc => ?_
    have hasleep := (h.committed hr (by simp [hpc]) hq hc).2
    exact (h.placed p).scanned held i hpc q (lt_of_lt_of_le q.isLt (not_lt.mp hi)) hasleep
  since_lt := h.since_lt.trans (Nat.lt_succ_self _)
  woken_lt := Nat.lt_succ_self _
  placed := by
    have hst := h.state_running hr (by simp [hpc]) (by simp [hpc])
    apply placed_of_plain (x := if held then .inside else .out) (by simp [goto])
    · simp [goto, hst]
    · cases held <;> trivial

theorem Placed.congr (h : s.Placed q) (hpc : s'.pc q = s.pc q) (hst : s'.state = s.state)
    (hch : s'.onChan = s.onChan) (hcond : s'.cond = s.cond) (hw : s'.woken = s.woken)
    (hsince : s'.since = s.since) : s'.Placed q := by
  obtain ⟨h1, h2, h3, h4, h5⟩ := h
  constructor
  · rwa [hst, hpc]
  · rwa [hch, hpc]
  · rwa [hcond, hpc]
  · unfold Committed at h4 ⊢
    rwa [hcond, hw, hsince, hpc, hst]
  · unfold Asleep at h5 ⊢
    rwa [hpc, hst, hch]

theorem Placed.of_awake (h : s.Placed q) (hpc : s'.pc = s.pc) (hch : s'.onChan = s.onChan)
    (hst : ∀ r, s'.state r = .sleeping → s.state r = .sleeping) (hcond : s'.cond = s.cond)
    (hw : s'.woken = s.woken) (hsince : s'.since = s.since) : s'.Placed q where
  asleep hs := by
    rw [hpc]
    exact h.asleep (hst q hs)
  chan := by
    rw [hpc, hch]
    exact h.chan
  unmet := by
    rw [hpc, hcond]
    exact h.unmet
  pending := by
    rw [hcond, hw, hsince]
    intro hc
    refine h.pending ?_
    unfold Committed at hc ⊢
    rw [hpc] at hc
    split at hc
    all_goals first | trivial | exact hst q hc
  scanned := by
    rw [hpc]
    intro held i hq j hj hs
    exact h.scanned held i hq j hj ⟨hst j hs.1, hch ▸ hs.2⟩

theorem Sound.not_running (h : s.Sound) (hc : s.scans c = true) (hst : s.state p = .runnable)
    (c' : C) : s.running c' ≠ some p := by
  intro hr
  obtain ⟨hown, hnone⟩ := h.scans c hc
  have hpc : (s.pc p).hasPtable = true := by
    rcases h.on_cpu c' p hr with hrun | hpc | hpc
    · exact absurd (hst.symm.trans hrun) (by simp)
    · simp [hpc]
    · simp [hpc]
  obtain rfl := some.inj ((h.ptable c' p hr hpc).symm.trans hown)
  exact absurd (hnone.symm.trans hr) (by simp)

section

variable (h : s.Sound) (hr : s.running c = some p)
include h hr

theorem Sound.assign_turn (hpc : s.pc p = .inside) (b : Bool)
    (hx : x = .inside ∨ x = .owes true) : Turn s ((s.assign b).goto p x) c p := by
  have hst : s.state p = .running := h.state_running hr (by simp [hpc]) (by simp [hpc])
  have hlk : s.lk = some c := h.lk c p hr (by simp [hpc])
  have hsince := h.since_lt
  have hwoken := h.woken_lt
  exact
    { running := rfl
      scans := rfl
      pc := fun q hq => update_of_ne hq _ _
      state := fun _ _ => rfl
      onChan := fun _ _ => rfl
      keeps_lk := fun _ _ h => h
      keeps_ptable := fun _ _ h => h
      lk := fun _ => hlk
      ptable := by rcases hx with rfl | rfl <;> simp [goto]
      on_cpu := .inl hst
      asleep := .inl
      cond := by
        cases b <;> cases hc : s.cond <;> simp [goto, assign, hc, hpc, hwoken]
      woken := .inl rfl
      since_lt := by
        simp only [goto, assign]
        split <;> omega
      woken_lt := by simp only [goto, assign]; omega
      placed := by
        refine placed_of_plain (x := x) (by simp [goto]) (by simp [goto, assign, hst]) ?_
        rcases hx with rfl | rfl <;> trivial }

theorem Sound.goto_turn {l : Option C} (hpc : (s.pc p).hasPtable = false)
    (hl : Uses c (s.pc p).hasLk s.lk l) (hlk : x.hasLk = true → l = some c) (hx : match x with
      | .out | .inside | .owes _ | .wakeAcquire _ | .yieldAcquire => True
      | _ => False) : Turn s ({ s with lk := l }.goto p x) c p := by
  have hst : s.state p = .running := by
    apply h.state_running hr
    all_goals
      intro heq
      simp [heq] at hpc
  apply h.turn hr (by simp) (by simp) hl (.inl rfl) hlk
  · cases x <;> simp_all
  · exact .inl hst
  · simp [hst]
  · refine placed_of_plain (x := x) (by simp [goto]) (by simp [goto, hst]) ?_
    cases x <;> simp_all

theorem Sound.wake (hpp : (s.pc p).hasPtable = true) (hps : s.pc p ≠ .sleepSched)
    (hq : s.Asleep q) : { s with state := update s.state q .runnable }.Sound where
  scans := h.scans
  ptable := h.ptable
  lk := h.lk
  one_cpu := h.one_cpu
  on_cpu c' r hr' := by
    have hne : r ≠ q := by
      rintro rfl
      have hpc : s.pc r = .sleepSched := by
        rcases h.on_cpu c' r hr' with hrun | hpc | hpc
        · exact absurd (hrun.symm.trans hq.1) (by simp)
        · exact hpc
        · rcases (h.placed r).asleep hq.1 with hs | hs <;> simp [hs] at hpc
      have heq : r = p := h.eq_of_ptable hr hr' hpp (by simp [hpc])
      exact hps (heq ▸ hpc)
    simpa [hne] using h.on_cpu c' r hr'
  off_cpu := h.off_cpu
  placed r := by
    refine (h.placed r).of_awake rfl rfl (fun x hx => ?_) rfl rfl rfl
    by_cases hxq : x = q
    · simp [hxq] at hx
    · simpa [hxq] using hx
  since_lt := h.since_lt
  woken_lt := h.woken_lt

theorem Sound.test (hpc : s.pc p = .inside) (t : Fin n → ℕ) :
    Turn s (if s.cond then { s with tested := t } else
      { s with tested := t }.goto p .sleepAcquire) c p := by
  have hst : s.state p = .running := h.state_running hr (by simp [hpc]) (by simp [hpc])
  have hlk : s.lk = some c := h.lk c p hr (by simp [hpc])
  split
  case isTrue hcond =>
    have hself : { s with tested := t } = { s with tested := t }.goto p .inside := by
      simp [goto, ← hpc]
    rw [hself]
    apply h.turn hr (by simp) (by simp) (.inl rfl) (.inl rfl) (fun _ => hlk) (by simp) (.inl hst)
    · simp [hst]
    · exact placed_of_plain (x := .inside) (by simp [goto]) (by simp [goto, hst]) trivial
  case isFalse hcond =>
    apply h.turn hr (by simp) (by simp) (.inl rfl) (.inl rfl) (fun _ => hlk) (by simp) (.inl hst)
    · simp [hst]
    · constructor <;> simp [goto, Committed, hst, hcond]

theorem Sound.wakeOne (hpp : (s.pc p).hasPtable = true) (hps : s.pc p ≠ .sleepSched) :
    (s.wakeOne q).Sound ∧ ¬(s.wakeOne q).Asleep q ∧ (s.wakeOne q).pc = s.pc ∧
      (s.wakeOne q).running = s.running := by
  unfold Sleepers.wakeOne
  split
  case isTrue hq => exact ⟨h.wake hr hpp hps hq, by simp [Asleep], rfl, rfl⟩
  case isFalse hq => exact ⟨h, hq, rfl, rfl⟩

theorem Sound.scan {held : Bool} {i : ℕ} (hpc : s.pc p = .wakeScan held i) (hi : i < n) :
    ∃ s1 : Sleepers n C, s1 = s.wakeOne ⟨i, hi⟩ ∧ s1.Sound ∧ s1.running c = some p ∧
      Turn s1 (s1.goto p (.wakeScan held (i + 1))) c p := by
  obtain ⟨h₁, hawake, hpc1, hrun1⟩ := h.wakeOne (q := ⟨i, hi⟩) hr (by simp [hpc]) (by simp [hpc])
  generalize hs1 : s.wakeOne ⟨i, hi⟩ = s1 at h₁ hawake hpc1 hrun1
  have hr1 : s1.running c = some p := hrun1 ▸ hr
  have hp1 : s1.pc p = .wakeScan held i := by rw [hpc1, hpc]
  have hst : s1.state p = .running := h₁.state_running hr1 (by simp [hp1]) (by simp [hp1])
  refine ⟨s1, rfl, h₁, hr1, h₁.turn hr1 (by simp) (by simp) (.inl rfl) (.inl rfl) ?_ ?_ (.inl hst)
    (by simp [hst]) ?_⟩
  · simpa [hp1] using h₁.lk c p hr1
  · simpa [hp1] using h₁.ptable c p hr1
  · have hscanned := (h₁.placed p).scanned held i hp1
    constructor
    case scanned =>
      intro held' j hj q hq
      simp only [goto, update_self, SleepPc.wakeScan.injEq] at hj
      obtain ⟨-, rfl⟩ := hj
      rcases Nat.lt_succ_iff_lt_or_eq.mp hq with hlt | heq
      · exact hscanned q hlt
      · obtain rfl : q = ⟨i, hi⟩ := Fin.ext heq
        exact hawake
    all_goals simp [goto, hst, Committed]

end

variable [DecidableEq C]

section

variable (h : s.Sound) (hr : s.running c = some p)
include h hr

theorem Sound.next_turn (hs : s.next c p = some s')
    (hss : s.pc p ≠ .sleepSched) (hys : s.pc p ≠ .yieldSched)
    (hw : ∀ held i, s.pc p ≠ .wakeScan held i) : Turn s s' c p := by
  have hst : s.state p = .running := h.state_running hr hss hys
  have hne : s.state p ≠ .sleeping := by simp [hst]
  have hpt : (s.pc p).hasPtable = true → s.ptable = some c := h.ptable c p hr
  have hlk : (s.pc p).hasLk = true → s.lk = some c := h.lk c p hr
  have hplaced : s.Placed p := h.placed p
  unfold next at hs
  split at hs
  next => cases hs
  next => cases hs
  next hpc =>
    obtain ⟨_, hacq, rfl⟩ := map_eq_some_iff.mp hs
    obtain ⟨hfree, rfl⟩ := acquirePtable_eq_some.mp hacq
    have hfalse : s.cond = false := hplaced.unmet (.inl hpc)
    apply h.turn hr (by simp) (by simp) (.inl rfl) (.inr (.inl ⟨hfree, rfl⟩))
    · simp [hlk, hpc]
    · simp
    · exact .inl hst
    · simp [hst]
    · constructor <;> simp [goto, Committed, hst, hfalse]
  next hpc =>
    cases hs
    have hfalse : s.cond = false := hplaced.unmet (.inr hpc)
    apply h.turn hr (by simp) (by simp) (.inr (.inr ⟨by simp [hpc], rfl⟩)) (.inl rfl)
    · simp
    · simp [hpt, hpc]
    · exact .inl hst
    · simp [hst]
    · constructor <;> simp [goto, hst, hfalse]
  next hpc =>
    cases hs
    have hpending := hplaced.pending (by simp [Committed, hpc])
    apply h.turn hr (by simp) (by simp +contextual) (.inl rfl) (.inl rfl)
    · simp
    · simp [hpt, hpc]
    · exact .inl hst
    · simp [hpc]
    · constructor <;> simp_all [goto]
  next hpc =>
    cases hs
    have hpending := hplaced.pending (by simp [Committed, hpc])
    have hchan : s.onChan p = true := hplaced.chan (.inl hpc)
    apply h.turn hr (by simp +contextual) (by simp) (.inl rfl) (.inl rfl)
    · simp
    · simp [hpt, hpc]
    · simp
    · simp [hpc]
    · constructor <;> simp_all [goto]
  next hpc => exact absurd hpc hss
  next hpc =>
    cases hs
    apply h.turn hr (by simp) (by simp +contextual) (.inl rfl) (.inl rfl)
    · simp
    · simp [hpt, hpc]
    · exact .inl hst
    · simp [hst]
    · exact placed_of_plain (x := .sleepUnlock) (by simp [goto]) hne trivial
  next hpc =>
    cases hs
    apply h.turn hr (by simp) (by simp) (.inl rfl) (.inr (.inr ⟨by simp [hpc], rfl⟩))
    · simp
    · simp
    · exact .inl hst
    · simp [hst]
    · exact placed_of_plain (x := .sleepReacquire) (by simp [goto]) hne trivial
  next hpc =>
    obtain ⟨_, hacq, rfl⟩ := map_eq_some_iff.mp hs
    obtain ⟨hfree, rfl⟩ := acquireLk_eq_some.mp hacq
    apply h.turn hr (by simp) (by simp) (.inr (.inl ⟨hfree, rfl⟩)) (.inl rfl)
    · simp
    · simp
    · exact .inl hst
    · simp [hst]
    · exact placed_of_plain (x := .inside) (by simp [goto]) hne trivial
  next => cases hs
  next held hpc =>
    obtain ⟨_, hacq, rfl⟩ := map_eq_some_iff.mp hs
    obtain ⟨hfree, rfl⟩ := acquirePtable_eq_some.mp hacq
    apply h.turn hr (by simp) (by simp) (.inl rfl) (.inr (.inl ⟨hfree, rfl⟩))
    · simpa [hpc] using hlk
    · simp
    · exact .inl hst
    · simp [hst]
    · constructor <;> simp [goto, Committed, hst]
  next held i hpc => exact absurd hpc (hw held i)
  next hpc =>
    obtain ⟨_, hacq, rfl⟩ := map_eq_some_iff.mp hs
    obtain ⟨hfree, rfl⟩ := acquirePtable_eq_some.mp hacq
    apply h.turn hr (by simp) (by simp) (.inl rfl) (.inr (.inl ⟨hfree, rfl⟩))
    · simp
    · simp
    · exact .inl hst
    · simp [hst]
    · exact placed_of_plain (x := .yieldState) (by simp [goto]) hne trivial
  next hpc =>
    cases hs
    apply h.turn hr (by simp +contextual) (by simp) (.inl rfl) (.inl rfl)
    · simp
    · simp [hpt, hpc]
    · simp
    · simp
    · exact placed_of_plain (x := .yieldSched) (by simp [goto]) (by simp [goto]) trivial
  next hpc => exact absurd hpc hys
  next hpc =>
    cases hs
    apply h.turn hr (by simp) (by simp) (.inl rfl) (.inr (.inr ⟨by simp [hpc], rfl⟩))
    · simp
    · simp
    · exact .inl hst
    · simp [hst]
    · exact placed_of_plain (x := .out) (by simp [goto]) hne trivial

theorem sched_running :
    (s.sched c).running c' = some q ↔ c' ≠ c ∧ q ≠ p ∧ s.running c' = some q := by
  by_cases hcc : c' = c
  · simp [Sleepers.sched, hcc]
  · have hq : s.running c' = some q → q ≠ p := by
      rintro hq rfl
      exact hcc (h.one_cpu c' c q hq hr)
    simpa [Sleepers.sched, hcc] using hq

theorem Sound.sched
    (hpc : s.pc p = .sleepSched ∧ x = .sleepTidy ∨ s.pc p = .yieldSched ∧ x = .yieldUnlock) :
    ((s.sched c).goto p x).Sound where
  scans c' hc' := by
    by_cases hcc : c' = c
    · subst hcc
      refine ⟨h.ptable c' p hr ?_, by simp [goto, Sleepers.sched]⟩
      rcases hpc with ⟨hpc, -⟩ | ⟨hpc, -⟩ <;> simp [hpc]
    · simpa [goto, Sleepers.sched, hcc] using
        h.scans c' (by simpa [goto, Sleepers.sched, hcc] using hc')
  ptable c' q hc' := by
    obtain ⟨-, hq, hr'⟩ := (sched_running h hr).mp hc'
    simpa [goto, Sleepers.sched, hq] using h.ptable c' q hr'
  lk c' q hc' := by
    obtain ⟨-, hq, hr'⟩ := (sched_running h hr).mp hc'
    simpa [goto, Sleepers.sched, hq] using h.lk c' q hr'
  one_cpu c' c'' q hc' hc'' :=
    h.one_cpu c' c'' q ((sched_running h hr).mp hc').2.2 ((sched_running h hr).mp hc'').2.2
  on_cpu c' q hc' := by
    obtain ⟨-, hq, hr'⟩ := (sched_running h hr).mp hc'
    simpa [goto, Sleepers.sched, hq] using h.on_cpu c' q hr'
  off_cpu q hoff := by
    by_cases hq : q = p
    · subst hq
      rcases hpc with ⟨-, rfl⟩ | ⟨-, rfl⟩ <;> simp [goto]
    · have hbefore : ∀ c', s.running c' ≠ some q := by
        intro c' hc'
        have hcc : c' ≠ c := by
          rintro rfl
          exact hq (some.inj (hc'.symm.trans hr))
        exact hoff c' ((sched_running h hr).mpr ⟨hcc, hq, hc'⟩)
      simpa [goto, Sleepers.sched, hq] using h.off_cpu q hbefore
  placed q := by
    by_cases hq : q = p
    · subst hq
      have hplaced := h.placed q
      rcases hpc with ⟨hpc, rfl⟩ | ⟨hpc, rfl⟩
      · have hpending := hplaced.pending (by simp [Committed, hpc])
        have hchan := hplaced.chan (.inr (.inl hpc))
        constructor <;> simp_all [goto, Sleepers.sched]
      · have hasleep := hplaced.asleep
        exact placed_of_plain (x := .yieldUnlock) (by simp [goto])
          (fun hst => by simpa [hpc] using hasleep hst) trivial
    · exact (h.placed q).congr (by simp [goto, Sleepers.sched, hq]) rfl rfl rfl rfl rfl
  since_lt := h.since_lt
  woken_lt := h.woken_lt

end

theorem Sound.schedAcquire (h : s.Sound) (hr : s.running c = none) (hfree : s.ptable = none) :
    { s with ptable := some c, scans := update s.scans c true }.Sound where
  scans c' hc' := by
    by_cases hcc : c' = c
    · subst hcc
      exact ⟨rfl, hr⟩
    · have := (h.scans c' (by simpa [hcc] using hc')).1
      exact absurd (hfree.symm.trans this) (by simp)
  ptable c' q hc' hpt := absurd (hfree.symm.trans (h.ptable c' q hc' hpt)) (by simp)
  lk := h.lk
  one_cpu := h.one_cpu
  on_cpu := h.on_cpu
  off_cpu := h.off_cpu
  placed q := (h.placed q).congr rfl rfl rfl rfl rfl rfl
  since_lt := h.since_lt
  woken_lt := h.woken_lt

theorem Sound.schedRelease (h : s.Sound) (hc : s.scans c = true) :
    { s with ptable := none, scans := update s.scans c false }.Sound where
  scans c' hc' := by
    by_cases hcc : c' = c
    · subst hcc
      simp at hc'
    · have hpt := (h.scans c' (by simpa [hcc] using hc')).1
      exact absurd (some.inj (hpt.symm.trans (h.scans c hc).1)) hcc
  ptable c' q hc' hpt := by
    obtain ⟨hown, hnone⟩ := h.scans c hc
    obtain rfl := some.inj ((h.ptable c' q hc' hpt).symm.trans hown)
    exact absurd (hnone.symm.trans hc') (by simp)
  lk := h.lk
  one_cpu := h.one_cpu
  on_cpu := h.on_cpu
  off_cpu := h.off_cpu
  placed q := (h.placed q).congr rfl rfl rfl rfl rfl rfl
  since_lt := h.since_lt
  woken_lt := h.woken_lt

theorem Sound.schedPick (h : s.Sound) (hc : s.scans c = true) (hst : s.state p = .runnable) :
    { s with
      state := update s.state p .running
      running := update s.running c (some p)
      scans := update s.scans c false }.Sound := by
  have hoff := h.not_running hc hst
  have hpc := h.off_cpu p hoff
  obtain ⟨hown, hnone⟩ := h.scans c hc
  have hrun (c' : C) (q : Fin n) (hc' : update s.running c (some p) c' = some q) :
      c' = c ∧ q = p ∨ q ≠ p ∧ s.running c' = some q := by
    by_cases hcc : c' = c
    · subst hcc
      simp only [update_self] at hc'
      exact .inl ⟨rfl, (some.inj hc').symm⟩
    · rw [update_of_ne hcc] at hc'
      refine .inr ⟨?_, hc'⟩
      rintro rfl
      exact hoff c' hc'
  have hawake (q : Fin n) (hq : update s.state p .running q = .sleeping) :
      s.state q = .sleeping := by
    by_cases hqp : q = p
    · simp [hqp] at hq
    · simpa [hqp] using hq
  exact
    { scans := by
        intro c' hc'
        by_cases hcc : c' = c
        · simp [hcc] at hc'
        · have hpt := (h.scans c' (by simpa [hcc] using hc')).1
          exact absurd (some.inj (hpt.symm.trans hown)) hcc
      ptable := by
        intro c' q hc' hpt
        rcases hrun c' q hc' with ⟨rfl, -⟩ | ⟨-, hr⟩
        · exact hown
        · exact h.ptable c' q hr hpt
      lk := by
        intro c' q hc' hlk
        rcases hrun c' q hc' with ⟨-, rfl⟩ | ⟨-, hr⟩
        · rcases hpc with hpc | hpc <;> simp [hpc] at hlk
        · exact h.lk c' q hr hlk
      one_cpu := by
        intro c' c'' q hc' hc''
        rcases hrun c' q hc' with ⟨rfl, rfl⟩ | ⟨hq, hr⟩ <;>
          rcases hrun c'' _ hc'' with ⟨rfl, heq⟩ | ⟨hq', hr'⟩
        · rfl
        · exact absurd rfl hq'
        · exact absurd heq hq
        · exact h.one_cpu c' c'' q hr hr'
      on_cpu := by
        intro c' q hc'
        rcases hrun c' q hc' with ⟨-, rfl⟩ | ⟨hq, hr⟩
        · simp
        · simpa [hq] using h.on_cpu c' q hr
      off_cpu := by
        intro q hq
        refine h.off_cpu q fun c' hc' => ?_
        have hcc : c' ≠ c := by
          rintro rfl
          exact absurd (hnone.symm.trans hc') (by simp)
        exact hq c' (by simpa [hcc] using hc')
      placed := fun q => (h.placed q).of_awake rfl rfl hawake rfl rfl rfl
      since_lt := h.since_lt
      woken_lt := h.woken_lt }
theorem Sound.next (h : s.Sound) (hr : s.running c = some p) (hs : s.next c p = some s') :
    { s' with clock := s'.clock + 1 }.Sound := by
  by_cases hss : s.pc p = .sleepSched
  · simp only [Sleepers.next, hss, some.injEq] at hs
    subst hs
    exact (h.sched hr (.inl ⟨hss, rfl⟩)).tick
  by_cases hys : s.pc p = .yieldSched
  · simp only [Sleepers.next, hys, some.injEq] at hs
    subst hs
    exact (h.sched hr (.inr ⟨hys, rfl⟩)).tick
  by_cases hw : ∃ held i, s.pc p = .wakeScan held i
  · obtain ⟨held, i, hpc⟩ := hw
    simp only [Sleepers.next, hpc] at hs
    split at hs
    case isTrue hi =>
      obtain ⟨s1, rfl, h₁, hr1, hturn⟩ := h.scan hr hpc hi
      cases hs
      exact hturn.sound h₁ hr1
    case isFalse hi =>
      cases hs
      exact (h.wake_turn hr hpc hi).sound h hr
  · exact (h.next_turn hr hs hss hys fun held i hpc => hw ⟨held, i, hpc⟩).sound h hr

theorem Sound.step (h : s.Sound) {a : SleepAct n C} (hs : s.step a = some s') : s'.Sound := by
  obtain ⟨s1, hact, rfl⟩ := map_eq_some_iff.mp hs
  cases a with
  | next c =>
    obtain ⟨p, hr, hnext⟩ := bind_eq_some_iff.mp hact
    exact h.next hr hnext
  | enter c =>
    obtain ⟨p, hr, hact⟩ := bind_eq_some_iff.mp hact
    split at hact
    · next hpc =>
      obtain ⟨_, hacq, rfl⟩ := map_eq_some_iff.mp hact
      obtain ⟨hfree, rfl⟩ := acquireLk_eq_some.mp hacq
      exact (h.goto_turn hr (by simp [hpc]) (.inr (.inl ⟨hfree, rfl⟩)) (by simp)
        trivial).sound h hr
    · cases hact
  | yield c =>
    obtain ⟨p, hr, hact⟩ := bind_eq_some_iff.mp hact
    split at hact
    · next hpc =>
      cases hact
      exact (h.goto_turn hr (by simp [hpc]) (.inl rfl) (by simp) trivial).sound h hr
    · cases hact
  | test c =>
    obtain ⟨p, hr, hact⟩ := bind_eq_some_iff.mp hact
    split at hact
    · next hpc =>
      cases hact
      exact (h.test hr hpc _).sound h hr
    · cases hact
  | set c b =>
    obtain ⟨p, hr, hact⟩ := bind_eq_some_iff.mp hact
    split at hact
    · next hpc =>
      cases hact
      cases b
      · have hself : s.assign false = (s.assign false).goto p .inside := by
          simp [goto, assign, ← hpc]
        simp only [Bool.false_eq_true, if_false]
        rw [hself]
        exact (h.assign_turn hr hpc false (.inl rfl)).sound h hr
      · exact (h.assign_turn hr hpc true (.inr rfl)).sound h hr
    · cases hact
  | leave c =>
    obtain ⟨p, hr, hact⟩ := bind_eq_some_iff.mp hact
    split at hact
    · next hpc =>
      cases hact
      exact (h.goto_turn hr (by simp [hpc]) (.inr (.inr ⟨by simp [hpc], rfl⟩)) (by simp)
        trivial).sound h hr
    · split at hact
      · next hpc =>
        cases hact
        exact (h.goto_turn hr (by simp [hpc]) (.inr (.inr ⟨by simp [hpc], rfl⟩)) (by simp)
          trivial).sound h hr
      · cases hact
  | wakeup c =>
    obtain ⟨p, hr, hact⟩ := bind_eq_some_iff.mp hact
    split at hact
    · next held hpc =>
      cases hact
      exact (h.goto_turn hr (by simp [hpc]) (.inl rfl) (by simpa [hpc] using h.lk c p hr)
        trivial).sound h hr
    · cases hact
  | schedAcquire c =>
    simp only [act] at hact
    split at hact
    · next hidle =>
      obtain ⟨_, hacq, rfl⟩ := map_eq_some_iff.mp hact
      obtain ⟨hfree, rfl⟩ := acquirePtable_eq_some.mp hacq
      exact (h.schedAcquire hidle.1 hfree).tick
    · cases hact
  | schedPick c p =>
    simp only [act] at hact
    split at hact
    · next hpick =>
      cases hact
      exact (h.schedPick hpick.1 hpick.2).tick
    · cases hact
  | schedRelease c =>
    simp only [act] at hact
    split at hact
    · next hscans =>
      cases hact
      exact (h.schedRelease hscans).tick
    · cases hact

/-- In no state that any interleaving reaches has a wakeup been lost. -/
theorem no_lost_wakeup {cond : Bool} {acts : List (SleepAct n C)}
    (hrun : Trans.Run step Trans.Any (init cond) acts s) : ¬s.Lost := by
  have h : s.Sound := by
    refine hrun.induct (sound_init cond) ?_
    intro s0 a s1 h _ hstep
    exact h.step hstep
  rintro ⟨-, -, hcond, hwoken, p, hsleeping, -, -⟩
  have hcommitted : s.Committed p := by
    unfold Committed
    rcases (h.placed p).asleep hsleeping with hpc | hpc <;> simp [hpc, hsleeping]
  exact absurd ((h.placed p).pending hcommitted hcond) (not_lt.mpr hwoken)

/-- A process finds the condition false and sleeps on one CPU; on the other, one makes it true and
completes `wakeup(chan)`. -/
def handover : List (SleepAct 2 Bool) :=
  [.schedAcquire false, .schedPick false ⟨0, Nat.two_pos⟩, .next false, .enter false, .test false, .next false,
    .next false, .next false, .next false, .next false, .schedRelease false, .schedAcquire true,
    .schedPick true ⟨1, Nat.one_lt_two⟩, .next true, .enter true, .set true true, .wakeup true, .next true,
    .next true, .next true, .next true, .leave true]

/-- The sleeper tested before the condition became true, and has been woken. -/
theorem no_lost_wakeup_handover : ∃ s : Sleepers 2 Bool,
    Trans.Run step Trans.Any (init false) handover s ∧
      (s.tested 0 < s.since ∧ s.since ≤ s.woken ∧ s.state 0 = .runnable) ∧ ¬s.Lost := by
  obtain ⟨s, hrun, h⟩ := Trans.Run.of_exec_any (C := Trans.Any) (c := fun _ _ => true)
    (q := fun s : Sleepers 2 Bool =>
      decide (s.tested 0 < s.since ∧ s.since ≤ s.woken ∧ s.state 0 = .runnable))
    (fun _ _ _ => trivial) (by decide +kernel :
      (Trans.exec step (fun _ _ => true) (init false) handover).any _ = true)
  exact ⟨s, hrun, of_decide_eq_true h, no_lost_wakeup hrun⟩

end Sleepers

end Xv6
