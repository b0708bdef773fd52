import Xv6.Lib.Run
import Mathlib.Tactic

/-! `sleep` and `wakeup` of `proc.c` step by step, with the scheduler and `yield`, on any number
of CPUs. The processes share a condition protected by the spinlock `lk`: who finds it false
sleeps on `chan`, who makes it true calls `wakeup(chan)`, before or after it releases `lk`. -/

namespace Xv6

open Function

inductive RunState where
  | runnable
  | running
  | sleeping
deriving DecidableEq, Repr

/-- What a process executes next. `held` is whether the process still holds `lk`. -/
inductive SleepPc where
  /-- outside of the critical section -/
  | out
  /-- inside of it -/
  | inside
  /-- in `sleep`: `acquire(&ptable.lock)` -/
  | sleepAcquire
  /-- `release(lk)` -/
  | sleepRelease
  /-- `p->chan = chan` -/
  | sleepChan
  /-- `p->state = SLEEPING` -/
  | sleepState
  /-- `sched()` -/
  | sleepSched
  /-- `p->chan = 0`, once the process has been scheduled again -/
  | sleepTidy
  /-- `release(&ptable.lock)` -/
  | sleepUnlock
  /-- `acquire(lk)` -/
  | sleepReacquire
  /-- the condition has been made true, `wakeup(chan)` is next, or `release(lk)` -/
  | owes (held : Bool)
  /-- in `wakeup`: `acquire(&ptable.lock)` -/
  | wakeAcquire (held : Bool)
  /-- in `wakeup1`, at the entry `i` of the process table; `release(&ptable.lock)` after the last -/
  | wakeScan (held : Bool) (i : ℕ)
  /-- in `yield`: `acquire(&ptable.lock)` -/
  | yieldAcquire
  /-- `myproc()->state = RUNNABLE` -/
  | yieldState
  /-- `sched()` -/
  | yieldSched
  /-- `release(&ptable.lock)`, once the process has been scheduled again; also in `forkret` -/
  | yieldUnlock
deriving DecidableEq, Repr

/-- The process table, the CPUs and the two locks, which are held by CPUs. `running` is the process
a CPU executes; when there is none it is in `scheduler`, and `scans` is whether it is in the
loop over the process table, with `ptable.lock`. The last four fields are history: the number
of steps so far, and when the condition last became true, when a `wakeup(chan)` last
completed and when a process last tested the condition. -/
structure Sleepers (n : ℕ) (C : Type) where
  lk : Option C
  ptable : Option C
  cond : Bool
  running : C → Option (Fin n)
  scans : C → Bool
  state : Fin n → RunState
  onChan : Fin n → Bool
  pc : Fin n → SleepPc
  clock : ℕ
  since : ℕ
  woken : ℕ
  tested : Fin n → ℕ

/-- What happens next on CPU `c`: its process executes its next step, or chooses one where it
can, or its scheduler does. -/
inductive SleepAct (n : ℕ) (C : Type) where
  | next (c : C)
  | enter (c : C)
  | yield (c : C)
  | test (c : C)
  | set (c : C) (b : Bool)
  | leave (c : C)
  | wakeup (c : C)
  | schedAcquire (c : C)
  | schedPick (c : C) (p : Fin n)
  | schedRelease (c : C)

namespace Sleepers

variable {n : ℕ} {C : Type} [DecidableEq C]

def init (cond : Bool) : Sleepers n C where
  lk := none
  ptable := none
  cond := cond
  running := fun _ => none
  scans := fun _ => false
  state := fun _ => .runnable
  onChan := fun _ => false
  pc := fun _ => .yieldUnlock
  clock := 1
  since := 0
  woken := 0
  tested := fun _ => 0

def goto (s : Sleepers n C) (p : Fin n) (pc : SleepPc) : Sleepers n C :=
  { s with pc := update s.pc p pc }

def acquireLk (s : Sleepers n C) (c : C) : Option (Sleepers n C) :=
  if s.lk = none then some { s with lk := some c } else none

def acquirePtable (s : Sleepers n C) (c : C) : Option (Sleepers n C) :=
  if s.ptable = none then some { s with ptable := some c } else none

/-- `sched()` of the process running on `c`: its scheduler goes on, with `ptable.lock`. -/
def sched (s : Sleepers n C) (c : C) : Sleepers n C :=
  { s with running := update s.running c none, scans := update s.scans c true }

/-- One round of the loop of `wakeup1`. -/
def wakeOne (s : Sleepers n C) (q : Fin n) : Sleepers n C :=
  if s.state q = .sleeping ∧ s.onChan q = true then
    { s with state := update s.state q .runnable }
  else s

def next (s : Sleepers n C) (c : C) (p : Fin n) : Option (Sleepers n C) :=
  match s.pc p with
  | .out => none
  | .inside => none
  | .sleepAcquire => (s.acquirePtable c).map (goto · p .sleepRelease)
  | .sleepRelease => some ({ s with lk := none }.goto p .sleepChan)
  | .sleepChan => some ({ s with onChan := update s.onChan p true }.goto p .sleepState)
  | .sleepState => some ({ s with state := update s.state p .sleeping }.goto p .sleepSched)
  | .sleepSched => some ((s.sched c).goto p .sleepTidy)
  | .sleepTidy => some ({ s with onChan := update s.onChan p false }.goto p .sleepUnlock)
  | .sleepUnlock => some ({ s with ptable := none }.goto p .sleepReacquire)
  | .sleepReacquire => (s.acquireLk c).map (goto · p .inside)
  | .owes _ => none
  | .wakeAcquire held => (s.acquirePtable c).map (goto · p (.wakeScan held 0))
  | .wakeScan held i =>
    if h : i < n then some ((s.wakeOne ⟨i, h⟩).goto p (.wakeScan held (i + 1)))
    else some ({ s with ptable := none, woken := s.clock }.goto p (if held then .inside else .out))
  | .yieldAcquire => (s.acquirePtable c).map (goto · p .yieldState)
  | .yieldState => some ({ s with state := update s.state p .runnable }.goto p .yieldSched)
  | .yieldSched => some ((s.sched c).goto p .yieldUnlock)
  | .yieldUnlock => some ({ s with ptable := none }.goto p .out)

def assign (s : Sleepers n C) (b : Bool) : Sleepers n C :=
  { s with cond := b, since := if b && !s.cond then s.clock else s.since }

/-- What the process `p` running on `c`, or its scheduler if there is none, does. -/
def act (s : Sleepers n C) : SleepAct n C → Option (Sleepers n C)
  | .next c => (s.running c).bind (s.next c)
  | .enter c => (s.running c).bind fun p =>
    if s.pc p = .out then (s.acquireLk c).map (goto · p .inside) else none
  | .yield c => (s.running c).bind fun p =>
    if s.pc p = .out then some (s.goto p .yieldAcquire) else none
  | .test c => (s.running c).bind fun p =>
    if s.pc p = .inside then
      let s := { s with tested := update s.tested p s.clock }
      some (if s.cond then s else s.goto p .sleepAcquire)
    else none
  | .set c b => (s.running c).bind fun p =>
    if s.pc p = .inside then
      some (if b then (s.assign b).goto p (.owes true) else s.assign b)
    else none
  | .leave c => (s.running c).bind fun p =>
    if s.pc p = .inside then some ({ s with lk := none }.goto p .out)
    else if s.pc p = .owes true then some ({ s with lk := none }.goto p (.owes false))
    else none
  | .wakeup c => (s.running c).bind fun p =>
    match s.pc p with
    | .owes held => some (s.goto p (.wakeAcquire held))
    | _ => none
  | .schedAcquire c =>
    if s.running c = none ∧ s.scans c = false then
      (s.acquirePtable c).map fun s => { s with scans := update s.scans c true }
    else none
  | .schedPick c p =>
    if s.scans c = true ∧ s.state p = .runnable then
      some { s with
        state := update s.state p .running
        running := update s.running c (some p)
        scans := update s.scans c false }
    else none
  | .schedRelease c =>
    if s.scans c = true then
      some { s with ptable := none, scans := update s.scans c false }
    else none

def step (s : Sleepers n C) (a : SleepAct n C) : Option (Sleepers n C) :=
  (s.act a).map fun s => { s with clock := s.clock + 1 }

/-- A wakeup was lost: both locks are free, the condition has been true since the last
`wakeup(chan)` completed, and a process is SLEEPING on `chan` that tested the condition before it
became true. -/
def Lost (s : Sleepers n C) : Prop :=
  s.lk = none ∧ s.ptable = none ∧ s.cond = true ∧ s.since ≤ s.woken ∧
    ∃ p, s.state p = .sleeping ∧ s.onChan p = true ∧ s.tested p < s.since

end Sleepers

end Xv6
