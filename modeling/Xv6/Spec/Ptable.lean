import Xv6.Lib.Run
import Xv6.Spec.Param
import Mathlib.Tactic

/-! The process table of `proc.c` on any number of CPUs, with what the kernel does to it: the
scheduler, `fork`, `exit`, `wait`, `yield`, `sleep`, `wakeup` and `kill`, and the loops outside
of `proc.c` that sleep until a condition holds or the process is killed. A step is what one CPU
does between two operations on a lock. Memory may run out at any `kalloc`. -/

namespace Xv6.Ptable

open Function

inductive ProcState where
  | unused
  | embryo
  | sleeping
  | runnable
  | running
  | zombie
deriving DecidableEq, Repr

/-- What a process sleeps on: in `wait` itself, in the loops below the field whose address they
pass, elsewhere anything. -/
inductive Chan (n : ℕ) where
  | proc (p : Fin n)
  | nread
  | nwrite
  | input
  | ticks
  | other (k : ℕ)
deriving DecidableEq, Repr

structure Proc (n : ℕ) where
  state : ProcState := .unused
  pid : BitVec 32 := 0
  parent : Option (Fin n) := none
  chan : Option (Chan n) := none
  killed : Bool := false
deriving DecidableEq, Repr

/-- The spinlocks that the loops hold. -/
inductive Spinlock where
  | pipe
  | cons
  | tickslock
deriving DecidableEq, Repr

/-- What the conditions of the loops read. -/
structure Env where
  nread : BitVec 32 := 0
  nwrite : BitVec 32 := 0
  readopen : Bool := true
  writeopen : Bool := true
  r : BitVec 32 := 0
  w : BitVec 32 := 0
  ticks : BitVec 32 := 0
deriving DecidableEq, Repr

/-- The functions other than `wait` that sleep in a loop with a test of `killed`. -/
inductive Waiter where
  | piperead
  | pipewrite
  | consoleread
  | sysSleep (n ticks0 : BitVec 32)
deriving DecidableEq, Repr

namespace Waiter

def lk : Waiter → Spinlock
  | .piperead => .pipe
  | .pipewrite => .pipe
  | .consoleread => .cons
  | .sysSleep _ _ => .tickslock

def chan {n : ℕ} : Waiter → Chan n
  | .piperead => .nread
  | .pipewrite => .nwrite
  | .consoleread => .input
  | .sysSleep _ _ => .ticks

/-- The condition of the loop. -/
def waits (e : Env) : Waiter → Bool
  | .piperead => e.nread == e.nwrite && e.writeopen
  | .pipewrite => e.nwrite == e.nread + 512
  | .consoleread => e.r == e.w
  | .sysSleep n ticks0 => (e.ticks - ticks0).ult n

/-- What makes the loop give up, besides `killed`. -/
def quits (e : Env) : Waiter → Bool
  | .pipewrite => !e.readopen
  | _ => false

def wakes : Waiter → Bool
  | .pipewrite => true
  | _ => false

def starts (e : Env) : Waiter → Bool
  | .sysSleep _ ticks0 => ticks0 == e.ticks
  | _ => true

end Waiter

inductive Pc (n : ℕ) where
  /-- nowhere: the slot is UNUSED, EMBRYO or ZOMBIE -/
  | dead
  /-- in user space, or in kernel code that is not listed here -/
  | user
  /-- in `fork`, with the slot `np`: `kalloc` in `allocproc` is next -/
  | forkStack (np : Fin n)
  /-- `copyuvm` is next -/
  | forkCopy (np : Fin n)
  /-- `np->state = RUNNABLE` is next -/
  | forkReady (np : Fin n)
  /-- in the loop of `w` with its lock, before the test of the condition -/
  | test (w : Waiter)
  /-- behind the test of `killed`: `wakeup(&p->nread)` is next -/
  | toWake (w : Waiter)
  /-- in `sleep`: `acquire(&ptable.lock)` is next -/
  | toSleep (w : Waiter)
  /-- in `sleep`, behind `sched` -/
  | slept (w : Waiter)
  /-- in `sleep`: `acquire(lk)` is next -/
  | relock (w : Waiter)
  /-- in any other `sleep`, behind `sched` -/
  | sleptOther
  /-- in the `sleep` of `wait`, behind `sched` -/
  | waiting
deriving DecidableEq, Repr

namespace Pc

variable {n : ℕ}

def forking : Pc n → Option (Fin n)
  | .forkStack np => some np
  | .forkCopy np => some np
  | .forkReady np => some np
  | _ => none

/-- Interrupts are off: the process holds the lock of its loop. -/
def locked : Pc n → Bool
  | .test _ => true
  | .toWake _ => true
  | .toSleep _ => true
  | _ => false

def asleep : Pc n → Bool
  | .slept _ => true
  | .sleptOther => true
  | .waiting => true
  | _ => false

end Pc

/-- What a CPU does. `i` is where the loop of its `scheduler` goes on. -/
inductive Cpu (n : ℕ) where
  /-- `acquire(&ptable.lock)` is next in `scheduler` -/
  | idle
  /-- in the loop of `scheduler`, with `ptable.lock` -/
  | scan (i : ℕ)
  /-- `swtch` has just led to `p`, which holds `ptable.lock` -/
  | switched (p : Fin n) (i : ℕ)
  | runs (p : Fin n) (i : ℕ)
deriving DecidableEq, Repr

def Cpu.proc {n : ℕ} : Cpu n → Option (Fin n)
  | .idle => none
  | .scan _ => none
  | .switched p _ => some p
  | .runs p _ => some p

inductive Blow (n : ℕ) where
  | kill (pid : BitVec 32)
  | fault (p : Fin n)
deriving DecidableEq, Repr

/-- A `wait` by `waiter` that returned `pid` for the process `uid` of the slot `slot`. -/
structure Reap (n : ℕ) where
  waiter : Fin n
  slot : Fin n
  uid : ℕ
  pid : BitVec 32
deriving DecidableEq, Repr

/-- The table, the CPUs `C` and the locks. The last five fields are history: how many processes
`allocproc` has handed out, which of them is in each slot, the processes that `fork` returned with
their pids, the calls of `wait` that reaped, and the blows dealt since the slot was last taken. -/
structure State (n : ℕ) (C : Type) where
  proc : Fin n → Proc n
  nextpid : BitVec 32
  initproc : Fin n
  lock : Option C
  cpu : C → Cpu n
  pc : Fin n → Pc n
  held : Spinlock → Option (Fin n)
  env : Env
  born : ℕ
  uid : Fin n → ℕ
  forked : List (ℕ × BitVec 32)
  reaped : List (Reap n)
  blows : Fin n → List (Blow n)

inductive Act (n : ℕ) (C : Type) where
  | sched (c : C)
  | resume (c : C)
  | fork (c : C)
  | kstack (c : C) (ok : Bool)
  | copyuvm (c : C) (ok : Bool)
  | ready (c : C)
  | exit (c : C)
  | wait (c : C)
  | yield (c : C)
  | sleep (c : C) (k : ℕ)
  | wakeup (ch : Chan n)
  | kill (c : C) (pid : BitVec 32)
  | fault (c : C)
  | enter (c : C) (w : Waiter)
  | test (c : C)
  | leave (c : C)
  | wake (c : C)
  | sleepOn (c : C)
  | relock (c : C)
  | env (e : Env)

variable {n : ℕ}

/-! The loops over the table. -/

def wakeup1 (t : Fin n → Proc n) (ch : Option (Chan n)) : Fin n → Proc n := fun q =>
  if (t q).state = .sleeping ∧ (t q).chan = ch then { t q with state := .runnable } else t q

def findUnused (t : Fin n → Proc n) : Option (Fin n) :=
  (List.finRange n).find? fun p => (t p).state = .unused

def findPid (t : Fin n → Proc n) (pid : BitVec 32) : Option (Fin n) :=
  (List.finRange n).find? fun p => (t p).pid = pid

/-- A round of the loop in `exit` that passes the children of `p` to `init`. -/
def abandon (p init : Fin n) (t : Fin n → Proc n) (q : Fin n) : Fin n → Proc n :=
  if (t q).parent = some p then
    let t := update t q { t q with parent := some init }
    if (t q).state = .zombie then wakeup1 t (some (.proc init)) else t
  else t

inductive Found (n : ℕ) where
  | zombie (q : Fin n)
  | none (havekids : Bool)
deriving DecidableEq, Repr

/-- The loop of `wait` over the rest `l` of the table. -/
def scanKids (t : Fin n → Proc n) (p : Fin n) : List (Fin n) → Bool → Found n
  | [], havekids => .none havekids
  | q :: l, havekids =>
    if (t q).parent ≠ some p then scanKids t p l havekids
    else if (t q).state = .zombie then .zombie q
    else scanKids t p l true

/-- What a round of the endless loop of `wait` comes to. -/
inductive Outcome (n : ℕ) where
  /-- it returns the pid of `q` -/
  | reaps (q : Fin n)
  /-- it returns -1 -/
  | fails
  | sleeps
deriving DecidableEq, Repr

def waitOutcome (t : Fin n → Proc n) (p : Fin n) : Outcome n :=
  match scanKids t p (List.finRange n) false with
  | .zombie q => .reaps q
  | .none havekids => if !havekids || (t p).killed then .fails else .sleeps

def kill (t : Fin n → Proc n) (pid : BitVec 32) : ℤ × (Fin n → Proc n) :=
  match findPid t pid with
  | some p =>
    (0, update t p
      { t p with killed := true, state := if (t p).state = .sleeping then .runnable else (t p).state })
  | none => (-1, t)

namespace State

variable {C : Type} [DecidableEq C]

def setProc (s : State n C) (p : Fin n) (x : Proc n) : State n C :=
  { s with proc := update s.proc p x }

def goto (s : State n C) (p : Fin n) (x : Pc n) : State n C :=
  { s with pc := update s.pc p x }

def setCpu (s : State n C) (c : C) (x : Cpu n) : State n C :=
  { s with cpu := update s.cpu c x }

/-- `sched()`: the scheduler of `c` goes on with `ptable.lock`, and sets `c->proc` to 0. -/
def sched (s : State n C) (c : C) (i : ℕ) : State n C :=
  { s with lock := some c }.setCpu c (.scan i)

def release (s : State n C) (c : C) (p : Fin n) (i : ℕ) : State n C :=
  { s with lock := none }.setCpu c (.runs p i)

def scheduler (s : State n C) (c : C) : Option (State n C) :=
  match s.cpu c with
  | .idle => if s.lock = none then some ({ s with lock := some c }.setCpu c (.scan 0)) else none
  | .scan i =>
    if h : i < n then
      if (s.proc ⟨i, h⟩).state = .runnable then
        some ((s.setProc ⟨i, h⟩ { s.proc ⟨i, h⟩ with state := .running }).setCpu c
          (.switched ⟨i, h⟩ (i + 1)))
      else some (s.setCpu c (.scan (i + 1)))
    else some ({ s with lock := none }.setCpu c .idle)
  | _ => none

def allocproc (s : State n C) (p : Fin n) : State n C :=
  match findUnused s.proc with
  | none => s
  | some np =>
    let pid := s.nextpid
    let s : State n C := { s with
      nextpid := pid + 1
      born := s.born + 1
      uid := update s.uid np s.born
      blows := update s.blows np [] }
    (s.setProc np { s.proc np with state := .embryo, pid }).goto p (.forkStack np)

def unalloc (s : State n C) (p np : Fin n) : State n C :=
  (s.setProc np { s.proc np with state := .unused }).goto p .user

/-- A round of the endless loop of `wait`, called by `p` on `c` with `ptable.lock`. -/
def waitRound (s : State n C) (c : C) (p : Fin n) (i : ℕ) : State n C :=
  match waitOutcome s.proc p with
  | .reaps q =>
    let s : State n C := { s with reaped := s.reaped ++ [⟨p, q, s.uid q, (s.proc q).pid⟩] }
    let s := s.setProc q
      { s.proc q with pid := 0, parent := none, killed := false, state := .unused }
    (s.goto p .user).release c p i
  | .fails => (s.goto p .user).release c p i
  | .sleeps =>
    ((s.setProc p { s.proc p with chan := some (.proc p), state := .sleeping }).goto p
      .waiting).sched c i

def exit (s : State n C) (c : C) (p : Fin n) (i : ℕ) : State n C :=
  let t := wakeup1 s.proc ((s.proc p).parent.map .proc)
  let t := (List.finRange n).foldl (abandon p s.initproc) t
  let s : State n C := { s with proc := update t p { t p with state := .zombie } }
  (s.goto p .dead).sched c i

def fallAsleep (s : State n C) (c : C) (p : Fin n) (i : ℕ) (ch : Chan n) (x : Pc n) : State n C :=
  ((s.setProc p { s.proc p with chan := some ch, state := .sleeping }).goto p x).sched c i

/-- What the process `p` does first when `swtch` leads to it: it is in `sleep`, `yield` or
`forkret`. -/
def resume (s : State n C) (c : C) (p : Fin n) (i : ℕ) : State n C :=
  let tidy := s.setProc p { s.proc p with chan := none }
  match s.pc p with
  | .waiting => tidy.waitRound c p i
  | .slept w => (tidy.goto p (.relock w)).release c p i
  | .sleptOther => (tidy.goto p .user).release c p i
  | _ => s.release c p i

/-- A test of the condition of the loop `w`, and of `killed`. -/
def test (s : State n C) (p : Fin n) (w : Waiter) : State n C :=
  if w.waits s.env then
    if w.quits s.env || (s.proc p).killed then
      { s with held := update s.held w.lk none }.goto p .user
    else s.goto p (if w.wakes then .toWake w else .toSleep w)
  else s

/-- What the process `p` that runs on `c` does next, with a choice of its own in user space. -/
def run (s : State n C) (c : C) (p : Fin n) (i : ℕ) : Act n C → Option (State n C)
  | .fork _ => if s.pc p = .user ∧ s.lock = none then some (s.allocproc p) else none
  | .kstack _ ok =>
    match s.pc p with
    | .forkStack np => some (if ok then s.goto p (.forkCopy np) else s.unalloc p np)
    | _ => none
  | .copyuvm _ ok =>
    match s.pc p with
    | .forkCopy np =>
      some (if ok then (s.setProc np { s.proc np with parent := some p }).goto p (.forkReady np)
        else s.unalloc p np)
    | _ => none
  | .ready _ =>
    match s.pc p with
    | .forkReady np =>
      if s.lock = none then
        let s : State n C := { s with forked := s.forked ++ [(s.uid np, (s.proc np).pid)] }
        some (((s.setProc np { s.proc np with state := .runnable }).goto np .user).goto p .user)
      else none
    | _ => none
  | .exit _ =>
    -- init panics instead
    if s.pc p = .user ∧ s.lock = none ∧ p ≠ s.initproc then some (s.exit c p i) else none
  | .wait _ => if s.pc p = .user ∧ s.lock = none then some (s.waitRound c p i) else none
  | .yield _ =>
    if (s.pc p).locked = false ∧ s.lock = none then
      some ((s.setProc p { s.proc p with state := .runnable }).sched c i)
    else none
  | .sleep _ k =>
    if s.pc p = .user ∧ s.lock = none then some (s.fallAsleep c p i (.other k) .sleptOther) else none
  | .kill _ pid =>
    if s.pc p = .user ∧ s.lock = none then
      some { s with
        proc := (Ptable.kill s.proc pid).2, blows := fun q => s.blows q ++ [.kill pid] }
    else none
  | .fault _ =>
    if s.pc p = .user then
      let s : State n C := { s with blows := fun q => s.blows q ++ [.fault p] }
      some (s.setProc p { s.proc p with killed := true })
    else none
  | .enter _ w =>
    if s.pc p = .user ∧ s.held w.lk = none ∧ w.starts s.env then
      some ({ s with held := update s.held w.lk (some p) }.goto p (.test w))
    else none
  | .test _ =>
    match s.pc p with
    | .test w => some (s.test p w)
    | _ => none
  | .leave _ =>
    match s.pc p with
    | .test w => some ({ s with held := update s.held w.lk none }.goto p .user)
    | _ => none
  | .wake _ =>
    match s.pc p with
    | .toWake w =>
      if s.lock = none then some ({ s with proc := wakeup1 s.proc (some .nread) }.goto p (.toSleep w))
      else none
    | _ => none
  | .sleepOn _ =>
    match s.pc p with
    | .toSleep w =>
      if s.lock = none then
        some ({ s with held := update s.held w.lk none }.fallAsleep c p i w.chan (.slept w))
      else none
    | _ => none
  | .relock _ =>
    match s.pc p with
    | .relock w =>
      if s.held w.lk = none then
        some ({ s with held := update s.held w.lk (some p) }.goto p (.test w))
      else none
    | _ => none
  | _ => none

end State

def Act.cpu {C : Type} : Act n C → Option C
  | .fork c | .kstack c _ | .copyuvm c _ | .ready c | .exit c | .wait c | .yield c | .sleep c _
  | .kill c _ | .fault c | .enter c _ | .test c | .leave c | .wake c | .sleepOn c | .relock c => some c
  | _ => none

namespace State

variable {C : Type} [DecidableEq C]

/-- One step. Interrupt handlers call `wakeup` on any CPU, and what the conditions of the loops read
changes in any way. -/
def step (s : State n C) : Act n C → Option (State n C)
  | .sched c => s.scheduler c
  | .resume c =>
    match s.cpu c with
    | .switched p i => some (s.resume c p i)
    | _ => none
  | .wakeup ch => if s.lock = none then some { s with proc := wakeup1 s.proc (some ch) } else none
  | .env e => some { s with env := e }
  | a => a.cpu.bind fun c =>
    match s.cpu c with
    | .runs p i => s.run c p i a
    | _ => none

def blank (init : Fin n) : State n C where
  proc := fun _ => {}
  nextpid := 1
  initproc := init
  lock := none
  cpu := fun _ => .idle
  pc := fun _ => .dead
  held := fun _ => none
  env := {}
  born := 0
  uid := fun _ => 0
  forked := []
  reaped := []
  blows := fun _ => []

def userinit (init : Fin n) : State n C :=
  { (blank init).setProc init { state := .runnable, pid := 1 } with nextpid := 2, born := 1 }.goto
    init .user

end State

end Xv6.Ptable
