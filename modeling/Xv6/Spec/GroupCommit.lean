import Xv6.Lib.Run
import Xv6.Spec.Log

/-! Any number of processes using the log. Each process repeats a bracket of
`begin_op`, any number of `log_write` and `end_op`; the process whose `end_op` finds no
other operation outstanding then runs `commit` without the lock, one step at a time. -/

namespace Xv6

inductive CommitPc where
  /-- before the test `log.lh.n > 0` -/
  | test
  /-- in the loop of `write_log` -/
  | writeLog (tail : ℕ)
  /-- before the `write_head` that commits -/
  | writeHead
  /-- in the loop of `install_trans` -/
  | installTrans (tail : ℕ)
  /-- before `log.lh.n = 0` -/
  | clear
  /-- before the `write_head` that erases the transaction -/
  | eraseHead
  /-- before the critical section that resets `log.committing` -/
  | finish
deriving DecidableEq, Repr

/-- A running operation carries the blocks it has logged, each with the number of
transactions that had been committed when it did. -/
inductive Phase where
  | idle
  | running (logged : List (ℕ × ℕ))
  | commit (pc : CommitPc)
deriving DecidableEq, Repr

/-- The log and the processes using it. The last three fields are history: the
header contents of every committed transaction, the blocks logged by every finished
bracket, and the blocks passed to `log_write` since `commit` last cleared the log. -/
structure Ops (P : Type) where
  log : Log
  phase : P → Phase
  panic : Option LogPanic
  txns : List (List ℕ)
  brackets : List (List (ℕ × ℕ))
  group : List ℕ

inductive OpsAct (P : Type) where
  | beginOp (p : P)
  | logWrite (p : P) (b : ℕ)
  | endOp (p : P)
  | commit (p : P)

namespace Ops

variable {P : Type} [DecidableEq P]

def init (start size : ℕ) : Ops P where
  log := ⟨start, size, 0, false, []⟩
  phase := fun _ => .idle
  panic := none
  txns := []
  brackets := []
  group := []

def setPhase (s : Ops P) (p : P) (ph : Phase) : Ops P :=
  { s with phase := Function.update s.phase p ph }

/-- One step of `commit` at `pc`. An empty transaction is committed without a write. -/
def commitStep (s : Ops P) (p : P) : CommitPc → Ops P
  | .test =>
    if 0 < s.log.lh.length then s.setPhase p (.commit (.writeLog 0))
    else { s.setPhase p (.commit .finish) with txns := s.txns ++ [s.log.lh], group := [] }
  | .writeLog tail =>
    if tail + 1 < s.log.lh.length then s.setPhase p (.commit (.writeLog (tail + 1)))
    else s.setPhase p (.commit .writeHead)
  | .writeHead => { s.setPhase p (.commit (.installTrans 0)) with txns := s.txns ++ [s.log.lh] }
  | .installTrans tail =>
    if tail + 1 < s.log.lh.length then s.setPhase p (.commit (.installTrans (tail + 1)))
    else s.setPhase p (.commit .clear)
  | .clear =>
    { s.setPhase p (.commit .eraseHead) with log := { s.log with lh := [] }, group := [] }
  | .eraseHead => s.setPhase p (.commit .finish)
  | .finish => { s.setPhase p .idle with log := { s.log with committing := false } }

/-- `none` when process `p` cannot take the step: it is elsewhere in its program, it
would go to sleep, or the machine has panicked. -/
def step (s : Ops P) : OpsAct P → Option (Ops P)
  | .beginOp p =>
    match s.panic, s.phase p, s.log.beginOp with
    | none, .idle, some log => some { s.setPhase p (.running []) with log := log }
    | _, _, _ => none
  | .logWrite p b =>
    match s.panic, s.phase p with
    | none, .running logged =>
      match s.log.logWrite b with
      | .ok log =>
        some { s.setPhase p (.running (logged ++ [(b, s.txns.length)])) with
          log := log, group := s.group ++ [b] }
      | .error e => some { s with panic := some e }
    | _, _ => none
  | .endOp p =>
    match s.panic, s.phase p with
    | none, .running logged =>
      match s.log.endOp with
      | .ok (log, doCommit) =>
        some { s.setPhase p (if doCommit then .commit .test else .idle) with
          log := log, brackets := s.brackets ++ [logged] }
      | .error e => some { s with panic := some e }
    | _, _ => none
  | .commit p =>
    match s.panic, s.phase p with
    | none, .commit pc => some (s.commitStep p pc)
    | _, _ => none

def distinct (logged : List (ℕ × ℕ)) : ℕ := (logged.map Prod.fst).dedup.length

/-- The step keeps its bracket within the reservation: it logs at most `MAXOPBLOCKS`
different blocks, the one of this step included. -/
def Within (s : Ops P) : OpsAct P → Prop
  | .logWrite p b => ∀ logged, s.phase p = .running logged → distinct ((b, 0) :: logged) ≤ MAXOPBLOCKS
  | _ => True

end Ops

end Xv6
