import Xv6.Spec.Param
import Xv6.Lib.Writes

/-! The redo log of `log.c`: the on-disk header, `write_log`, `install_trans`,
`commit` and `recover_from_log`, over a disk whose single-block writes are
atomic and ordered; and `begin_op`, `log_write` and `end_op`, each as what it does
between acquiring and releasing `log.lock`. -/

namespace Xv6

/-- The disk below the buffer cache. `cache b` is the buffer of block `b`, if there is
one; `writes` records the block writes that have reached the disk, in order. -/
structure Machine where
  disk : ℕ → Block
  cache : ℕ → Option Block
  writes : List (ℕ × Block)

namespace Machine

def boot (d : ℕ → Block) : Machine := ⟨d, fun _ => none, []⟩

def bread (m : Machine) (b : ℕ) : Block := (m.cache b).getD (m.disk b)

def bwrite (m : Machine) (b : ℕ) (data : Block) : Machine where
  disk := Function.update m.disk b data
  cache := Function.update m.cache b (some data)
  writes := m.writes ++ [(b, data)]

end Machine

/-- `struct log` without its lock. `lh` is `lh.block[0..n-1]`, so `lh.n` is its
length. -/
structure Log where
  start : ℕ
  size : ℕ
  outstanding : ℤ
  committing : Bool
  lh : List ℕ

def headN (hb : Block) : ℤ :=
  let w := hb.word 4 0
  if w < 2 ^ 31 then w else (w : ℤ) - 2 ^ 32

def headBlock (hb : Block) (i : ℕ) : ℕ := hb.word 4 (4 * (i + 1))

/-- The loop of `write_head` that stores `block[i]`, `block[i+1]`, … -/
def putBlocks (i : ℕ) : List ℕ → Block → Block
  | [], hb => hb
  | b :: bs, hb => putBlocks (i + 1) bs (hb.setWord 4 (4 * (i + 1)) b)

inductive LogPanic where
  /-- "log.committing" in `end_op` -/
  | committing
  /-- "too big a transaction" in `log_write` -/
  | tooBig
  /-- "log_write outside of trans" in `log_write` -/
  | outsideTrans
deriving DecidableEq, Repr

namespace Log

/-- Copy committed blocks from log to their home location, from `tail` on. -/
def installFrom (start tail : ℕ) : List ℕ → Machine → Machine
  | [], m => m
  | b :: bs, m => installFrom start (tail + 1) bs (m.bwrite b (m.bread (start + tail + 1)))

def installTrans (log : Log) (m : Machine) : Machine := installFrom log.start 0 log.lh m

def readHead (log : Log) (m : Machine) : Log :=
  let hb := m.bread log.start
  { log with lh := (List.range (headN hb).toNat).map (headBlock hb) }

/-- Write in-memory log header to disk. The entries past `n` keep their old contents. -/
def writeHead (log : Log) (m : Machine) : Machine :=
  let hb := m.bread log.start
  m.bwrite log.start (putBlocks 0 log.lh (hb.setWord 4 0 log.lh.length))

def recoverFromLog (log : Log) (m : Machine) : Log × Machine :=
  let log := log.readHead m
  let m := log.installTrans m
  let log := { log with lh := [] }
  (log, log.writeHead m)

def writeLogFrom (start tail : ℕ) : List ℕ → Machine → Machine
  | [], m => m
  | b :: bs, m => writeLogFrom start (tail + 1) bs (m.bwrite (start + tail + 1) (m.bread b))

def writeLog (log : Log) (m : Machine) : Machine := writeLogFrom log.start 0 log.lh m

def commit (log : Log) (m : Machine) : Log × Machine :=
  if 0 < log.lh.length then
    let m := log.writeLog m
    let m := log.writeHead m
    let m := log.installTrans m
    let log := { log with lh := [] }
    (log, log.writeHead m)
  else (log, m)

/-- One round of the loop of `begin_op`; `none` when the caller goes to sleep. -/
def beginOp (log : Log) : Option Log :=
  if log.committing then none
  else if log.lh.length + (log.outstanding + 1) * MAXOPBLOCKS > LOGSIZE then none
  else some { log with outstanding := log.outstanding + 1 }

def endOp (log : Log) : Except LogPanic (Log × Bool) :=
  let log := { log with outstanding := log.outstanding - 1 }
  if log.committing then .error .committing
  else if log.outstanding = 0 then .ok ({ log with committing := true }, true)
  else .ok (log, false)

/-- The loop of `log_write` over `lh.block` and the store after it: the entry of a block
that is already logged is reused, a new block is appended. -/
def absorb : List ℕ → ℕ → List ℕ
  | [], b => [b]
  | c :: cs, b => if c = b then b :: cs else c :: absorb cs b

def logWrite (log : Log) (b : ℕ) : Except LogPanic Log :=
  if log.lh.length ≥ LOGSIZE ∨ log.lh.length ≥ log.size - 1 then .error .tooBig
  else if log.outstanding < 1 then .error .outsideTrans
  else .ok { log with lh := absorb log.lh b }

end Log

/-- The disk left behind when the machine running from `m` to `m'` stops after `k` of its
block writes. -/
def crashDisk (m m' : Machine) (k : ℕ) : ℕ → Block :=
  Writes.apply ((m'.writes.drop m.writes.length).take k) m.disk

/-- `Recovers log d d'`: booting on `d` and running `recover_from_log`, stopped at any
block write and rebooted any number of times, first completes with disk `d'`. -/
inductive Recovers (log : Log) : (ℕ → Block) → (ℕ → Block) → Prop where
  | done (d : ℕ → Block) : Recovers log d (log.recoverFromLog (.boot d)).2.disk
  | crash (d d' : ℕ → Block) (k : ℕ)
      (h : Recovers log (crashDisk (.boot d) (log.recoverFromLog (.boot d)).2 k) d') :
      Recovers log d d'

end Xv6
