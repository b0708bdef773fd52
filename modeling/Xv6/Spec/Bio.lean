import Xv6.Lib.Prog
import Xv6.Lib.LinkRing
import Xv6.Spec.Log

/-! The buffer cache of `bio.c` over the in-memory disk of `memide.c`, used by any number of
processes, and `log_write`, `begin_op`, `end_op` and `commit` of `log.c` as they use it. A
process is interrupted where it waits for a sleep-lock or for the log, and wherever it lets
go of a lock. -/

namespace Xv6

open Function

def Log.InArea (log : Log) (b : ℕ) : Prop := log.start ≤ b ∧ b < log.start + log.size

/-- `struct buf` without its list pointers. `lock` is the process that holds the sleep-lock. -/
structure Buf (P : Type) where
  dev : ℕ
  blockno : ℕ
  valid : Bool
  dirty : Bool
  refcnt : ℕ
  lock : Option P
  data : Block

inductive BioEvent where
  /-- `bread(dev, b)` returned a buffer with these bytes -/
  | returned (dev b : ℕ) (data : Block)
  /-- a process wrote the bytes to block `b` with `bwrite` -/
  | written (b : ℕ) (data : Block)
  /-- a process recorded block `b` with `log_write`, its buffer holding these bytes -/
  | logged (b : ℕ) (data : Block)
  /-- `write_log` wrote the bytes it read from block `b` to the log block `l` -/
  | copied (l b : ℕ) (data : Block)
  /-- `install_trans` wrote block `b` -/
  | installed (b : ℕ)
  /-- `bget` took the buffer of block `b` for another block -/
  | evicted (dev b : ℕ)

/-- The calls of `panic` in `bio.c` and `memide.c`, and those of `log.c`. -/
inductive BioPanic where
  /-- "bget: no buffers" -/
  | noBuffers
  /-- "bwrite" -/
  | bwrite
  /-- "brelse" -/
  | brelse
  /-- "iderw: buf not locked" -/
  | notLocked
  /-- "iderw: nothing to do" -/
  | nothingToDo
  /-- "iderw: request not for disk 1" -/
  | notDisk1
  /-- "iderw: block out of range" -/
  | outOfRange
  | log (e : LogPanic)
deriving DecidableEq, Repr

/-- `bcache`, the disk and the log. The sentinel `bcache.head` of the list is `none`. The
last six fields are history: the calls of `bget` not yet undone by `brelse`, the time of
the last `brelse` of each buffer, the buffers changed since they were last saved by `bwrite`
or `log_write`, the process running `commit`, and the events. -/
structure Bio (P : Type) where
  buf : Fin NBUF → Buf P
  ring : LinkRing (Option (Fin NBUF))
  disk : ℕ → Block
  disksize : ℕ
  log : Log
  users : List (P × Fin NBUF)
  released : Fin NBUF → ℕ
  clock : ℕ
  unsaved : Fin NBUF → Bool
  committer : Option P
  trace : List BioEvent

abbrev BioM (P : Type) := Prog (Bio P) BioPanic

namespace Bio

variable {P : Type}

/-- The links that `binit` builds: each buffer in turn goes right after the head. -/
def initRing : LinkRing (Option (Fin NBUF)) :=
  (List.finRange NBUF).foldl (fun r i => r.insertAfter none (some i))
    ⟨fun _ => none, fun _ => none⟩

/-- After `binit` and `initlog`, with an empty log of `size` blocks at `start`. -/
def binit (start size disksize : ℕ) (disk : ℕ → Block) : Bio P where
  buf := fun _ => ⟨0, 0, false, false, 0, none, .zero⟩
  ring := initRing
  disk := disk
  disksize := disksize
  log := ⟨start, size, 0, false, []⟩
  users := []
  released := fun _ => 0
  clock := 0
  unsaved := fun _ => false
  committer := none
  trace := []

def setBuf (s : Bio P) (i : Fin NBUF) (b : Buf P) : Bio P :=
  { s with buf := update s.buf i b }

def note (s : Bio P) (e : BioEvent) : Bio P := { s with trace := s.trace ++ [e] }

/-! ### The cache -/

/-- The first loop of `bget`, from `head.next` on. -/
def cached (s : Bio P) (dev blockno : ℕ) : Option (Fin NBUF) :=
  (LinkRing.find s.ring.next none
    (fun b => b.any fun i => (s.buf i).dev == dev && (s.buf i).blockno == blockno)
    (NBUF + 1) (s.ring.next none)).join

/-- The second loop of `bget`, from `head.prev` on. -/
def unused (s : Bio P) : Option (Fin NBUF) :=
  (LinkRing.find s.ring.prev none
    (fun b => b.any fun i => (s.buf i).refcnt == 0 && !(s.buf i).dirty)
    (NBUF + 1) (s.ring.prev none)).join

def ref (s : Bio P) (p : P) (i : Fin NBUF) : Bio P :=
  { s.setBuf i { s.buf i with refcnt := (s.buf i).refcnt + 1 } with users := (p, i) :: s.users }

def recycle (s : Bio P) (p : P) (i : Fin NBUF) (dev blockno : ℕ) : Bio P :=
  let b := s.buf i
  { s.setBuf i ⟨dev, blockno, false, false, 1, b.lock, b.data⟩ with
    users := (p, i) :: s.users, trace := s.trace ++ [.evicted b.dev b.blockno] }

/-- The processes that have obtained buffer `i` and not released it, one entry for each of
their calls of `bget`. -/
def holders (s : Bio P) (i : Fin NBUF) : List P := (s.users.filter (·.2 = i)).map Prod.fst

def Free (s : Bio P) (i : Fin NBUF) : Prop := (s.buf i).refcnt = 0 ∧ (s.buf i).dirty = false

/-! ### Sleep-locks -/

def acquiresleep (p : P) (i : Fin NBUF) : BioM P Unit := do
  Prog.await fun s => (s.buf i).lock.isNone
  Prog.modify fun s => s.setBuf i { s.buf i with lock := some p }

def releasesleep (i : Fin NBUF) : BioM P Unit := do
  Prog.modify fun s => s.setBuf i { s.buf i with lock := none }
  Prog.await fun _ => true

/-! ### `memide.c` -/

variable [DecidableEq P]

def iderw (p : P) (i : Fin NBUF) : BioM P Unit := do
  let s ← Prog.get
  let b := s.buf i
  if b.lock ≠ some p then Prog.halt .notLocked
  else if b.valid && !b.dirty then Prog.halt .nothingToDo
  else if b.dev ≠ 1 then Prog.halt .notDisk1
  else if b.blockno ≥ s.disksize then Prog.halt .outOfRange
  else if b.dirty then
    Prog.modify fun s =>
      { s.setBuf i { b with dirty := false, valid := true } with
        disk := update s.disk b.blockno b.data }
  else Prog.modify fun s => s.setBuf i { b with data := s.disk b.blockno, valid := true }

/-! ### `bio.c` -/

def bget (p : P) (dev blockno : ℕ) : BioM P (Fin NBUF) := do
  let s ← Prog.get
  match s.cached dev blockno with
  | some i =>
    Prog.modify fun s => s.ref p i
    acquiresleep p i
    pure i
  | none =>
    match s.unused with
    | some i =>
      Prog.modify fun s => s.recycle p i dev blockno
      acquiresleep p i
      pure i
    | none => Prog.halt .noBuffers

def bread (p : P) (dev blockno : ℕ) : BioM P (Fin NBUF) := do
  let i ← bget p dev blockno
  let s ← Prog.get
  if !(s.buf i).valid then iderw p i
  Prog.modify fun s => s.note (.returned dev blockno (s.buf i).data)
  pure i

def bwrite (p : P) (i : Fin NBUF) : BioM P Unit := do
  let s ← Prog.get
  if (s.buf i).lock ≠ some p then Prog.halt .bwrite
  else
    Prog.modify fun s =>
      { s.setBuf i { s.buf i with dirty := true } with unsaved := update s.unsaved i false }
    iderw p i

/-- `b->refcnt--`, and to the head of the MRU list when no one is waiting for it. -/
def unref (s : Bio P) (p : P) (i : Fin NBUF) : Bio P :=
  let b := s.buf i
  { s.setBuf i { b with refcnt := b.refcnt - 1 } with
    ring := if b.refcnt - 1 = 0 then (s.ring.unlink (some i)).insertAfter none (some i) else s.ring
    users := s.users.erase (p, i)
    released := update s.released i (s.clock + 1)
    clock := s.clock + 1 }

def brelse (p : P) (i : Fin NBUF) : BioM P Unit := do
  let s ← Prog.get
  if (s.buf i).lock ≠ some p then Prog.halt .brelse
  else
    releasesleep i
    Prog.modify fun s => s.unref p i

def memmove (i : Fin NBUF) (f : Block → Block) : BioM P Unit :=
  Prog.modify fun s =>
    { s.setBuf i { s.buf i with data := f (s.buf i).data } with
      unsaved := update s.unsaved i true }

/-! ### `log.c` -/

/-- The caller has modified the buffer. Record the block number and pin it in the cache. -/
def logWrite (i : Fin NBUF) : BioM P Unit := do
  let s ← Prog.get
  let b := s.buf i
  match s.log.logWrite b.blockno with
  | .error e => Prog.halt (.log e)
  | .ok log =>
    Prog.modify fun s =>
      { (s.setBuf i { b with dirty := true }).note (.logged b.blockno b.data) with
        log := log, unsaved := update s.unsaved i false }

/-- Copy modified blocks from cache to log, from `tail` on. The header cannot change under
the loop: as long as `committing` is set no operation is outstanding. -/
def writeLogFrom (p : P) (start tail : ℕ) : List ℕ → BioM P Unit
  | [] => pure ()
  | b :: bs => do
    let dst ← bread p ROOTDEV (start + tail + 1)
    let src ← bread p ROOTDEV b
    let s ← Prog.get
    memmove dst fun _ => (s.buf src).data
    bwrite p dst
    Prog.modify fun t => t.note (.copied (start + tail + 1) b (s.buf src).data)
    brelse p src
    brelse p dst
    writeLogFrom p start (tail + 1) bs

/-- Copy committed blocks from log to their home location, from `tail` on. -/
def installFrom (p : P) (start tail : ℕ) : List ℕ → BioM P Unit
  | [] => pure ()
  | b :: bs => do
    let lbuf ← bread p ROOTDEV (start + tail + 1)
    let dbuf ← bread p ROOTDEV b
    let s ← Prog.get
    memmove dbuf fun _ => (s.buf lbuf).data
    bwrite p dbuf
    Prog.modify fun t => t.note (.installed b)
    brelse p lbuf
    brelse p dbuf
    installFrom p start (tail + 1) bs

def writeHead (p : P) : BioM P Unit := do
  let t ← Prog.get
  let i ← bread p ROOTDEV t.log.start
  let s ← Prog.get
  let hb := (s.buf i).data
  memmove i fun _ => putBlocks 0 s.log.lh (hb.setWord 4 0 s.log.lh.length)
  bwrite p i
  Prog.modify fun s => s.note (.written s.log.start (s.buf i).data)
  brelse p i

def commit (p : P) : BioM P Unit := do
  let s ← Prog.get
  if 0 < s.log.lh.length then
    writeLogFrom p s.log.start 0 s.log.lh
    writeHead p
    let s ← Prog.get
    installFrom p s.log.start 0 s.log.lh
    Prog.modify fun s => { s with log := { s.log with lh := [] } }
    writeHead p

def beginOp : BioM P Unit := do
  Prog.await fun s => s.log.beginOp.isSome
  Prog.modify fun s => { s with log := s.log.beginOp.getD s.log }

def endOp (p : P) : BioM P Unit := do
  let s ← Prog.get
  match s.log.endOp with
  | .error e => Prog.halt (.log e)
  | .ok (log, false) => Prog.modify fun s => { s with log := log }
  | .ok (log, true) =>
    Prog.modify fun s => { s with log := log, committer := some p }
    Prog.await fun _ => true
    commit p
    Prog.modify fun s => { s with log := { s.log with committing := false }, committer := none }

/-! ### The processes -/

end Bio

inductive BioCall where
  | bget (dev blockno : ℕ)
  | bread (dev blockno : ℕ)
  | memmove (i : Fin NBUF) (f : Block → Block)
  | bwrite (i : Fin NBUF)
  | logWrite (i : Fin NBUF)
  | brelse (i : Fin NBUF)
  | beginOp
  | endOp

namespace Bio

variable {P : Type} [DecidableEq P]

def run (p : P) : BioCall → BioM P Unit
  | .bget dev blockno => do
    let _ ← bget p dev blockno
    pure ()
  | .bread dev blockno => do
    let _ ← bread p dev blockno
    pure ()
  | .memmove i f => memmove i f
  | .bwrite i => do
    bwrite p i
    Prog.modify fun s => s.note (.written (s.buf i).blockno (s.buf i).data)
  | .logWrite i => logWrite i
  | .brelse i => brelse p i
  | .beginOp => beginOp
  | .endOp => endOp p

/-- The system: each step is a call of `BioCall`, or a waiting process going on. -/
abbrev step : Conc P (Bio P) BioPanic → Sched P BioCall → Option (Conc P (Bio P) BioPanic) :=
  Conc.step run

/-- How the processes use the cache: a buffer is read with `bread`, then changed, saved and
released by the process that holds its lock, and saved before it is released. -/
def UnderLock (s : Bio P) (p : P) : BioCall → Prop
  | .bget _ _ => False
  | .memmove i _ => (s.buf i).lock = some p
  | .bwrite i => (s.buf i).lock = some p
  | .logWrite i => (s.buf i).lock = some p
  | .brelse i => (s.buf i).lock = some p ∧ s.unsaved i = false
  | _ => True

/-- `log_write` replaces `bwrite` for the blocks it records, and the log area is the log's. -/
def LogReplaces (s : Bio P) : BioCall → Prop
  | .bwrite i => (s.buf i).blockno ∉ s.log.lh ∧ ¬s.log.InArea (s.buf i).blockno
  | .logWrite i => ¬s.log.InArea (s.buf i).blockno
  | _ => True

def Disciplined (s : Bio P) (p : P) (k : BioCall) : Prop := s.UnderLock p k ∧ s.LogReplaces k

instance (s : Bio P) (p : P) : DecidablePred (s.UnderLock p)
  | .bget _ _ => inferInstanceAs (Decidable False)
  | .memmove i _ => inferInstanceAs (Decidable ((s.buf i).lock = some p))
  | .bwrite i => inferInstanceAs (Decidable ((s.buf i).lock = some p))
  | .logWrite i => inferInstanceAs (Decidable ((s.buf i).lock = some p))
  | .brelse i => inferInstanceAs (Decidable ((s.buf i).lock = some p ∧ s.unsaved i = false))
  | .bread _ _ => inferInstanceAs (Decidable True)
  | .beginOp => inferInstanceAs (Decidable True)
  | .endOp => inferInstanceAs (Decidable True)

instance (log : Log) (b : ℕ) : Decidable (log.InArea b) :=
  inferInstanceAs (Decidable (log.start ≤ b ∧ b < log.start + log.size))

instance (s : Bio P) : DecidablePred s.LogReplaces
  | .bwrite i => inferInstanceAs
      (Decidable ((s.buf i).blockno ∉ s.log.lh ∧ ¬s.log.InArea (s.buf i).blockno))
  | .logWrite i => inferInstanceAs (Decidable (¬s.log.InArea (s.buf i).blockno))
  | .bget _ _ => inferInstanceAs (Decidable True)
  | .bread _ _ => inferInstanceAs (Decidable True)
  | .memmove _ _ => inferInstanceAs (Decidable True)
  | .brelse _ => inferInstanceAs (Decidable True)
  | .beginOp => inferInstanceAs (Decidable True)
  | .endOp => inferInstanceAs (Decidable True)

instance (s : Bio P) (p : P) : DecidablePred (s.Disciplined p) :=
  fun k => inferInstanceAs (Decidable (s.UnderLock p k ∧ s.LogReplaces k))

def Calls (C : Bio P → P → BioCall → Prop) (c : Conc P (Bio P) BioPanic) : Sched P BioCall → Prop
  | .call p k => C c.shared p k
  | .resume _ => True

instance (C : Bio P → P → BioCall → Prop) [∀ s p k, Decidable (C s p k)]
    (c : Conc P (Bio P) BioPanic) : DecidablePred (Calls C c)
  | .call p k => inferInstanceAs (Decidable (C c.shared p k))
  | .resume _ => inferInstanceAs (Decidable True)

/-! ### What the history says -/

/-- The bytes most recently stored in each block, over the contents of the disk at the
start. What `install_trans` writes back does not count as stored. -/
def latest (d : ℕ → Block) (evs : List BioEvent) : ℕ → Block :=
  evs.foldl (fun d e => match e with
    | .written b data => update d b data
    | .logged b data => update d b data
    | .copied l _ data => update d l data
    | _ => d) d

/-- The blocks recorded by `log_write` that `commit` has not installed yet. -/
def pinned (evs : List BioEvent) : ℕ → Bool :=
  evs.foldl (fun r e => match e with
    | .logged b _ => update r b true
    | .installed b => update r b false
    | _ => r) fun _ => false

/-- What an event has to satisfy after the events before it: `bread` and `write_log` get the
bytes most recently stored, and no block is evicted between `log_write` and its
installation. -/
def EventOk (d : ℕ → Block) (pre : List BioEvent) : BioEvent → Prop
  | .returned dev b data => dev = ROOTDEV ∧ data = latest d pre b
  | .copied _ b data => data = latest d pre b
  | .evicted dev b => dev = ROOTDEV → pinned pre b = false
  | _ => True

def Transparent (d : ℕ → Block) (evs : List BioEvent) : Prop :=
  ∀ pre e post, evs = pre ++ e :: post → EventOk d pre e

end Bio

end Xv6
