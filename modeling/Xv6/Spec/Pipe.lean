import Xv6.Lib.RingBuffer
import Xv6.Lib.Run

/-! The pipes of `pipe.c`, used by any number of processes. A step is what a process does from
acquiring `p->lock` to releasing it, in `release` or in `sleep`. -/

namespace Xv6

def PIPESIZE : ℕ := 512

instance : NeZero PIPESIZE := ⟨by decide⟩

structure Pipe extends RingBuffer UInt8 PIPESIZE 32 where
  readopen : Bool
  writeopen : Bool

/-- Where a process stands with the pipe: between two calls; in `piperead(p, addr, n)`; or in
`pipewrite(p, addr, n)` with the bytes `rest` still to be stored. Inside a call it is in
`sleep`, and `asleep` is whether its state is SLEEPING: a reader on `&p->nread`, a writer on
`&p->nwrite`. -/
inductive PipeProc where
  | idle
  | reading (n : ℤ) (asleep : Bool)
  | writing (n : ℕ) (rest : List UInt8) (asleep : Bool)
deriving DecidableEq, Repr

/-- A return of `piperead`: its argument and its result, whether the write end was open, and how
many bytes had been stored and not been returned yet. -/
structure PipeRead where
  n : ℤ
  ret : ℤ
  writeopen : Bool
  unread : ℕ
deriving DecidableEq, Repr

/-- The pipe, its processes and their `killed` flags. `freed` is whether the page of the pipe
has been given back. The last three fields are history: the bytes stored by all `pipewrite`
calls, the bytes returned by all `piperead` calls, and the returns of `piperead`. -/
structure Pipes (P : Type) where
  pipe : Pipe
  proc : P → PipeProc
  killed : P → Bool
  freed : Bool
  stored : List UInt8
  returned : List UInt8
  reads : List PipeRead

inductive PipeAct (P : Type) where
  | piperead (p : P) (n : ℤ)
  | pipewrite (p : P) (src : List UInt8)
  /-- a process that has been woken up acquires `p->lock` again, in `sleep` -/
  | resume (p : P)
  | pipeclose (writable : Bool)
  | kill (p : P)

namespace Pipe

/-- The loop of `pipewrite` until it finds the pipe full: the bytes that are left. -/
def fill : Pipe → List UInt8 → Pipe × List UInt8
  | p, [] => (p, [])
  | p, c :: cs => if p.isFull then (p, c :: cs) else fill { p with toRingBuffer := p.put c } cs

/-- The loop of `piperead`, at most `i` rounds: the bytes read. -/
def drain : ℕ → Pipe → Pipe × List UInt8
  | 0, p => (p, [])
  | i + 1, p =>
    if p.isEmpty then (p, [])
    else
      let r := drain i { p with toRingBuffer := p.tail }
      (r.1, p.head :: r.2)

end Pipe

namespace PipeProc

def wakeReader : PipeProc → PipeProc
  | reading n _ => reading n false
  | pr => pr

def wakeWriter : PipeProc → PipeProc
  | writing n rest _ => writing n rest false
  | pr => pr

def wake : PipeProc → PipeProc
  | idle => idle
  | reading n _ => reading n false
  | writing n rest _ => writing n rest false

end PipeProc

namespace Pipes

variable {P : Type} [DecidableEq P]

/-- As `pipealloc` leaves the pipe, with the bytes that happen to be in the page. -/
def init (data : Fin PIPESIZE → UInt8) (killed : P → Bool) : Pipes P where
  pipe := { data := data, nread := 0, nwrite := 0, readopen := true, writeopen := true }
  proc := fun _ => .idle
  killed := killed
  freed := false
  stored := []
  returned := []
  reads := []

def wakeReaders (s : Pipes P) : Pipes P := { s with proc := fun p => (s.proc p).wakeReader }

def wakeWriters (s : Pipes P) : Pipes P := { s with proc := fun p => (s.proc p).wakeWriter }

def setProc (s : Pipes P) (p : P) (pr : PipeProc) : Pipes P :=
  { s with proc := Function.update s.proc p pr }

/-- `pipewrite` from the `for` loop on, with the bytes `rest` left of `n`. -/
def writeOn (s : Pipes P) (p : P) (n : ℕ) (rest : List UInt8) : Pipes P :=
  let r := s.pipe.fill rest
  let s := { s with pipe := r.1, stored := s.stored ++ rest.take (rest.length - r.2.length) }
  if r.2.isEmpty then s.wakeReaders.setProc p .idle
  else if !s.pipe.readopen || s.killed p then s.setProc p .idle
  else s.wakeReaders.setProc p (.writing n r.2 true)

/-- `piperead` from its `while` loop on. -/
def readOn (s : Pipes P) (p : P) (n : ℤ) : Pipes P :=
  if s.pipe.isEmpty && s.pipe.writeopen then
    if s.killed p then
      { s.setProc p .idle with
        reads := ⟨n, -1, s.pipe.writeopen, s.stored.length - s.returned.length⟩ :: s.reads }
    else s.setProc p (.reading n true)
  else
    let r := s.pipe.drain n.toNat
    let returned := s.returned ++ r.2
    { s.wakeWriters.setProc p .idle with
      pipe := r.1
      returned := returned
      reads := ⟨n, r.2.length, s.pipe.writeopen, s.stored.length - returned.length⟩ :: s.reads }

def close (s : Pipes P) (writable : Bool) : Pipes P :=
  let s := if writable then { s.wakeReaders with pipe.writeopen := false }
    else { s.wakeWriters with pipe.readopen := false }
  { s with freed := !s.pipe.readopen && !s.pipe.writeopen }

/-- `none` when the step is not possible: the pipe is gone, the process is in another call, or it
has not been woken up. -/
def step (s : Pipes P) : PipeAct P → Option (Pipes P)
  | .piperead p n => if s.freed = false ∧ s.proc p = .idle then some (s.readOn p n) else none
  | .pipewrite p src =>
    if s.freed = false ∧ s.proc p = .idle then some (s.writeOn p src.length src) else none
  | .resume p =>
    if s.freed then none
    else match s.proc p with
      | .reading n false => some (s.readOn p n)
      | .writing n rest false => some (s.writeOn p n rest)
      | _ => none
  | .pipeclose writable => if s.freed then none else some (s.close writable)
  | .kill p => some { s.setProc p (s.proc p).wake with killed := Function.update s.killed p true }

def SleepsOnRead (s : Pipes P) (p : P) : Prop := ∃ n, s.proc p = .reading n true

def SleepsOnWrite (s : Pipes P) (p : P) : Prop := ∃ n rest, s.proc p = .writing n rest true

/-- The processes follow what the reference counts of the two files of a pipe ensure, and no
writer has been killed: a reader has the read end open, which is closed when nobody is in
`piperead` any more. -/
def Unkilled (s : Pipes P) : PipeAct P → Prop
  | .piperead _ _ => s.pipe.readopen = true
  | .pipewrite p _ => s.killed p = false
  | .resume p => (∃ n rest b, s.proc p = .writing n rest b) → s.killed p = false
  | .pipeclose writable => writable = false → ∀ p n b, s.proc p ≠ .reading n b
  | .kill _ => True

end Pipes

end Xv6
