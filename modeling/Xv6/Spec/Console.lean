import Xv6.Lib.RingBuffer
import Xv6.Lib.Run

/-! Console input: `consoleintr` and `consoleread` of `console.c`, and below them what a terminal
line is. Characters arrive one by one, and any number of processes read. -/

namespace Xv6.Console

def INPUT_BUF : ℕ := 128

instance : NeZero INPUT_BUF := ⟨by decide⟩

def ctrlP : UInt8 := 0x10
def ctrlU : UInt8 := 0x15
def ctrlH : UInt8 := 0x08
def del : UInt8 := 0x7f
def ctrlD : UInt8 := 0x04
def cr : UInt8 := 13
def newline : UInt8 := 10

structure Input where
  buf : Fin INPUT_BUF → UInt8
  r : BitVec 32
  w : BitVec 32
  e : BitVec 32

namespace Input

def get (x : Input) (i : BitVec 32) : UInt8 := x.buf (RingBuffer.slot i)

/-- The loop of kill line, for at most `k` rounds. -/
def killLine : ℕ → Input → Input
  | 0, x => x
  | k + 1, x =>
    if x.e ≠ x.w ∧ x.get (x.e - 1) ≠ newline then killLine k { x with e := x.e - 1 } else x

/-- `consoleintr` for one character. What it writes to the screen is left out. -/
def consoleintr (x : Input) (c : UInt8) : Input :=
  if c = ctrlP then x
  else if c = ctrlU then killLine INPUT_BUF x
  else if c = ctrlH ∨ c = del then
    if x.e ≠ x.w then { x with e := x.e - 1 } else x
  else if c ≠ 0 ∧ (x.e - x.r).toNat < INPUT_BUF then
    let c := if c = cr then newline else c
    let x := { x with buf := Function.update x.buf (RingBuffer.slot x.e) c, e := x.e + 1 }
    if c = newline ∨ c = ctrlD ∨ x.e = x.r + BitVec.ofNat 32 INPUT_BUF then { x with w := x.e } else x
  else x

end Input

/-- Where `consoleread` stops: it sleeps with `k` bytes to go, or returns. -/
inductive ReadOut where
  | sleeps (k : ℕ) (got : List UInt8)
  | returns (got : List UInt8)
deriving DecidableEq, Repr

def ReadOut.bytes : ReadOut → List UInt8
  | .sleeps _ got => got
  | .returns got => got

/-- The loop of `consoleread` of `target` bytes with `k` to go, up to the next `sleep`. -/
def readLoop (target : ℕ) : ℕ → Input → List UInt8 → ReadOut × Input
  | 0, x, got => (.returns got, x)
  | k + 1, x, got =>
    if x.r = x.w then (.sleeps (k + 1) got, x)
    else
      let c := x.get x.r
      let y := { x with r := x.r + 1 }
      if c = ctrlD then
        -- Save ^D for next time, to make sure caller gets a 0-byte result.
        (.returns got, if k + 1 < target then { y with r := y.r - 1 } else y)
      else if c = newline then (.returns (got ++ [c]), y)
      else readLoop target k y (got ++ [c])

structure Reader where
  target : ℕ
  k : ℕ
  got : List UInt8

/-- A return of `consoleread`: the process, the size it asked for, and what it got. `mark` is how many
bytes had been taken from the input by then, each ^D included. -/
structure Result (P : Type) where
  who : P
  size : ℕ
  bytes : List UInt8
  mark : ℕ

def Result.AtEof {P : Type} (r : Result P) : Prop := 0 < r.size ∧ r.bytes = []

instance {P : Type} : DecidablePred (Result.AtEof (P := P)) :=
  fun r => inferInstanceAs (Decidable (0 < r.size ∧ r.bytes = []))

/-- The processes asleep in `consoleread`, and the history: the returns of `consoleread`, the bytes
copied to readers in the order in which they were taken, and how many bytes have been taken. -/
structure Readers (P : Type) where
  asleep : P → Option Reader
  results : List (Result P)
  delivered : List UInt8
  taken : ℕ

namespace Readers

variable {P : Type}

def empty : Readers P := ⟨fun _ => none, [], [], 0⟩

variable [DecidableEq P]

def record (io : Readers P) (p : P) (rd : Reader) (o : ReadOut) (m : ℕ) : Readers P :=
  match o with
  | .sleeps k got => { io with
      asleep := Function.update io.asleep p (some ⟨rd.target, k, got⟩)
      delivered := io.delivered ++ got.drop rd.got.length
      taken := io.taken + m }
  | .returns got => { io with
      asleep := Function.update io.asleep p none
      results := io.results ++ [⟨p, rd.target, got, io.taken + m⟩]
      delivered := io.delivered ++ got.drop rd.got.length
      taken := io.taken + m }

end Readers

/-- A character arrives, a process calls `consoleread`, or one that sleeps in it goes on. -/
inductive Act (P : Type) where
  | key (c : UInt8)
  | call (p : P) (n : ℤ)
  | wake (p : P)

structure System (P : Type) where
  input : Input
  io : Readers P

namespace System

variable {P : Type}

def init (buf : Fin INPUT_BUF → UInt8) : System P := ⟨⟨buf, 0, 0, 0⟩, .empty⟩

variable [DecidableEq P]

def read (s : System P) (p : P) (rd : Reader) : System P :=
  let o := readLoop rd.target rd.k s.input rd.got
  ⟨o.2, s.io.record p rd o.1 (o.2.r - s.input.r).toNat⟩

def step (s : System P) : Act P → Option (System P)
  | .key c => some { s with input := s.input.consoleintr c }
  | .call p n => if (s.io.asleep p).isNone then some (s.read p ⟨n.toNat, n.toNat, []⟩) else none
  | .wake p => (s.io.asleep p).map (s.read p)

def Alone (s : System P) : Act P → Prop
  | .call _ _ => ∀ q, s.io.asleep q = none
  | _ => True

end System

/-! ### What the console is for -/

/-- The input as lines: what has been committed, the line that can still be edited, and the readers. -/
structure Tty (P : Type) where
  committed : List UInt8
  line : List UInt8
  io : Readers P

namespace Tty

/-- The bytes that a read of `k` bytes copies: up to a newline, and not past a ^D. -/
def chunk : ℕ → List UInt8 → List UInt8
  | 0, _ => []
  | _ + 1, [] => []
  | k + 1, c :: q => if c = ctrlD then [] else if c = newline then [c] else c :: chunk k q

/-- Where a read with `k` bytes to go stops, and how much it takes. A ^D is taken by the read that has
no bytes. -/
def take (k : ℕ) (q got : List UInt8) : ReadOut × ℕ :=
  let bytes := chunk k q
  if bytes.length = k ∨ bytes.getLast? = some newline then (.returns (got ++ bytes), bytes.length)
  else if bytes.length = q.length then (.sleeps (k - bytes.length) (got ++ bytes), bytes.length)
  else (.returns (got ++ bytes), if got ++ bytes = [] then 1 else bytes.length)

def data (l : List UInt8) : List UInt8 := l.filter (· ≠ ctrlD)

variable {P : Type}

def empty : Tty P := ⟨[], [], .empty⟩

def queue (t : Tty P) : List UInt8 := t.committed.drop t.io.taken

def held (t : Tty P) : ℕ := t.queue.length + t.line.length

/-- Backspace and kill line work on the line. A character that finds the buffer full is dropped, and a
line is committed at a newline, at ^D, or when it fills the buffer. -/
def key (t : Tty P) (c : UInt8) : Tty P :=
  if c = ctrlP ∨ c = 0 then t
  else if c = ctrlU then { t with line := [] }
  else if c = ctrlH ∨ c = del then { t with line := t.line.dropLast }
  else if t.held < INPUT_BUF then
    let c := if c = cr then newline else c
    let line := t.line ++ [c]
    if c = newline ∨ c = ctrlD ∨ t.held + 1 = INPUT_BUF then
      { t with committed := t.committed ++ line, line := [] }
    else { t with line := line }
  else t

variable [DecidableEq P]

def read (t : Tty P) (p : P) (rd : Reader) : Tty P :=
  let o := take rd.k t.queue rd.got
  { t with io := t.io.record p rd o.1 o.2 }

def step (t : Tty P) : Act P → Option (Tty P)
  | .key c => some (t.key c)
  | .call p n => if (t.io.asleep p).isNone then some (t.read p ⟨n.toNat, n.toNat, []⟩) else none
  | .wake p => (t.io.asleep p).map (t.read p)

end Tty

end Xv6.Console
