import Xv6.Lib.Exec
import Xv6.Spec.Split

/-! `split.c` with its arrays: `main`, `split` and `nextSuffix` as they read and write memory. By the
rules of C a read past the end of an array, or of a byte that has not been written, stops the program
with a fault, and so does a write past the end and a read of `argv` at `argc` or later. On a machine the
program reads what the stack holds there. -/

namespace Xv6.Split

inductive Arr where
  | suffix
  | buf
  | pre
  | path
deriving DecidableEq, Repr

inductive Fault where
  | argv (i : ℕ)
  | read (arr : Arr) (i : ℕ)
  | write (arr : Arr) (i : ℕ)
  /-- the pointer 1, when `strchr` finds nothing in `nextSuffix` -/
  | wild
deriving DecidableEq, Repr

inductive Halt where
  | fault (f : Fault)
  | exit
deriving DecidableEq, Repr

/-- What `open` and `fstat` say of a path, and the results of the calls of `read`. -/
inductive Input where
  | cannotOpen
  | cannotStat
  | notFile
  | file (bufs : List (List UInt8))
deriving DecidableEq, Repr

/-- The arrays, a cell that has not been written being `none`; the command line, the files, and the
system calls made for the parts. -/
structure Mem where
  cells : Arr → List (Option UInt8)
  argv : List Str
  input : Str → Input
  trace : List Sys

def Mem.put (s : Mem) (r : Arr) (cells : List (Option UInt8)) : Mem :=
  { s with cells := fun r' => if r' = r then cells else s.cells r' }

abbrev M := Exec Mem Halt

def fault {α : Type} (f : Fault) : M α := Exec.halt (.fault f)

def load (r : Arr) (i : ℕ) : M UInt8 := do
  let s ← Exec.get
  match (s.cells r)[i]? with
  | some (some c) => return c
  | _ => fault (.read r i)

def store (r : Arr) (i : ℕ) (c : UInt8) : M Unit := do
  let s ← Exec.get
  if i < (s.cells r).length then
    Exec.modify fun s => s.put r ((s.cells r).set i (some c))
  else fault (.write r i)

def argvAt (argv : List Str) (i : ℕ) : Except Halt Str :=
  match argv[i]? with
  | some arg => .ok arg
  | none => .error (.fault (.argv i))

def call (c : Sys) : M Unit := Exec.modify fun s => { s with trace := s.trace ++ [c] }

/-- A new array: the bytes it has not written, and those after it that can be read. -/
@[irreducible] def alloc (r : Arr) (cells : List (Option UInt8)) : M Unit :=
  Exec.modify fun s => s.put r cells

/-! The functions of `ulib.c`. -/

/-- `strlen(r + off)`, from the byte number `n` on, for at most `k` bytes. -/
def strlenFrom (r : Arr) (off : ℕ) : ℕ → ℕ → M ℕ
  | 0, n => return n
  | k + 1, n => do
    let c ← load r (off + n)
    if c = 0 then return n else strlenFrom r off k (n + 1)

/-- The bound on the number of rounds is never reached: there is a fault before. -/
def strlenAt (r : Arr) (off : ℕ) : M ℕ := do
  let s ← Exec.get
  strlenFrom r off ((s.cells r).length + 1) 0

def strchrFrom (r : Arr) (c : UInt8) : ℕ → ℕ → M (Option ℕ)
  | 0, _ => return none
  | k + 1, i => do
    let x ← load r i
    if x = 0 then return none
    else if x = c then return some i
    else strchrFrom r c k (i + 1)

def strchrAt (r : Arr) (off : ℕ) (c : UInt8) : M (Option ℕ) := do
  let s ← Exec.get
  strchrFrom r c ((s.cells r).length + 1) off

def strcpyStr (dst : Arr) : ℕ → Str → M Unit
  | i, [] => store dst i 0
  | i, c :: s => do
    store dst i c
    strcpyStr dst (i + 1) s

def strcpyFrom (dst src : Arr) : ℕ → ℕ → ℕ → M Unit
  | 0, _, _ => return ()
  | k + 1, i, j => do
    let c ← load src j
    store dst i c
    if c = 0 then return () else strcpyFrom dst src k (i + 1) (j + 1)

def strcpyArr (dst src : Arr) (i : ℕ) : M Unit := do
  let s ← Exec.get
  strcpyFrom dst src ((s.cells src).length + 1) i 0

def memsetFrom (r : Arr) (c : UInt8) : ℕ → ℕ → M Unit
  | 0, _ => return ()
  | n + 1, i => do
    store r i c
    memsetFrom r c n (i + 1)

def storeAll (r : Arr) : ℕ → List UInt8 → M Unit
  | _, [] => return ()
  | i, c :: cs => do
    store r i c
    storeAll r (i + 1) cs

def loadAll (r : Arr) : ℕ → ℕ → M (List UInt8)
  | _, 0 => return []
  | i, n + 1 => do
    let c ← load r i
    let cs ← loadAll r (i + 1) n
    return c :: cs

def loadPath : M Str := do
  let n ← strlenAt .path 0
  loadAll .path 0 n

/-! `split.c`. -/

/-- The loop of `nextSuffix` over the positions below `i`, from the last one on. -/
def nextSuffixFrom (text : Option UInt8) : ℕ → Bool → M Bool
  | 0, carrier => return carrier
  | i + 1, carrier =>
    if carrier then do
      let c ← load .suffix i
      match letters.findIdx? (· == c) with
      | none =>
        match text with
        | none => fault .wild
        | some c => do
          store .suffix i c
          nextSuffixFrom text i false
      | some k =>
        if k + 1 = letters.length then do
          store .suffix i (letters.getD 0 0)
          nextSuffixFrom text i true
        else do
          store .suffix i (letters.getD (k + 1) 0)
          nextSuffixFrom text i false
    else nextSuffixFrom text i false

def nextSuffixM (text : Option UInt8) : M Bool := do
  let n ← strlenAt .suffix 0
  nextSuffixFrom text n true

def openPartM : M Unit := do
  let n ← strlenAt .pre 0
  strcpyArr .path .suffix n
  let path ← loadPath
  call (.openPart path)

def countLineM (text : Option UInt8) (maxLine : ℤ) (numLine : ℕ) : M ℕ :=
  if (numLine + 1 : ℤ) = maxLine then do
    call .close
    let carrier ← nextSuffixM text
    if carrier then Exec.halt .exit
    else do
      openPartM
      return 0
  else return numLine + 1

/-- The loop over the lines of a block, at most `k` of them, from `buf + pa` on; returns `pa` and
`num_line`. -/
def splitLinesM (text : Option UInt8) (maxLine : ℤ) : ℕ → ℕ → ℕ → M (ℕ × ℕ)
  | 0, pa, numLine => return (pa, numLine)
  | k + 1, pa, numLine => do
    let pb ← strchrAt .buf pa newline
    match pb with
    | none => return (pa, numLine)
    | some pb => do
      let bytes ← loadAll .buf pa (pb - pa + 1)
      call (.write bytes)
      let numLine ← countLineM text maxLine numLine
      splitLinesM text maxLine k (pb + 1) numLine

/-- The loop over the blocks. A block has at most 1024 lines. -/
def splitBlocksM (text : Option UInt8) (maxLine : ℤ) : List (List UInt8) → ℕ → M Unit
  | [], _ => return ()
  | bytes :: bufs, numLine => do
    storeAll .buf 0 bytes
    let r ← splitLinesM text maxLine 1025 0 numLine
    let n ← strlenAt .buf 0
    (if r.1 < n then do
        let len ← strlenAt .buf r.1
        let rest ← loadAll .buf r.1 len
        call (.write rest)
      else pure ())
    memsetFrom .buf 0 1024 0
    splitBlocksM text maxLine bufs r.2

def suffixCells (o : Option Stray) (size : ℕ) : List (Option UInt8) :=
  List.replicate size none ++ o.elim [] fun o => (o.after ++ [0]).map some

def bufCells (o : Option Stray) : List (Option UInt8) :=
  o.elim (List.replicate 1024 none) fun _ => List.replicate 1025 (some 0)

/-- `split(fd, max_line, max_suffix, prefix)`, by the rules of C or on a machine. The size of `suffix` is
`max_suffix`; a negative one leaves no room. -/
def splitM (o : Option Stray) (maxLine maxSuffix : ℤ) (bufs : List (List UInt8)) : M Unit := do
  alloc .suffix (suffixCells o maxSuffix.toNat)
  memsetFrom .suffix (letters.getD 0 0) maxSuffix.toNat 0
  alloc .path (List.replicate 1000 none)
  strcpyArr .path .pre 0
  openPartM
  alloc .buf (bufCells o)
  splitBlocksM (o.map Stray.text) maxLine bufs 0
  call .close

def checkInt (arg : Str) : Bool := arg.all fun c => 48 ≤ c && c ≤ 57

def atoi (s : Str) : BitVec 32 :=
  (s.takeWhile fun c => 48 ≤ c && c ≤ 57).foldl (fun n c => n * 10 + (c.toNat - 48 : ℕ)) 0

def optA : Str := [45, 97]

def optL : Str := [45, 108]

/-- What the options set: `max_line`, `max_suffix` and `pos`, where they end. -/
structure Options where
  maxLine : BitVec 32
  maxSuffix : BitVec 32
  pos : ℕ
deriving DecidableEq, Repr

/-- The loop over the options from `argv[i]` on, at most `k` of them. -/
def optionsFrom (argv : List Str) : ℕ → ℕ → Options → Except Halt Options
  | 0, _, o => .ok o
  | k + 1, i, o =>
    if i < argv.length then do
      let arg ← argvAt argv i
      if arg = optA ∨ arg = optL then
        if i + 1 ≥ argv.length then .error .exit
        else do
          let val ← argvAt argv (i + 1)
          if !checkInt val then .error .exit
          else if arg = optA then optionsFrom argv k (i + 2) { o with maxSuffix := atoi val }
          else optionsFrom argv k (i + 2) { o with maxLine := atoi val }
      else .ok { o with pos := i }
    else .ok o

def options (argv : List Str) : Except Halt Options :=
  optionsFrom argv argv.length 1 ⟨1000, 2, argv.length⟩

def lift {α : Type} : Except Halt α → M α
  | .ok a => return a
  | .error e => Exec.halt e

def setPrefix (argv : List Str) (pos : ℕ) : M Unit :=
  if pos + 1 < argv.length then do
    memsetFrom .pre 0 1000 0
    let arg ← lift (argvAt argv (pos + 1))
    strcpyStr .pre 0 arg
  else return ()

def main (o : Option Stray) : M Unit := do
  let s ← Exec.get
  alloc .pre (List.replicate 1000 none)
  strcpyStr .pre 0 [120]
  let opts ← lift (options s.argv)
  setPrefix s.argv opts.pos
  let path ← lift (argvAt s.argv opts.pos)
  match s.input path with
  | .cannotOpen => Exec.halt .exit
  | .cannotStat => Exec.halt .exit
  | .notFile => Exec.halt .exit
  | .file bufs => splitM o opts.maxLine.toInt opts.maxSuffix.toInt bufs

def stopped : Res Mem Halt Unit → Option Halt
  | .ok _ _ => none
  | .halt e _ => some e

def start (argv : List Str) (input : Str → Input) : Mem := ⟨fun _ => [], argv, input, []⟩

end Xv6.Split
