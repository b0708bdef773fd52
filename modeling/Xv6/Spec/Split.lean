import Xv6.Spec.Inode

/-! The command `split` of `split.c`, on strings: a buffer is what `read` stored in it, and a string in
memory ends at its first NUL. The array `suffix` has no room for a NUL, so the string goes on with what
the stack holds after it. The system calls `split` makes for its parts are a trace, and `Files` says
what they do. -/

namespace Xv6.Split

def letters : Str := (List.range 26).map fun i => UInt8.ofNat (97 + i)

def newline : UInt8 := 10

def cstring (s : List UInt8) : Str := s.takeWhile (· != 0)

def strlen (s : List UInt8) : ℕ := (cstring s).length

def strchr (s : List UInt8) (c : UInt8) : Option ℕ := (cstring s).findIdx? (· == c)

/-- What `split` finds outside its arrays: the bytes after `suffix`, and the byte at address 1. -/
structure Stray where
  after : List UInt8
  text : UInt8

/-- The body of the loop of `nextSuffix` for one character: the new carrier and the new character.
When `strchr` finds nothing, the cursor is the pointer 1. -/
def nextChar (text c : UInt8) : Bool × UInt8 :=
  match letters.findIdx? (· == c) with
  | none => (false, text)
  | some k =>
    if k + 1 = letters.length then (true, letters.getD 0 0) else (false, letters.getD (k + 1) 0)

/-- The loop of `nextSuffix`, from the last character to the first. -/
def nextChars (text : UInt8) : Str → Bool × Str
  | [] => (true, [])
  | c :: s =>
    let r := nextChars text s
    if r.1 then ((nextChar text c).1, (nextChar text c).2 :: r.2) else (false, c :: r.2)

def nextSuffix (text : UInt8) (suffix : List UInt8) : Bool × List UInt8 :=
  let r := nextChars text (cstring suffix)
  (r.1, r.2 ++ suffix.drop (strlen suffix))

/-- The system calls for the parts. Each `write` is to the part opened last. -/
inductive Sys where
  | openPart (path : Str)
  | write (bytes : List UInt8)
  | close
deriving DecidableEq, Repr

structure State where
  suffix : List UInt8
  numLine : ℕ
  trace : List Sys
deriving DecidableEq, Repr

def State.emit (st : State) (c : Sys) : State := { st with trace := st.trace ++ [c] }

/-- What follows the `write` of a line. The error is the exit with "not enough suffix". -/
def countLine (text : UInt8) (maxLine : ℤ) (pre : Str) (st : State) : Except State State :=
  if (st.numLine + 1 : ℤ) = maxLine then
    let st := { st with numLine := 0 }.emit .close
    let r := nextSuffix text st.suffix
    if r.1 then .error { st with suffix := r.2 }
    else .ok ({ st with suffix := r.2 }.emit (.openPart (pre ++ cstring r.2)))
  else .ok { st with numLine := st.numLine + 1 }

/-- The loop over the lines of a block, at most `k` of them; `pa` is the memory from `pa` on. Returns
where `pa` ends up. -/
def splitLines (text : UInt8) (maxLine : ℤ) (pre : Str) :
    ℕ → List UInt8 → State → Except State (List UInt8 × State)
  | 0, pa, st => .ok (pa, st)
  | k + 1, pa, st =>
    match strchr pa newline with
    | none => .ok (pa, st)
    | some pb => do
      let st ← countLine text maxLine pre (st.emit (.write (pa.take (pb + 1))))
      splitLines text maxLine pre k (pa.drop (pb + 1)) st

/-- One round of the loop over the blocks. -/
def splitBlock (text : UInt8) (maxLine : ℤ) (pre : Str) (buf : List UInt8) (st : State) :
    Except State State := do
  let r ← splitLines text maxLine pre (buf.length + 1) buf st
  -- `pa - buf < strlen(buf)`
  if buf.length - r.1.length < strlen buf then return r.2.emit (.write (cstring r.1))
  else return r.2

def splitBlocks (text : UInt8) (maxLine : ℤ) (pre : Str) :
    List (List UInt8) → State → Except State State
  | [], st => .ok st
  | buf :: bufs, st => do
    let st ← splitBlock text maxLine pre buf st
    splitBlocks text maxLine pre bufs st

def opened (o : Stray) (maxSuffix : ℕ) (pre : Str) : State :=
  let suffix := List.replicate maxSuffix (letters.getD 0 0) ++ o.after
  ⟨suffix, 0, [.openPart (pre ++ cstring suffix)]⟩

def split (o : Stray) (maxLine : ℤ) (maxSuffix : ℕ) (pre : Str) (bufs : List (List UInt8)) :
    Except State State := do
  let st ← splitBlocks o.text maxLine pre bufs (opened o maxSuffix pre)
  return st.emit .close

/-! The parts. -/

def addCall : List (Str × List UInt8) → Sys → List (Str × List UInt8)
  | ps, .openPart path => (path, []) :: ps
  | (path, bs) :: ps, .write bytes => (path, bs ++ bytes) :: ps
  | [], .write _ => []
  | ps, .close => ps

/-- The parts in the order they are opened: the path of each and the bytes written to it. -/
def parts (cs : List Sys) : List (Str × List UInt8) := (cs.foldl addCall []).reverse

/-- Regular files, under the path elements that name them, of at most `DIRSIZ` bytes each. -/
abbrev Dir := List Str → Option (List UInt8)

def fileKey (path : Str) : List Str := pathElems (path.length + 1) path

/-- The files, the paths that `open` with `O_CREATE` accepts, and the file that is open for writing with
the offset in it. -/
structure Files where
  dir : Dir
  opens : List Str → Bool
  fd : Option (List Str × ℕ)

/-- What a system call does to files: `open` with `O_CREATE` keeps the contents of a file that exists,
and `write` leaves what lies past the bytes written. After a failed `open` the descriptor is -1, and
nothing is written. -/
def Files.run (w : Files) : Sys → Files
  | .openPart path =>
    let key := fileKey path
    if w.opens key then
      { w with dir := Function.update w.dir key (some ((w.dir key).getD [])), fd := some (key, 0) }
    else { w with fd := none }
  | .write bytes =>
    match w.fd with
    | none => w
    | some (key, off) =>
      let old := (w.dir key).getD []
      { w with
        dir := Function.update w.dir key (some (old.take off ++ bytes ++ old.drop (off + bytes.length)))
        fd := some (key, off + bytes.length) }
  | .close => { w with fd := none }

def Files.runAll (w : Files) (cs : List Sys) : Files := cs.foldl Files.run w

def final : Except State State → State
  | .ok st => st
  | .error st => st

/-- The files of the parts, in the order they are first opened. Parts whose names agree in the bytes that
a directory keeps have one file. -/
def partFiles (cs : List Sys) : List (List Str) :=
  ((parts cs).map fun p => fileKey p.1).reverse.dedup.reverse

def concat (dir : Dir) (cs : List Sys) : List UInt8 := (partFiles cs).flatMap fun key => (dir key).getD []

def dropLines : ℕ → List UInt8 → List UInt8
  | 0, bs => bs
  | k + 1, bs => dropLines k (bs.dropWhile (· != newline)).tail

def takeLines : ℕ → List UInt8 → List UInt8
  | _, [] => []
  | 0, _ => []
  | k + 1, c :: bs => c :: takeLines (if c = newline then k else k + 1) bs

def group (m i : ℕ) (bs : List UInt8) : List UInt8 := takeLines m (dropLines (i * m) bs)

def suffixAt (o : Stray) (a i : ℕ) : List UInt8 :=
  (fun s => (nextSuffix o.text s).2)^[i] (List.replicate a (letters.getD 0 0) ++ o.after)

def partName (o : Stray) (pre : Str) (a i : ℕ) : Str := pre ++ cstring (suffixAt o a i)

def Enough (o : Stray) (a n : ℕ) : Prop := ∀ i < n, (nextSuffix o.text (suffixAt o a i)).1 = false

def nthSuffix : ℕ → ℕ → Str
  | 0, _ => []
  | a + 1, i => letters.getD (i / 26 ^ a) 0 :: nthSuffix a (i % 26 ^ a)

end Xv6.Split
