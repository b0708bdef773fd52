import Xv6.Lib.LinkList
import Xv6.Spec.Bio

/-! The disk driver `ide.c` under the buffer cache of `bio.c`: `iderw`, `idestart` and `ideintr`, the
controller they talk to, and any number of processes that read, change and write buffers. A step is
what happens between two points where a lock is released or waited for. -/

namespace Xv6

def SECTORSIZE : ℕ := 512

def IDE_BSY : UInt8 := 0x80
def IDE_DRDY : UInt8 := 0x40
def IDE_DF : UInt8 := 0x20
def IDE_ERR : UInt8 := 0x01

/-- One round of `idewait` on the status `r`, and its result when that ends the loop. -/
def idewait (checkerr : Bool) (r : UInt8) : Option ℤ :=
  if r &&& (IDE_BSY ||| IDE_DRDY) ≠ IDE_DRDY then none
  else if checkerr && r &&& (IDE_DF ||| IDE_ERR) != 0 then some (-1)
  else some 0

/-! ### The controller -/

/-- What `idestart` writes to the ports `0x1f2` to `0x1f7`, and to `0x1f0` for a write command. -/
structure IdeCommand where
  count : UInt8
  lba0 : UInt8
  lba1 : UInt8
  lba2 : UInt8
  drive : UInt8
  out : Option Block
deriving DecidableEq

def IdeCommand.unit (c : IdeCommand) : ℕ := c.drive.toNat / 16 % 2

def IdeCommand.lba (c : IdeCommand) : ℕ :=
  c.lba0.toNat + c.lba1.toNat * 2 ^ 8 + c.lba2.toNat * 2 ^ 16 + c.drive.toNat % 16 * 2 ^ 24

inductive IdeCtrl where
  | idle
  /-- a command has been started -/
  | busy (c : IdeCommand)
  /-- it has ended and the interrupt is raised; `sector` is what `insl` would read -/
  | done (c : IdeCommand) (status : UInt8) (sector : Block)
deriving DecidableEq

/-! ### The system -/

inductive IdeCaller where
  | bread
  | bwrite
deriving DecidableEq, Repr

inductive IdePc where
  /-- between two calls -/
  | out
  /-- in `bget`, before `acquiresleep` -/
  | locking (i : Fin NBUF)
  /-- in `iderw`, before `acquire(&idelock)` -/
  | entering (i : Fin NBUF) (c : IdeCaller)
  /-- in the loop of `iderw`; its request was the `n`-th to be appended -/
  | waiting (i : Fin NBUF) (n : ℕ) (c : IdeCaller)
  /-- in `brelse`, before `acquire(&bcache.lock)` -/
  | releasing (i : Fin NBUF)
deriving DecidableEq, Repr

inductive BioOp (P : Type) where
  /-- the part of `bget` under `bcache.lock` -/
  | bget (p : P) (dev blockno : ℕ)
  | lock (p : P) (i : Fin NBUF)
  | unlock (i : Fin NBUF)
  | memmove (i : Fin NBUF) (data : Block)
  /-- `b->flags |= B_DIRTY` -/
  | mark (i : Fin NBUF)
  /-- the part of `brelse` under `bcache.lock` -/
  | unref (p : P) (i : Fin NBUF)
  /-- `iderw` of `memide.c`, called by the process that holds the lock -/
  | iderw (i : Fin NBUF)

/-- A return of `bread`: the buffer, its data, whether a read request has made it valid and nobody
has changed or written it since, and the bytes of its block. -/
structure BreadReturn where
  buf : Fin NBUF
  data : Block
  fromRead : Bool
  onDisk : Block

/-- The buffer cache, whose own disk is not used, and the driver. `cell none` is `idequeue` and
`cell (some i)` is `qnext` of buffer `i`. The last six fields are history: the buffers in the order
in which they were appended, started and completed, the operations on the cache, with a request as
one `iderw` at the time it completes, whether a buffer's data are those a read request gave it, and
the returns of `bread`. -/
structure Ide (P : Type) where
  bio : Bio P
  cell : Option (Fin NBUF) → Option (Fin NBUF)
  ctrl : IdeCtrl
  disks : ℕ → ℕ → Block
  havedisk1 : Bool
  pc : P → IdePc
  appended : List (Fin NBUF)
  started : List (Fin NBUF)
  completed : List (Fin NBUF)
  ops : List (BioOp P)
  fromRead : Fin NBUF → Bool
  returned : List BreadReturn

inductive IdeAct (P : Type) where
  | bread (p : P) (dev blockno : ℕ)
  /-- `acquiresleep` at the end of `bget`, and the test of `bread` -/
  | lock (p : P)
  | memmove (p : P) (i : Fin NBUF) (data : Block)
  | logWrite (p : P) (i : Fin NBUF)
  | bwrite (p : P) (i : Fin NBUF)
  | brelse (p : P) (i : Fin NBUF)
  | unref (p : P)
  /-- the part of `iderw` up to the first `sleep` -/
  | append (p : P)
  /-- the end of `iderw`, once the request is done -/
  | finish (p : P)
  /-- the controller ends its command with `status`; a write that failed leaves `junk` -/
  | complete (status : UInt8) (junk : Block)
  /-- `ideintr` -/
  | intr

def Bio.obtain {P : Type} (s : Bio P) (p : P) (dev blockno : ℕ) : Option (Fin NBUF × Bio P) :=
  match s.cached dev blockno with
  | some i => some (i, s.ref p i)
  | none => s.unused.map fun i => (i, s.recycle p i dev blockno)

def BioOp.run {P : Type} [DecidableEq P] : BioOp P → Bio P → Option (Bio P)
  | .bget p dev blockno, s => (s.obtain p dev blockno).map Prod.snd
  | .lock p i, s => some (s.setBuf i { s.buf i with lock := some p })
  | .unlock i, s => some (s.setBuf i { s.buf i with lock := none })
  | .memmove i data, s => some (s.setBuf i { s.buf i with data := data })
  | .mark i, s => some (s.setBuf i { s.buf i with dirty := true })
  | .unref p i, s => some (s.unref p i)
  | .iderw i, s => (s.buf i).lock.bind fun p =>
    match Bio.iderw p i s with
    | .ok _ s' => some s'
    | _ => none

/-- Run the operations one after the other, each `iderw` being that of `memide.c`. -/
def BioOp.replay {P : Type} [DecidableEq P] (ops : List (BioOp P)) (s : Bio P) : Option (Bio P) :=
  ops.foldlM (fun s op => op.run s) s

namespace Ide

variable {P : Type}

def init (disks : ℕ → ℕ → Block) (disksize : ℕ) (havedisk1 : Bool) : Ide P where
  bio := Bio.binit 0 0 disksize (disks 1)
  cell := fun _ => none
  ctrl := .idle
  disks := disks
  havedisk1 := havedisk1
  pc := fun _ => .out
  appended := []
  started := []
  completed := []
  ops := []
  fromRead := fun _ => false
  returned := []

def follow (cell : Option (Fin NBUF) → Option (Fin NBUF)) : ℕ → Option (Fin NBUF) → List (Fin NBUF)
  | 0, _ => []
  | _ + 1, none => []
  | k + 1, some i => i :: follow cell k (cell (some i))

def queue (s : Ide P) : List (Fin NBUF) := follow s.cell NBUF (s.cell none)

/-! ### `ide.c` -/

def command (b : Buf P) : IdeCommand :=
  let sectorPerBlock := BSIZE / SECTORSIZE
  let sector := b.blockno * sectorPerBlock
  { count := UInt8.ofNat sectorPerBlock
    lba0 := UInt8.ofNat (sector &&& 0xff)
    lba1 := UInt8.ofNat ((sector >>> 8) &&& 0xff)
    lba2 := UInt8.ofNat ((sector >>> 16) &&& 0xff)
    drive := UInt8.ofNat (0xe0 ||| ((b.dev &&& 1) <<< 4) ||| ((sector >>> 24) &&& 0x0f))
    out := if b.dirty then some b.data else none }

def idestart (s : Ide P) (i : Fin NBUF) : Option (Ide P) :=
  if (s.bio.buf i).blockno ≥ FSSIZE then none
  else some { s with ctrl := .busy (command (s.bio.buf i)), started := s.started ++ [i] }

def ideintr (s : Ide P) : Option (Ide P) :=
  match s.ctrl with
  | .done _ status sector =>
    match s.cell none with
    | none => some { s with ctrl := .idle }
    | some i =>
      let b := s.bio.buf i
      let data := if !b.dirty && (idewait true status).any (0 ≤ ·) then sector else b.data
      let s := { s with
        ctrl := .idle
        cell := Function.update s.cell none (s.cell (some i))
        bio := s.bio.setBuf i { b with data := data, valid := true, dirty := false }
        completed := s.completed ++ [i]
        ops := s.ops ++ [.iderw i]
        fromRead := Function.update s.fromRead i !b.dirty }
      match s.cell none with
      | none => some s
      | some j => s.idestart j
  | _ => none

def controller (s : Ide P) (status : UInt8) (junk : Block) : Option (Ide P) :=
  match s.ctrl with
  | .busy c =>
    if idewait false status = none then none
    else match c.out with
      | some data =>
        let stored := if idewait true status = some 0 then data else junk
        some { s with
          disks := Function.update s.disks c.unit (Function.update (s.disks c.unit) c.lba stored)
          ctrl := .done c status junk }
      | none => some { s with ctrl := .done c status (s.disks c.unit c.lba) }
  | _ => none

variable [DecidableEq P]

def goto (s : Ide P) (p : P) (pc : IdePc) : Ide P := { s with pc := Function.update s.pc p pc }

/-- `iderw` up to `acquire(&idelock)`. The panics are "buf not locked", "nothing to do" and "ide disk
1 not present". -/
def enter (s : Ide P) (p : P) (i : Fin NBUF) (c : IdeCaller) : Option (Ide P) :=
  let b := s.bio.buf i
  if b.lock ≠ some p then none
  else if b.valid && !b.dirty then none
  else if b.dev ≠ 0 && !s.havedisk1 then none
  else some (s.goto p (.entering i c))

/-- Append the buffer to `idequeue`, start the disk if necessary, and sleep. -/
def append (s : Ide P) (p : P) (i : Fin NBUF) (c : IdeCaller) : Option (Ide P) :=
  let cell := Function.update s.cell (some i) none
  (LinkList.walk cell (fun pp => (cell pp).isNone) (NBUF + 1) none).bind fun pp =>
    let t : Ide P := { s.goto p (.waiting i s.appended.length c) with
      cell := Function.update cell pp (some i)
      appended := s.appended ++ [i] }
    if t.cell none = some i then t.idestart i else some t

/-! ### `bio.c` -/

def apply (s : Ide P) (op : BioOp P) : Option (Ide P) :=
  (op.run s.bio).map fun bio => { s with bio := bio, ops := s.ops ++ [op] }

def taint (s : Ide P) (i : Fin NBUF) : Ide P :=
  { s with fromRead := Function.update s.fromRead i false }

def note (s : Ide P) (i : Fin NBUF) : Ide P :=
  let b := s.bio.buf i
  { s with returned := s.returned ++ [⟨i, b.data, s.fromRead i, s.disks (b.dev % 2) b.blockno⟩] }

def Holds (s : Ide P) (p : P) (i : Fin NBUF) : Prop :=
  s.pc p = .out ∧ (s.bio.buf i).lock = some p

instance (s : Ide P) (p : P) (i : Fin NBUF) : Decidable (s.Holds p i) :=
  inferInstanceAs (Decidable (s.pc p = .out ∧ (s.bio.buf i).lock = some p))

def step (s : Ide P) : IdeAct P → Option (Ide P)
  | .bread p dev blockno =>
    if s.pc p = .out then do
      let r ← s.bio.obtain p dev blockno
      let t ← s.apply (.bget p dev blockno)
      -- a buffer that is given to another block is not valid
      let t := if (t.bio.buf r.1).valid then t else t.taint r.1
      return t.goto p (.locking r.1)
    else none
  | .lock p =>
    match s.pc p with
    | .locking i =>
      if (s.bio.buf i).lock = none then do
        let t ← s.apply (.lock p i)
        if (t.bio.buf i).valid then return (t.note i).goto p .out else t.enter p i .bread
      else none
    | _ => none
  | .memmove p i data =>
    if s.Holds p i then (s.apply (.memmove i data)).map (·.taint i) else none
  | .logWrite p i => if s.Holds p i then (s.apply (.mark i)).map (·.taint i) else none
  | .bwrite p i =>
    if s.Holds p i then do
      let t ← s.apply (.mark i)
      (t.taint i).enter p i .bwrite
    else none
  | .brelse p i => if s.Holds p i then (s.apply (.unlock i)).map (·.goto p (.releasing i)) else none
  | .unref p =>
    match s.pc p with
    | .releasing i => (s.apply (.unref p i)).map (·.goto p .out)
    | _ => none
  | .append p =>
    match s.pc p with
    | .entering i c => s.append p i c
    | _ => none
  | .finish p =>
    match s.pc p with
    | .waiting i _ c =>
      let b := s.bio.buf i
      if b.valid && !b.dirty then
        some ((if c = .bread then s.note i else s).goto p .out)
      else none
    | _ => none
  | .complete status junk => s.controller status junk
  | .intr => s.ideintr

def NoError (_ : Ide P) : IdeAct P → Prop
  | .complete status _ => idewait true status = some 0
  | _ => True

instance (s : Ide P) : DecidablePred s.NoError
  | .complete status _ => inferInstanceAs (Decidable (idewait true status = some 0))
  | .bread .. => isTrue trivial
  | .lock _ => isTrue trivial
  | .memmove .. => isTrue trivial
  | .logWrite .. => isTrue trivial
  | .bwrite .. => isTrue trivial
  | .brelse .. => isTrue trivial
  | .unref _ => isTrue trivial
  | .append _ => isTrue trivial
  | .finish _ => isTrue trivial
  | .intr => isTrue trivial

def ReadsSucceed (s : Ide P) : IdeAct P → Prop
  | .complete status _ => ∀ c, s.ctrl = .busy c → c.out = none → idewait true status = some 0
  | _ => True

def OnRoot (_ : Ide P) : IdeAct P → Prop
  | .bread _ dev _ => dev = ROOTDEV
  | _ => True

end Ide

end Xv6
