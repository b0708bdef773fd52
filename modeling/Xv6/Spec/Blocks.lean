import Xv6.Lib.Exec
import Xv6.Spec.Syscall

/-! Inodes stored in disk blocks, as in `fs.c`, run by one process at a time: the block
allocator, `bmap` and the contents of inodes. `blocks b` is what `bread(dev, b)` returns,
so a change to a buffer is a change to `blocks`. -/

namespace Xv6

structure Store where
  sb : Superblock
  blocks : ℕ → Block
  icache : Ptr → Inode

def Store.dinode (t : Store) (inum : ℕ) : Dinode :=
  Dinode.decode (t.blocks (IBLOCK inum t.sb)) (inodeOff inum)

/-- `brackets` and `granted` are history: for every `begin_op`, newest first, the blocks
passed to `log_write` in its bracket; and the blocks returned by `balloc`, each with the
state it was allocated in. -/
structure Fs extends Store where
  log : Log
  brackets : List (List ℕ)
  granted : List (ℕ × Store)
  ftable : Fin NFILE → File
  ofile : Fin NOFILE → Option (Fin NFILE)
  cwd : Option Ptr
  devsw : Fin NDEV → Devsw
  isInit : Bool

abbrev FsM := Exec Fs Stop

namespace Fs

def panic {α : Type} (p : Panic) : FsM α := Exec.halt (.panic p)

/-! Buffers and the log. -/

def bread (b : ℕ) : FsM Block := do
  let s ← Exec.get
  return s.blocks b

def bstore (b : ℕ) (data : Block) : FsM Unit :=
  Exec.modify fun s => { s with blocks := Function.update s.blocks b data }

def record (b : ℕ) : List (List ℕ) → List (List ℕ)
  | [] => []
  | l :: ls => (b :: l) :: ls

def logWrite (b : ℕ) : FsM Unit := fun s =>
  match s.log.logWrite b with
  | .ok log => .ok () { s with log := log, brackets := record b s.brackets }
  | .error e => .halt (.panic (.log e)) s

def beginOp : FsM Unit := fun s =>
  match s.log.beginOp with
  | some log => .ok () { s with log := log, brackets := [] :: s.brackets }
  | none => .halt .sleep s

/-- With its `commit`, which leaves the log empty and `committing` clear. -/
def endOp : FsM Unit := fun s =>
  match s.log.endOp with
  | .ok (log, true) => .ok () { s with log := { log with lh := [], committing := false } }
  | .ok (log, false) => .ok () { s with log := log }
  | .error e => .halt (.panic (.log e)) s

/-! Blocks. -/

def bzero (b : ℕ) : FsM Unit := do
  bstore b Buffer.zero
  logWrite b

/-- The inner loop of `balloc` over the map block of `b`. -/
def firstFree (size b : ℕ) (bp : Block) : Option ℕ :=
  (List.range BPB).find? fun bi => b + bi < size && bitClear bp bi

/-- Mark block `b + bi` in use, whose bit is bit `bi` of the map block `bp` of `b`, and
zero it. -/
def ballocAt (sb : Superblock) (b : ℕ) (bp : Block) (bi : ℕ) : FsM ℕ := do
  bstore (BBLOCK b sb) (setBit bp bi)
  logWrite (BBLOCK b sb)
  bzero (b + bi)
  return b + bi

/-- The outer loop of `balloc`, over the remaining values of `b`. -/
def ballocFrom (sb : Superblock) : List ℕ → FsM ℕ
  | [] => panic .ballocOutOfBlocks
  | b :: bs => do
    let bp ← bread (BBLOCK b sb)
    (firstFree sb.size b bp).elim (ballocFrom sb bs) (ballocAt sb b bp)

def balloc : FsM ℕ := do
  let s ← Exec.get
  let b ← ballocFrom s.sb ((List.range ((s.sb.size + BPB - 1) / BPB)).map (· * BPB))
  Exec.modify fun s' => { s' with granted := (b, s.toStore) :: s'.granted }
  return b

def bfree (b : ℕ) : FsM Unit := do
  let s ← Exec.get
  let bp ← bread (BBLOCK b s.sb)
  if bitClear bp (b % BPB) then panic .freeingFreeBlock
  else do
    bstore (BBLOCK b s.sb) (clearBit bp (b % BPB))
    logWrite (BBLOCK b s.sb)

/-! Inodes. -/

def inode (ip : Ptr) : FsM Inode := do
  let s ← Exec.get
  return s.icache ip

def setInode (ip : Ptr) (n : Inode) : FsM Unit :=
  Exec.modify fun s => { s with icache := Function.update s.icache ip n }

def setAddr (ip : Ptr) (k b : ℕ) : FsM Unit := do
  let n ← inode ip
  setInode ip { n with d := n.d.setAddr k b }

def setDinode (inum : ℕ) (d : Dinode) : FsM Unit := do
  let s ← Exec.get
  let bp ← bread (IBLOCK inum s.sb)
  bstore (IBLOCK inum s.sb) (bp.patch (inodeOff inum) d.encode)
  logWrite (IBLOCK inum s.sb)

/-- Alone on the machine, a process that finds the lock taken sleeps forever. -/
def acquiresleep (ip : Ptr) : FsM Unit := do
  let n ← inode ip
  if n.lock.isSome then Exec.halt .sleep
  else setInode ip { n with lock := some 0 }

def releasesleep (ip : Ptr) : FsM Unit := do
  let n ← inode ip
  setInode ip { n with lock := none }

/-! Inode content. -/

def bmapAddr (ip : Ptr) (k : ℕ) : FsM ℕ := do
  let n ← inode ip
  if n.d.addr k = 0 then do
    let addr ← balloc
    setAddr ip k addr
    return addr
  else return n.d.addr k

/-- Return the disk block address of the nth block in inode `ip`, allocating one if there
is no such block. -/
def bmap (ip : Ptr) (bn : ℕ) : FsM ℕ :=
  if bn < NDIRECT then bmapAddr ip bn
  else if bn - NDIRECT < NINDIRECT then do
    -- load indirect block, allocating if necessary
    let ind ← bmapAddr ip NDIRECT
    let a ← bread ind
    if a.word 4 (4 * (bn - NDIRECT)) = 0 then do
      let addr ← balloc
      let a ← bread ind
      bstore ind (a.setWord 4 (4 * (bn - NDIRECT)) addr)
      logWrite ind
      return addr
    else return a.word 4 (4 * (bn - NDIRECT))
  else panic .bmapOutOfRange

/-- The loop of `itrunc` over the direct blocks. -/
def truncDirect (ip : Ptr) : List ℕ → FsM Unit
  | [] => return ()
  | i :: is => do
    let n ← inode ip
    if n.d.addr i = 0 then truncDirect ip is
    else do
      bfree (n.d.addr i)
      setAddr ip i 0
      truncDirect ip is

/-- The loop of `itrunc` over the entries of the indirect block `a`. -/
def truncIndirect (a : Block) : List ℕ → FsM Unit
  | [] => return ()
  | j :: js =>
    if a.word 4 (4 * j) = 0 then truncIndirect a js
    else do
      bfree (a.word 4 (4 * j))
      truncIndirect a js

def truncBlocks (ip : Ptr) : FsM Unit := do
  truncDirect ip (List.range NDIRECT)
  let n ← inode ip
  if n.d.addr NDIRECT = 0 then return ()
  else do
    let a ← bread (n.d.addr NDIRECT)
    truncIndirect a (List.range NINDIRECT)
    bfree (n.d.addr NDIRECT)
    setAddr ip NDIRECT 0

/-- The loop of `readi`; each round stays inside one block. -/
def readFrom (ip : Ptr) (off n : ℕ) : FsM (List UInt8) :=
  if n = 0 then return []
  else do
    let b ← bmap ip (off / BSIZE)
    let bp ← bread b
    let m := min n (BSIZE - off % BSIZE)
    let rest ← readFrom ip (off + m) (n - m)
    return bp.slice (off % BSIZE) m ++ rest
termination_by n
decreasing_by
  have : off % BSIZE < BSIZE := Nat.mod_lt _ (by decide)
  omega

/-- The loop of `writei`; returns the final `off`. -/
def writeFrom (ip : Ptr) (off : ℕ) (src : List UInt8) : FsM ℕ :=
  if src.length = 0 then return off
  else do
    let b ← bmap ip (off / BSIZE)
    let bp ← bread b
    let m := min src.length (BSIZE - off % BSIZE)
    bstore b (bp.patch (off % BSIZE) (src.take m))
    logWrite b
    writeFrom ip (off + m) (src.drop m)
termination_by src.length
decreasing_by
  have : off % BSIZE < BSIZE := Nat.mod_lt _ (by decide)
  simp only [List.length_drop]
  omega

def setFile (f : Fin NFILE) (file : File) : FsM Unit :=
  Exec.modify fun s => { s with ftable := Function.update s.ftable f file }

def setOfile (fd : Fin NOFILE) (f : Option (Fin NFILE)) : FsM Unit :=
  Exec.modify fun s => { s with ofile := Function.update s.ofile fd f }

def ops : FsOps FsM where
  panic := panic
  note _ _ := pure ()
  beginOp := beginOp
  endOp := endOp
  acquiresleep := acquiresleep
  releasesleep := releasesleep
  holdingsleep ip := do
    let n ← inode ip
    return n.lock == some 0
  icache := do
    let s ← Exec.get
    return s.icache
  setInode := setInode
  ninodes := do
    let s ← Exec.get
    return s.sb.ninodes
  dinode inum := do
    let s ← Exec.get
    return s.dinode inum
  setDinode := setDinode
  truncBlocks := truncBlocks
  readFrom := readFrom
  writeFrom := writeFrom
  devsw := do
    let s ← Exec.get
    return s.devsw
  ftable := do
    let s ← Exec.get
    return s.ftable
  setFile := setFile
  ofile := do
    let s ← Exec.get
    return s.ofile
  setOfile := setOfile
  cwd := do
    let s ← Exec.get
    return s.cwd
  setCwd ip := Exec.modify fun s => { s with cwd := ip }
  isInit := do
    let s ← Exec.get
    return s.isInit

end Fs

end Xv6
