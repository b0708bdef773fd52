import Xv6.Spec.Disk
import Xv6.Spec.Log

/-! The inode layer of `fs.c`: the inode cache, directories and path names. It is written
once, over the operations that differ with how inodes and their contents are stored and
with who runs between two acquisitions of a lock. -/

namespace Xv6

abbrev Ptr := Fin NINODE

/-- In-memory copy of an inode. `lock` is the process that holds the sleep lock and `d`
the copy of the disk inode. -/
structure Inode where
  inum : ℕ
  ref : ℤ
  lock : Option ℕ
  valid : Bool
  d : Dinode
deriving DecidableEq, Repr

inductive FileType where
  | none
  | pipe
  | inode
deriving DecidableEq, Repr

structure File where
  type : FileType
  ref : ℤ
  readable : Bool
  writable : Bool
  ip : Ptr
  off : ℕ
deriving DecidableEq, Repr

structure Stat where
  dev : ℕ
  ino : ℕ
  type : Short
  nlink : Short
  size : BitVec 32
  mode : BitVec 32
deriving DecidableEq, Repr

/-- What a device does with the bytes: of a read the result and the bytes, of a write the result. -/
structure Devsw where
  read : Option (ℕ → ℤ × List UInt8)
  write : Option (List UInt8 → ℤ)

inductive Panic where
  | log (e : LogPanic)
  | ballocOutOfBlocks
  | freeingFreeBlock
  | iallocNoInodes
  | igetNoInodes
  | ilock
  | ilockNoType
  | iunlock
  | bmapOutOfRange
  | dirlookupNotDir
  | dirlookupRead
  | dirlinkRead
  | dirlink
  | isdiremptyReadi
  | unlinkNlink
  | unlinkWritei
  | createDots
  | createDirlink
  | filedup
  | fileclose
  | fileread
  | filewrite
  | shortFilewrite
  | initExiting
  /-- The trap of a null pointer used in the kernel. -/
  | trap
deriving DecidableEq, Repr

/-- Why a call does not return: it panics, or it sleeps and nobody is left to wake it. -/
inductive Stop where
  | panic (p : Panic)
  | sleep
deriving DecidableEq, Repr

/-- What a process does to an inode: the functions that mark their entry, and an assignment
to one of the fields that an inode has on disk. -/
inductive Access where
  | iput
  | iupdate
  | itrunc
  | stati
  | readi
  | writei
  | assign
deriving DecidableEq, Repr

/-- What the code above the storage of inodes is written over. `note` marks the entry of a
function and does nothing. `setDinode` includes the `log_write`; `truncBlocks` frees the blocks of an inode; `readFrom` and `writeFrom` are
the loops of `readi` and `writei`, the latter returning the final `off`. `cwd` and `ofile`
are those of the calling process. -/
structure FsOps (m : Type → Type) where
  panic {α : Type} (p : Panic) : m α
  note (a : Access) (ip : Ptr) : m Unit
  beginOp : m Unit
  endOp : m Unit
  acquiresleep (ip : Ptr) : m Unit
  releasesleep (ip : Ptr) : m Unit
  holdingsleep (ip : Ptr) : m Bool
  icache : m (Ptr → Inode)
  setInode (ip : Ptr) (n : Inode) : m Unit
  ninodes : m ℕ
  dinode (inum : ℕ) : m Dinode
  setDinode (inum : ℕ) (d : Dinode) : m Unit
  truncBlocks (ip : Ptr) : m Unit
  readFrom (ip : Ptr) (off n : ℕ) : m (List UInt8)
  writeFrom (ip : Ptr) (off : ℕ) (src : List UInt8) : m ℕ
  devsw : m (Fin NDEV → Devsw)
  ftable : m (Fin NFILE → File)
  setFile (f : Fin NFILE) (file : File) : m Unit
  ofile : m (Fin NOFILE → Option (Fin NFILE))
  setOfile (fd : Fin NOFILE) (f : Option (Fin NFILE)) : m Unit
  cwd : m (Option Ptr)
  setCwd (ip : Option Ptr) : m Unit
  isInit : m Bool

namespace FsOps

variable {m : Type → Type} [Monad m] (o : FsOps m)

def panicIf (c : Prop) [Decidable c] (p : Panic) : m Unit :=
  if c then o.panic p else pure ()

/-! Inodes. -/

def inode (ip : Ptr) : m Inode := do
  let c ← o.icache
  return c ip

def modifyInode (ip : Ptr) (f : Inode → Inode) : m Unit := do
  let n ← o.inode ip
  o.setInode ip (f n)

def iget (inum : ℕ) : m Ptr := do
  let c ← o.icache
  match (List.finRange NINODE).find? fun ip => 0 < (c ip).ref && (c ip).inum == inum with
  | some ip => do
    o.setInode ip { c ip with ref := (c ip).ref + 1 }
    return ip
  | none =>
    -- recycle an inode cache entry
    match (List.finRange NINODE).find? fun ip => (c ip).ref == 0 with
    | some ip => do
      o.setInode ip { c ip with inum := inum, ref := 1, valid := false }
      return ip
    | none => o.panic .igetNoInodes

/-- The loop of `ialloc` over the remaining inode numbers. -/
def iallocFrom (type : Short) : List ℕ → m Ptr
  | [] => o.panic .iallocNoInodes
  | inum :: inums => do
    let dip ← o.dinode inum
    if dip.type = 0 then do
      o.setDinode inum { Dinode.zero with type := type, mode := 493 }
      o.iget inum
    else iallocFrom type inums

def ialloc (type : Short) : m Ptr := do
  let n ← o.ninodes
  o.iallocFrom type (List.range' 1 (n - 1))

def iupdate (ip : Ptr) : m Unit := do
  o.note .iupdate ip
  let n ← o.inode ip
  o.setDinode n.inum n.d

def idup (ip : Ptr) : m Unit :=
  o.modifyInode ip fun n => { n with ref := n.ref + 1 }

def ilock (ip : Ptr) : m Unit := do
  let n ← o.inode ip
  o.panicIf (n.ref < 1) .ilock
  o.acquiresleep ip
  let n ← o.inode ip
  if n.valid then pure ()
  else do
    let d ← o.dinode n.inum
    o.setInode ip { n with d := d, valid := true }
    o.panicIf (d.type = 0) .ilockNoType

def iunlock (ip : Ptr) : m Unit := do
  let held ← o.holdingsleep ip
  let n ← o.inode ip
  o.panicIf (!held ∨ n.ref < 1) .iunlock
  o.releasesleep ip

def itrunc (ip : Ptr) : m Unit := do
  o.note .itrunc ip
  o.truncBlocks ip
  o.modifyInode ip fun n => { n with d := { n.d with size := 0 } }
  o.iupdate ip

/-- The part of `iput` for an inode with no links and no other references: truncate and
free. -/
def ifree (ip : Ptr) : m Unit := do
  o.itrunc ip
  o.modifyInode ip fun n => { n with d := { n.d with type := 0 } }
  o.iupdate ip
  o.modifyInode ip fun n => { n with valid := false }

/-- Drop a reference to an in-memory inode, freeing the inode on disk if it was the last
one and the inode has no links. -/
def iput (ip : Ptr) : m Unit := do
  o.note .iput ip
  o.acquiresleep ip
  let n ← o.inode ip
  let free := n.valid && n.d.nlink == 0 && n.ref == 1
  (if free then o.ifree ip else pure ())
  o.releasesleep ip
  o.modifyInode ip fun n => { n with ref := n.ref - 1 }

def iunlockput (ip : Ptr) : m Unit := do
  o.iunlock ip
  o.iput ip

def stati (ip : Ptr) : m Stat := do
  o.note .stati ip
  let n ← o.inode ip
  return ⟨ROOTDEV, n.inum, n.d.type, n.d.nlink, n.d.size, n.d.mode⟩

/-! Inode content. -/

def device (n : Inode) : m (Option Devsw) := do
  let devsw ← o.devsw
  return if h : 0 ≤ n.d.major.toInt ∧ n.d.major.toInt < NDEV then
    some (devsw ⟨n.d.major.toInt.toNat, by omega⟩)
  else none

/-- Read data from inode: the return value and the bytes stored at `dst`. `off` and `n`
are 32-bit unsigned. -/
def readi (ip : Ptr) (off n : ℕ) : m (ℤ × List UInt8) := do
  o.note .readi ip
  let i ← o.inode ip
  if i.d.type = T_DEV then do
    let dev ← o.device i
    match dev.bind Devsw.read with
    | some read => do
      -- `consoleread` gives up the lock while it waits for input
      o.iunlock ip
      o.ilock ip
      return read n
    | none => return (-1, [])
  else
    let size := i.d.size.toNat
    if off > size ∨ (off + n) % 2 ^ 32 < off then return (-1, [])
    else do
      let n := if off + n > size then size - off else n
      let bs ← o.readFrom ip off n
      return (n, bs)

def writei (ip : Ptr) (src : List UInt8) (off : ℕ) : m ℤ := do
  o.note .writei ip
  let i ← o.inode ip
  let n := src.length
  if i.d.type = T_DEV then do
    let dev ← o.device i
    match dev.bind Devsw.write with
    | some write => do
      -- `consolewrite` does so too
      o.iunlock ip
      o.ilock ip
      return write src
    | none => return -1
  else if off > i.d.size.toNat ∨ (off + n) % 2 ^ 32 < off then return -1
  else if off + n > MAXFILE * BSIZE then return -1
  else do
    let off ← o.writeFrom ip off src
    let i ← o.inode ip
    if 0 < n ∧ off > i.d.size.toNat then do
      o.setInode ip { i with d := { i.d with size := .ofNat 32 off } }
      o.iupdate ip
      return n
    else return n

/-! Directories. -/

/-- The loop over the entries of a directory from `off` on, at most `k` of them, up to the
first that satisfies `stop`; returns that entry and the offset reached. -/
def scan (dp : Ptr) (err : Panic) (stop : Dirent → Bool) : ℕ → ℕ → m (Option Dirent × ℕ)
  | 0, off => return (none, off)
  | k + 1, off => do
    let n ← o.inode dp
    if off < n.d.size.toNat then do
      let r ← o.readi dp off DIRENTSIZE
      o.panicIf (r.1 ≠ DIRENTSIZE) err
      let de := Dirent.decode r.2
      if stop de then return (some de, off)
      else scan dp err stop k (off + DIRENTSIZE)
    else return (none, off)

/-- The loop to the end of the directory. -/
def scanAll (dp : Ptr) (err : Panic) (stop : Dirent → Bool) (off : ℕ) :
    m (Option Dirent × ℕ) := do
  let n ← o.inode dp
  o.scan dp err stop (n.d.size.toNat / DIRENTSIZE + 1) off

/-- Look for a directory entry in a directory; also returns its byte offset. -/
def dirlookup (dp : Ptr) (name : Str) : m (Option (Ptr × ℕ)) := do
  let n ← o.inode dp
  o.panicIf (n.d.type ≠ T_DIR) .dirlookupNotDir
  let r ← o.scanAll dp .dirlookupRead (fun de => de.inum ≠ 0 && namecmp name de.name) 0
  match r.1 with
  | some de => do
    let ip ← o.iget de.inum
    return some (ip, r.2)
  | none => return none

/-- Write a new directory entry (`name`, `inum`) into the directory `dp`. -/
def dirlink (dp : Ptr) (name : Str) (inum : ℕ) : m ℤ := do
  let found ← o.dirlookup dp name
  match found with
  | some (ip, _) => do
    o.iput ip
    return -1
  | none => do
    -- look for an empty dirent
    let e ← o.scanAll dp .dirlinkRead (fun de => de.inum == 0) 0
    let r ← o.writei dp (Dirent.encode ⟨inum, name⟩) e.2
    o.panicIf (r ≠ DIRENTSIZE) .dirlink
    return 0

def isdirempty (dp : Ptr) : m Bool := do
  let r ← o.scanAll dp .isdiremptyReadi (fun de => de.inum ≠ 0) (2 * DIRENTSIZE)
  return r.1.isNone

end FsOps

/-! Paths. -/

def slash : UInt8 := 47
def dot : Str := [46]
def dotdot : Str := [46, 46]

/-- The next path element and the path following it, without leading slashes; `none` if
there is no name to remove. -/
def skipelem (path : Str) : Option (Str × Str) :=
  match path.dropWhile (· == slash) with
  | [] => none
  | c :: p =>
    some (((c :: p).takeWhile (· != slash)).take DIRSIZ,
      ((c :: p).dropWhile (· != slash)).dropWhile (· == slash))

/-- The elements that repeated calls of `skipelem` produce, at most `k` of them. -/
def pathElems : ℕ → Str → List Str
  | 0, _ => []
  | k + 1, path =>
    match skipelem path with
    | none => []
    | some (name, rest) => name :: pathElems k rest

namespace FsOps

variable {m : Type → Type} [Monad m] (o : FsOps m)

/-- The loop of `namex` over the remaining path elements. -/
def walk (parent : Bool) : Ptr → List Str → m (Option (Ptr × Str))
  | ip, [] =>
    if parent then do
      o.iput ip
      return none
    else return some (ip, [])
  | ip, name :: rest => do
    o.ilock ip
    let n ← o.inode ip
    if n.d.type ≠ T_DIR then do
      o.iunlockput ip
      return none
    else if parent ∧ rest = [] then do
      -- stop one level early
      o.iunlock ip
      return some (ip, name)
    else do
      let next ← o.dirlookup ip name
      match next with
      | none => do
        o.iunlockput ip
        return none
      | some (next, _) => do
        o.iunlockput ip
        walk parent next rest

/-- Look up the inode for a path name; with `parent`, the inode of the parent and the
final path element. -/
def namex (path : Str) (parent : Bool) : m (Option (Ptr × Str)) := do
  let elems := pathElems (path.length + 1) path
  if path.head? = some slash then do
    let ip ← o.iget ROOTINO
    o.walk parent ip elems
  else do
    let cwd ← o.cwd
    match cwd with
    | none => o.panic .trap
    | some ip => do
      o.idup ip
      o.walk parent ip elems

def namei (path : Str) : m (Option Ptr) := do
  let r ← o.namex path false
  return r.map Prod.fst

def nameiparent (path : Str) : m (Option (Ptr × Str)) := o.namex path true

def chmod (ip : Ptr) (mode : ℤ) : m ℤ :=
  if mode > 511 then return -1
  else do
    o.beginOp
    o.ilock ip
    o.modifyInode ip fun n => { n with d := { n.d with mode := .ofInt 32 mode } }
    o.iunlock ip
    o.iupdate ip
    o.endOp
    return 0

end FsOps

end Xv6
