import Xv6.Lib.Ledger
import Xv6.Spec.Blocks

/-! Which inode owns which disk block. An allocated inode owns the blocks of its `addrs`
and of its indirect block; for a valid cached inode the in-memory `addrs` count. -/

namespace Xv6

namespace Superblock

def datastart (sb : Superblock) : ℕ := sb.bmapstart + (sb.size / BPB + 1)

/-- The layout of `mkfs.c`: boot block, super block, log, inodes, free map, data. -/
structure Geometry (sb : Superblock) : Prop where
  logstart : 2 ≤ sb.logstart
  inodestart : sb.logstart + sb.nlog ≤ sb.inodestart
  bmapstart : sb.inodestart + (sb.ninodes / IPB + 1) ≤ sb.bmapstart
  datastart : sb.datastart ≤ sb.size
  word : sb.size ≤ 2 ^ 31

def dataBlocks (sb : Superblock) : Set ℕ := {b | sb.datastart ≤ b ∧ b < sb.size}

def metaBlocks (sb : Superblock) : Set ℕ := {b | b < sb.datastart}

def mapBlocks (sb : Superblock) : Set ℕ := {b | sb.bmapstart ≤ b ∧ b < sb.datastart}

end Superblock

def Inode.Live (n : Inode) : Prop := 0 < n.ref ∧ n.valid = true

instance (n : Inode) : Decidable n.Live := inferInstanceAs (Decidable (_ ∧ _))

namespace Store

def cached (t : Store) (i : ℕ) : Option Ptr :=
  (List.finRange NINODE).find? fun p => decide ((t.icache p).Live ∧ (t.icache p).inum = i)

def view (t : Store) (i : ℕ) : Dinode :=
  match t.cached i with
  | some p => (t.icache p).d
  | none => t.dinode i

/-- Address `k` of an inode: `addrs[k]` up to the indirect block, then the entries of the
indirect block. -/
def slotOf (blocks : ℕ → Block) (d : Dinode) (k : ℕ) : ℕ :=
  if k ≤ NDIRECT then d.addr k
  else if d.addr NDIRECT = 0 then 0
  else (blocks (d.addr NDIRECT)).word 4 (4 * (k - NDIRECT - 1))

def slotIdx (bn : ℕ) : ℕ := if bn < NDIRECT then bn else bn + 1

def slot (t : Store) (i k : ℕ) : ℕ := slotOf t.blocks (t.view i) k

def Allocated (t : Store) (i : ℕ) : Prop := i < t.sb.ninodes ∧ (t.dinode i).type ≠ 0

instance (t : Store) (i : ℕ) : Decidable (t.Allocated i) := inferInstanceAs (Decidable (_ ∧ _))

def held (t : Store) (x : ℕ × ℕ) : Option ℕ :=
  if t.Allocated x.1 ∧ x.2 ≤ MAXFILE ∧ t.slot x.1 x.2 ≠ 0 then some (t.slot x.1 x.2) else none

def used (t : Store) (b : ℕ) : Prop := bitClear (t.blocks (BBLOCK b t.sb)) (b % BPB) = false

def ledger (t : Store) : Ledger (ℕ × ℕ) ℕ := ⟨t.held, t.used⟩

def Unique (t : Store) : Prop := ∀ p q, 0 < (t.icache p).ref → 0 < (t.icache q).ref →
  (t.icache p).inum = (t.icache q).inum → p = q

/-- A well-formed file system, but for the cache entries `x`, whose `addrs` may differ from
the disk inode, and for the blocks `out`, which are held though marked free. -/
structure WfExcept (x : Set Ptr) (out : Set ℕ) (t : Store) : Prop where
  geometry : t.sb.Geometry
  unique : t.Unique
  loaded : ∀ p, (t.icache p).Live → t.Allocated (t.icache p).inum ∧ (t.icache p).d.type ≠ 0
  synced : ∀ p, p ∉ x → (t.icache p).Live → ∀ k ≤ NDIRECT,
    (t.dinode (t.icache p).inum).addr k = (t.icache p).d.addr k ∨
      (t.dinode (t.icache p).inum).addr k = 0
  sound : t.ledger.Sound t.sb.dataBlocks t.sb.metaBlocks out

/-- A well-formed file system: the addresses of allocated inodes are data blocks, no block
has two owners, the bits of owned and of metadata blocks are set, and the inode cache holds
one copy of an inode, whose `addrs` extend those on disk. -/
def Wf (t : Store) : Prop := WfExcept ∅ ∅ t

end Store

/-- The block was neither a metadata block nor owned when it was allocated. -/
def Fs.Fresh (g : ℕ × Store) : Prop := g.1 ∉ g.2.sb.metaBlocks ∧ ∀ y, g.2.held y ≠ some g.1

/-- The calls of the inode layer that allocate, free or move blocks, with those that get
and lock the inodes they work on. -/
inductive InodeCall where
  | beginOp
  | endOp
  | iget (inum : ℕ)
  | idup (ip : Ptr)
  | ilock (ip : Ptr)
  | iunlock (ip : Ptr)
  | iput (ip : Ptr)
  | ialloc (type : Short)
  | itrunc (ip : Ptr)
  | readi (ip : Ptr) (off n : ℕ)
  | writei (ip : Ptr) (src : List UInt8) (off : ℕ)
  | dirlink (dp : Ptr) (name : Str) (inum : ℕ)

namespace InodeCall

def run : InodeCall → FsM Unit
  | beginOp => Fs.ops.beginOp
  | endOp => Fs.ops.endOp
  | iget inum => do
    let _ ← Fs.ops.iget inum
  | idup ip => Fs.ops.idup ip
  | ilock ip => Fs.ops.ilock ip
  | iunlock ip => Fs.ops.iunlock ip
  | iput ip => Fs.ops.iput ip
  | ialloc type => do
    let _ ← Fs.ops.ialloc type
  | itrunc ip => Fs.ops.itrunc ip
  | readi ip off n => do
    let _ ← Fs.ops.readi ip off n
  | writei ip src off => do
    let _ ← Fs.ops.writei ip src off
  | dirlink dp name inum => do
    let _ ← Fs.ops.dirlink dp name inum

/-- What the comments of `fs.c` ask of the caller: to hold a reference, and the lock of an
inode whose contents are used. An inode is only locked if its number is in range. -/
def Contract (s : Fs) : InodeCall → Prop
  | idup ip | iput ip => 0 < (s.icache ip).ref
  | ilock ip => (s.icache ip).inum < s.sb.ninodes
  | itrunc ip | readi ip _ _ | writei ip _ _ | dirlink ip _ _ =>
    (s.icache ip).Live ∧ (s.icache ip).lock.isSome
  | beginOp | endOp | iget _ | iunlock _ | ialloc _ => True

def step (s : Fs) (c : InodeCall) : Option Fs :=
  match c.run s with
  | .ok _ s' => some s'
  | .halt _ _ => none

end InodeCall

end Xv6
