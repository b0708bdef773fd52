import Xv6.Spec.Ownership

/-! The states in which the file-system calls run, and the calls that write in brackets of
their own. -/

namespace Xv6

namespace Store

variable (t : Store)

def byteAt (i k : ℕ) : UInt8 := (t.blocks (t.slot i (slotIdx (k / BSIZE)))).get (k % BSIZE)

def dirent (i off : ℕ) : Dirent :=
  Dirent.decode ((List.range DIRENTSIZE).map fun k => t.byteAt i (off + k))

/-- The root directory, or an inode that an entry of an allocated directory names. -/
def Named (i : ℕ) : Prop :=
  i = ROOTINO ∨ ∃ j off, t.Allocated j ∧ (t.view j).type = T_DIR ∧ DIRENTSIZE ∣ off ∧
    off + DIRENTSIZE ≤ (t.view j).size.toNat ∧ (t.dirent j off).inum = i ∧ i ≠ 0

/-- The blocks of files and directories are there up to `size`, directory entries name
inodes of the disk, and an inode that has an entry but no link is still referenced. -/
structure Consistent : Prop where
  wf : t.Wf
  backed : ∀ i, t.Allocated i → ∀ bn, bn * BSIZE < (t.view i).size.toNat →
    ∃ b, t.held (i, slotIdx bn) = some b
  named_lt : ∀ i, t.Named i → i < t.sb.ninodes
  named_linked : ∀ i, t.Named i → t.Allocated i → (t.dinode i).nlink = 0 →
    ∃ p, 0 < (t.icache p).ref ∧ (t.icache p).inum = i
  ref_lt : ∀ p, 0 < (t.icache p).ref → (t.icache p).inum < t.sb.ninodes

end Store

/-- A well-formed file system, with the process's current directory referenced and no type
left in a closed file. -/
structure Fs.Consistent (s : Fs) : Prop where
  store : s.toStore.Consistent
  cwd : ∀ p, s.cwd = some p → 0 < (s.icache p).ref
  closed : ∀ f, (s.ftable f).ref = 0 → (s.ftable f).type = .none

inductive FsCall where
  | filewrite (f : Fin NFILE) (src : List UInt8) (pipe : ℤ)
  | sysOpen (args : Option (Str × BitVec 32))
  | sysMkdir (path : Option Str)
  | sysMknod (args : Option (Str × ℤ × ℤ))
  | sysLink (args : Option (Str × Str))
  | sysUnlink (path : Option Str)
  | chmod (ip : Ptr) (mode : ℤ)
  | sysChmod (args : Option (Str × ℤ))
  | fileclose (f : Fin NFILE)
  | exit

def FsCall.run : FsCall → FsM Unit
  | filewrite f src pipe => do
    let _ ← Fs.ops.filewrite f src pipe
  | sysOpen args => do
    let _ ← Fs.ops.sysOpen args
  | sysMkdir path => do
    let _ ← Fs.ops.sysMkdir path
  | sysMknod args => do
    let _ ← Fs.ops.sysMknod args
  | sysLink args => do
    let _ ← Fs.ops.sysLink args
  | sysUnlink path => do
    let _ ← Fs.ops.sysUnlink path
  | chmod ip mode => do
    let _ ← Fs.ops.chmod ip mode
  | sysChmod args => do
    let _ ← Fs.ops.sysChmod args
  | fileclose f => Fs.ops.fileclose f
  | exit => Fs.ops.exit

def Fits (brackets : List (List ℕ)) : Prop := ∀ l ∈ brackets, l.toFinset.card ≤ MAXOPBLOCKS

namespace FsCall

def step (s : Fs) (c : FsCall) : Option Fs :=
  match c.run s with
  | .ok _ s' => some s'
  | .halt _ _ => none

def Unsigned : FsCall → Prop
  | chmod _ mode => 0 ≤ mode
  | sysChmod args => ∀ x ∈ args, 0 ≤ x.2
  | _ => True

end FsCall

end Xv6
