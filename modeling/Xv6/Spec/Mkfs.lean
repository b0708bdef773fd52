import Xv6.Spec.OpBlocks

/-! `mkfs.c`: the program that writes the initial file system, and what the kernel makes of
the image. -/

namespace Xv6

def Superblock.encode (sb : Superblock) : List UInt8 :=
  [sb.size, sb.nblocks, sb.ninodes, sb.nlog, sb.logstart, sb.inodestart, sb.bmapstart].flatMap
    (Bytes.le 4)

def Superblock.decode (b : Block) : Superblock where
  size := b.word 4 0
  nblocks := b.word 4 4
  ninodes := b.word 4 8
  nlog := b.word 4 12
  logstart := b.word 4 16
  inodestart := b.word 4 20
  bmapstart := b.word 4 24

def NINODES : ℕ := 200

/-- A file named on the command line: the argument, and what the successive calls of `read`
return up to the end of the file. -/
structure HostFile where
  arg : Str
  reads : List (List UInt8)
  nonempty : ∀ c ∈ reads, c ≠ []
  length_le : ∀ c ∈ reads, c.length ≤ BSIZE

namespace HostFile

theorem length_le_nil : ∀ c ∈ ([] : List (List UInt8)), c.length ≤ BSIZE := by simp

def contents (f : HostFile) : List UInt8 := f.reads.flatten

def name (f : HostFile) : Str :=
  match f.arg with
  | [] => []
  | c :: cs => if c = 95 then cs else c :: cs

end HostFile

/-- The image file, of which `nsect` sectors have been written, and the globals of `mkfs.c`.
`inodeSects` is history: the sectors `winode` has written. -/
structure Mkfs where
  img : ℕ → Block
  nsect : ℕ
  sb : Superblock
  freeinode : ℕ
  freeblock : ℕ
  inodeSects : List ℕ

inductive MkfsStop where
  | assert
  | exit
deriving DecidableEq, Repr

abbrev MkfsM := Exec Mkfs MkfsStop

namespace Mkfs

def nbitmap : ℕ := FSSIZE / (BSIZE * 8) + 1
def ninodeblocks : ℕ := NINODES / IPB + 1
def nmeta : ℕ := 2 + nlog + ninodeblocks + nbitmap
def nblocks : ℕ := FSSIZE - nmeta

def superblock : Superblock where
  size := FSSIZE
  nblocks := nblocks
  ninodes := NINODES
  nlog := nlog
  logstart := 2
  inodestart := 2 + nlog
  bmapstart := 2 + nlog + ninodeblocks

def assert (c : Prop) [Decidable c] : MkfsM Unit := if c then pure () else Exec.halt .assert

def wsect (sec : ℕ) (buf : Block) : MkfsM Unit :=
  Exec.modify fun s =>
    { s with img := Function.update s.img sec buf, nsect := max s.nsect (sec + 1) }

def rsect (sec : ℕ) : MkfsM Block := do
  let s ← Exec.get
  if sec < s.nsect then return s.img sec else Exec.halt .exit

def winode (inum : ℕ) (d : Dinode) : MkfsM Unit := do
  let s ← Exec.get
  let buf ← rsect (IBLOCK inum s.sb)
  wsect (IBLOCK inum s.sb) (buf.patch (inodeOff inum) d.encode)
  Exec.modify fun s => { s with inodeSects := IBLOCK inum s.sb :: s.inodeSects }

def rinode (inum : ℕ) : MkfsM Dinode := do
  let s ← Exec.get
  let buf ← rsect (IBLOCK inum s.sb)
  return Dinode.decode buf (inodeOff inum)

def ialloc (type : Short) : MkfsM ℕ := do
  let s ← Exec.get
  Exec.modify fun s => { s with freeinode := s.freeinode + 1 }
  winode s.freeinode { Dinode.zero with type := type, nlink := 1, size := 0, mode := 493 }
  return s.freeinode

def balloc (used : ℕ) : MkfsM Unit := do
  assert (used < BSIZE * 8)
  let s ← Exec.get
  wsect s.sb.bmapstart ((List.range used).foldl setBit Buffer.zero)

def takeBlock : MkfsM ℕ := do
  let s ← Exec.get
  Exec.modify fun s => { s with freeblock := s.freeblock + 1 }
  return s.freeblock

/-- The part of `iappend` that finds the sector of block `fbn` of the inode, taking a free
one if there is none. -/
def blockAt (din : Dinode) (fbn : ℕ) : MkfsM (Dinode × ℕ) :=
  if fbn < NDIRECT then
    if din.addr fbn = 0 then do
      let b ← takeBlock
      return (din.setAddr fbn b, (din.setAddr fbn b).addr fbn)
    else return (din, din.addr fbn)
  else do
    let din ← (if din.addr NDIRECT = 0 then do
        let b ← takeBlock
        return din.setAddr NDIRECT b
      else return din)
    let indirect ← rsect (din.addr NDIRECT)
    if indirect.word 4 (4 * (fbn - NDIRECT)) = 0 then do
      let b ← takeBlock
      let indirect := indirect.setWord 4 (4 * (fbn - NDIRECT)) b
      wsect (din.addr NDIRECT) indirect
      return (din, indirect.word 4 (4 * (fbn - NDIRECT)))
    else return (din, indirect.word 4 (4 * (fbn - NDIRECT)))

/-- The loop of `iappend`; returns the final `din` and `off`. -/
def appendFrom (din : Dinode) (off : ℕ) (p : List UInt8) : MkfsM (Dinode × ℕ) :=
  if p.length = 0 then return (din, off)
  else do
    assert (off / BSIZE < MAXFILE)
    let r ← blockAt din (off / BSIZE)
    let n1 := min p.length ((off / BSIZE + 1) * BSIZE - off)
    let buf ← rsect r.2
    wsect r.2 (buf.patch (off - off / BSIZE * BSIZE) (p.take n1))
    appendFrom r.1 (off + n1) (p.drop n1)
termination_by p.length
decreasing_by
  have : off / BSIZE * BSIZE + off % BSIZE = off := Nat.div_add_mod' off BSIZE
  have : off % BSIZE < BSIZE := Nat.mod_lt _ (by decide)
  simp only [List.length_drop]
  rw [Nat.add_mul, Nat.one_mul]
  omega

def iappend (inum : ℕ) (p : List UInt8) : MkfsM Unit := do
  let din ← rinode inum
  let r ← appendFrom din din.size.toNat p
  winode inum { r.1 with size := .ofNat 32 r.2 }

/-- The loop that writes zeroes over the whole image. -/
def zeroSects : List ℕ → MkfsM Unit
  | [] => return ()
  | i :: is => do
    wsect i Buffer.zero
    zeroSects is

/-- The loop over the results of `read`. -/
def copyIn (inum : ℕ) : List (List UInt8) → MkfsM Unit
  | [] => return ()
  | buf :: bufs => do
    iappend inum buf
    copyIn inum bufs

def addFile (rootino : ℕ) (f : HostFile) : MkfsM Unit := do
  assert (slash ∉ f.arg)
  let inum ← ialloc T_FILE
  iappend rootino (Dirent.encode ⟨inum, f.name⟩)
  copyIn inum f.reads

/-- The loop over the files of the command line. -/
def addFiles (rootino : ℕ) : List HostFile → MkfsM Unit
  | [] => return ()
  | f :: files => do
    addFile rootino f
    addFiles rootino files

def fixRoot (rootino : ℕ) : MkfsM Unit := do
  let din ← rinode rootino
  let off := (din.size.toNat / BSIZE + 1) * BSIZE
  winode rootino { din with size := .ofNat 32 off }

def makeRoot : MkfsM ℕ := do
  let rootino ← ialloc T_DIR
  assert (rootino = ROOTINO)
  iappend rootino (Dirent.encode ⟨rootino, dot⟩)
  iappend rootino (Dirent.encode ⟨rootino, dotdot⟩)
  return rootino

def writeSuper : MkfsM Unit := do
  zeroSects (List.range FSSIZE)
  let s ← Exec.get
  wsect 1 (Buffer.zero.patch 0 s.sb.encode)

def main (files : List HostFile) : MkfsM Unit := do
  writeSuper
  let rootino ← makeRoot
  addFiles rootino files
  fixRoot rootino
  let s ← Exec.get
  balloc s.freeblock

def start : Mkfs := ⟨fun _ => Buffer.zero, 0, superblock, 1, nmeta, []⟩

/-! The image in the kernel. -/

def dataBlocks (len : ℕ) : ℕ := (len + BSIZE - 1) / BSIZE

/-- The blocks of a file with `n` data blocks: those and the indirect block. -/
def extentBlocks (n : ℕ) : ℕ := if NDIRECT < n then n + 1 else n

def fileBlocks (len : ℕ) : ℕ := extentBlocks (dataBlocks len)

/-- The blocks used by an image with these files: the metadata, the root directory and the
files. -/
def blocksUsed (files : List HostFile) : ℕ :=
  nmeta + fileBlocks (DIRENTSIZE * (files.length + 2)) +
    (files.map fun f => fileBlocks f.contents.length).sum

def diskInode (img : ℕ → Block) (i : ℕ) : Dinode :=
  Dinode.decode (img (IBLOCK i superblock)) (inodeOff i)

/-- The inodes the inode blocks have room for, a few more than `NINODES`. -/
def inodeRoom : ℕ := ninodeblocks * IPB

def Stored (img : ℕ → Block) (d : Dinode) (b : ℕ) : Prop :=
  b ≠ 0 ∧ ((∃ k ≤ NDIRECT, b = d.addr k) ∨
    d.addr NDIRECT ≠ 0 ∧ ∃ k < NINDIRECT, b = (img (d.addr NDIRECT)).word 4 (4 * k))

/-- The inode numbers taken, the block addresses stored and the sectors `winode` wrote are those
of the layout. -/
structure WithinLimits (s : Mkfs) : Prop where
  inodes : ∀ inum, 0 < inum → inum < s.freeinode → inum < NINODES
  blocks : ∀ inum < NINODES, ∀ b, Stored s.img (diskInode s.img inum) b → nmeta ≤ b ∧ b < FSSIZE
  winode : ∀ sec ∈ s.inodeSects, 2 + nlog ≤ sec ∧ sec < 2 + nlog + ninodeblocks

def NoHoles (img : ℕ → Block) (d : Dinode) : Prop :=
  ∀ bn < dataBlocks d.size.toNat, Store.slotOf img d (Store.slotIdx bn) ≠ 0

/-- A kernel that has read the super block of the image, with no inode locked, cached inodes
as on disk, and `k` free entries in the inode cache. -/
structure Mounted (img : ℕ → Block) (k : ℕ) (s : Fs) : Prop where
  blocks : s.blocks = img
  sb : s.sb = Superblock.decode (img 1)
  unlocked : ∀ p, (s.icache p).lock = none
  agrees : ∀ p, (s.icache p).Live → (s.icache p).d = s.toStore.dinode (s.icache p).inum
  room : k ≤ (Finset.univ.filter fun p => (s.icache p).ref = 0).card

/-- The kernel finds the file under its name in the root directory, as a plain file with one
link and mode 0755, and `readi` returns the bytes of the host file. -/
def Readable (img : ℕ → Block) (f : HostFile) : Prop :=
  ∀ s, Mounted img 2 s → ∃ ip s₁ s₂, Fs.ops.namei (slash :: f.name) s = .ok (some ip) s₁ ∧
    Fs.ops.ilock ip s₁ = .ok () s₂ ∧ (s₂.icache ip).d.type = T_FILE ∧
    (s₂.icache ip).d.nlink = 1 ∧ (s₂.icache ip).d.mode = 493 ∧
    (s₂.icache ip).d.size.toNat = f.contents.length ∧
    ∀ off n, off + n < 2 ^ 32 → ∃ r,
      Fs.ops.readi ip off n s₂ = .ok (r, (f.contents.drop off).take n) s₂ ∧
      (off ≤ f.contents.length → r = ((f.contents.drop off).take n).length)

/-- Command lines that fit the image: fewer than `NINODES` inodes and at most `FSSIZE` blocks,
no file too long, and names that are nonempty and differ in their first `DIRSIZ` bytes. The
arguments are C strings, and `main` refuses those with a slash. -/
structure Inputs (files : List HostFile) : Prop where
  inodes : files.length + 1 < NINODES
  blocks : blocksUsed files ≤ FSSIZE
  size : ∀ f ∈ files, f.contents.length ≤ MAXFILE * BSIZE
  arg : ∀ f ∈ files, 0 ∉ f.arg ∧ slash ∉ f.arg
  nonempty : ∀ f ∈ files, f.name ≠ []
  distinct : files.Pairwise fun f g => f.name.take DIRSIZ ≠ g.name.take DIRSIZ

end Mkfs

end Xv6
