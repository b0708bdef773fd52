import Xv6.Spec.Param

/-! The on-disk format of `fs.h`: the super block, `struct dinode` in its 64-byte slot,
the bits of the free map and `struct dirent`. -/

namespace Xv6

structure Superblock where
  size : ℕ
  nblocks : ℕ
  ninodes : ℕ
  nlog : ℕ
  logstart : ℕ
  inodestart : ℕ
  bmapstart : ℕ
deriving DecidableEq, Repr

def IBLOCK (i : ℕ) (sb : Superblock) : ℕ := i / IPB + sb.inodestart

def BBLOCK (b : ℕ) (sb : Superblock) : ℕ := b / BPB + sb.bmapstart

/-- On-disk inode structure; an in-memory inode holds a copy of these fields. -/
structure Dinode where
  type : Short
  major : Short
  minor : Short
  nlink : Short
  mode : BitVec 32
  size : BitVec 32
  addrs : Vector (BitVec 32) 12
deriving DecidableEq, Repr

namespace Dinode

def zero : Dinode := ⟨0, 0, 0, 0, 0, 0, Vector.replicate 12 0⟩

def addr (d : Dinode) (k : ℕ) : ℕ := (d.addrs[k]?.getD 0).toNat

def setAddr (d : Dinode) (k b : ℕ) : Dinode :=
  { d with addrs := Vector.ofFn fun i => if i.val = k then BitVec.ofNat 32 b else d.addrs[i] }

def encode (d : Dinode) : List UInt8 :=
  Bytes.le 2 d.type.toNat ++ Bytes.le 2 d.major.toNat ++ Bytes.le 2 d.minor.toNat ++
    Bytes.le 2 d.nlink.toNat ++ Bytes.le 4 d.mode.toNat ++ Bytes.le 4 d.size.toNat ++
    d.addrs.toList.flatMap fun a => Bytes.le 4 a.toNat

def decode (b : Block) (o : ℕ) : Dinode where
  type := .ofNat 16 (b.word 2 o)
  major := .ofNat 16 (b.word 2 (o + 2))
  minor := .ofNat 16 (b.word 2 (o + 4))
  nlink := .ofNat 16 (b.word 2 (o + 6))
  mode := .ofNat 32 (b.word 4 (o + 8))
  size := .ofNat 32 (b.word 4 (o + 12))
  addrs := .ofFn fun k => .ofNat 32 (b.word 4 (o + 16 + 4 * k))

end Dinode

def inodeOff (i : ℕ) : ℕ := DINODESIZE * (i % IPB)

def bitClear (bp : Block) (bi : ℕ) : Bool := (bp.get (bi / 8)).toNat &&& 1 <<< (bi % 8) == 0

def setBit (bp : Block) (bi : ℕ) : Block :=
  bp.patch (bi / 8) [.ofNat ((bp.get (bi / 8)).toNat ||| 1 <<< (bi % 8))]

def clearBit (bp : Block) (bi : ℕ) : Block :=
  bp.patch (bi / 8) [.ofNat ((bp.get (bi / 8)).toNat &&& (255 - 1 <<< (bi % 8)))]

abbrev Str := List UInt8

structure Dirent where
  inum : ℕ
  name : Str
deriving DecidableEq, Repr

namespace Dirent

def encode (de : Dirent) : List UInt8 :=
  Bytes.le 2 de.inum ++ de.name.take DIRSIZ ++
    List.replicate (DIRSIZ - (de.name.take DIRSIZ).length) 0

def decode (bs : List UInt8) : Dirent where
  inum := Bytes.leVal (bs.take 2)
  name := ((bs.drop 2).take DIRSIZ).takeWhile (· ≠ 0)

end Dirent

def namecmp (s t : Str) : Bool := s.take DIRSIZ == t.take DIRSIZ

end Xv6
