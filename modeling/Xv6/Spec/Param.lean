import Xv6.Lib.Bytes

/-! The constants of `param.h`, `fs.h`, `stat.h` and `mkfs.c` that the file system uses. -/

namespace Xv6

def NPROC : ℕ := 64
def NOFILE : ℕ := 16
def NFILE : ℕ := 100
def NINODE : ℕ := 50
def NDEV : ℕ := 10
def MAXOPBLOCKS : ℕ := 10
def LOGSIZE : ℕ := MAXOPBLOCKS * 3
def NBUF : ℕ := MAXOPBLOCKS * 3
def ROOTDEV : ℕ := 1
def FSSIZE : ℕ := 1000

theorem ninode_pos : 0 < NINODE := by decide

theorem nbuf_pos : 0 < NBUF := by decide

theorem toNat_lt_nofile {fd : ℤ} (h : 0 ≤ fd ∧ fd < NOFILE) : fd.toNat < NOFILE := by omega

def ROOTINO : ℕ := 1
def BSIZE : ℕ := 512
def NDIRECT : ℕ := 11
def NINDIRECT : ℕ := BSIZE / 4
def MAXFILE : ℕ := NDIRECT + NINDIRECT
def DIRSIZ : ℕ := 14

def DINODESIZE : ℕ := 64
def IPB : ℕ := BSIZE / DINODESIZE

def BPB : ℕ := BSIZE * 8

def DIRENTSIZE : ℕ := 16

/-- `nlog` of `mkfs.c`: the log blocks of the image, the header block among them. -/
def nlog : ℕ := LOGSIZE

abbrev Block := Buffer BSIZE

abbrev Short := BitVec 16

def T_DIR : Short := 1
def T_FILE : Short := 2
def T_DEV : Short := 3

end Xv6
