import Xv6.Spec.Paging

/-! The functions of `syscall.c` that fetch the arguments of a system call from user memory. A `uint`
and an `int` are 32-bit words. Each function returns its result, `none` for -1, and the addresses it
has read. -/

namespace Xv6.Fetch

abbrev Word := BitVec 32

structure Proc where
  mem : ℕ → UInt8
  sz : Word
  esp : Word

abbrev Fetched (α : Type) := Option α × List ℕ

def range (a n : ℕ) : List ℕ := (List.range n).map (a + ·)

def loadInt (p : Proc) (addr : ℕ) : Word := .ofNat 32 (Bytes.leVal ((range addr 4).map p.mem))

def fetchint (p : Proc) (addr : Word) : Fetched Word :=
  if addr ≥ p.sz ∨ addr + 4 > p.sz then (none, [])
  else (some (loadInt p addr.toNat), range addr.toNat 4)

/-- The loop of `fetchstr`, for the `k` bytes from `s` to `ep`: the length of the string. -/
def scan (p : Proc) (pp : ℕ) : ℕ → ℕ → List ℕ → Fetched ℕ
  | 0, _, reads => (none, reads)
  | k + 1, s, reads =>
    let reads := reads ++ [s]
    if p.mem s = 0 then (some (s - pp), reads) else scan p pp k (s + 1) reads

def fetchstr (p : Proc) (addr : Word) : Fetched (Word × ℕ) :=
  if addr ≥ p.sz then (none, [])
  else
    let (r, reads) := scan p addr.toNat (p.sz.toNat - addr.toNat) addr.toNat []
    (r.map fun k => (addr, k), reads)

def argint (p : Proc) (n : Word) : Fetched Word := fetchint p (p.esp + 4 + 4 * n)

def argptr (p : Proc) (n size : Word) : Fetched Word :=
  match argint p n with
  | (none, reads) => (none, reads)
  | (some i, reads) =>
    if size.slt 0 ∨ i ≥ p.sz ∨ i + size > p.sz then (none, reads) else (some i, reads)

def argstr (p : Proc) (n : Word) : Fetched (Word × ℕ) :=
  match argint p n with
  | (none, reads) => (none, reads)
  | (some addr, reads) =>
    let (r, more) := fetchstr p addr
    (r, reads ++ more)

end Xv6.Fetch
