import Mathlib.Tactic

/-! `memmove` of `string.c` and of `ulib.c`, on a memory of bytes. -/

namespace Xv6

open Function

abbrev Memory := ℕ → UInt8

def copyUp : ℕ → ℕ → ℕ → Memory → Memory
  | 0, _, _, mem => mem
  | n + 1, d, s, mem => copyUp n (d + 1) (s + 1) (update mem d (mem s))

def copyDown (d s : ℕ) : ℕ → Memory → Memory
  | 0, mem => mem
  | n + 1, mem => copyDown d s n (update mem (d + n) (mem (s + n)))

def StringC.memmove (dst src n : ℕ) (mem : Memory) : Memory :=
  if src < dst ∧ dst < (src + n) % 2 ^ 32 then copyDown dst src n mem else copyUp n dst src mem

def Ulib.memmove (dst src : ℕ) (n : ℤ) (mem : Memory) : Memory := copyUp n.toNat dst src mem

end Xv6
