import Mathlib.Data.UInt
import Xv6.Lib.While
import Xv6.Lib.Bytes

/-! `mp.c`: the scan of the table in which the firmware describes the processors. Memory is a map
from addresses to bytes. -/

namespace Xv6.Mp

def NCPU : ℕ := 8

def MPPROC : UInt8 := 0
def MPBUS : UInt8 := 1
def MPIOAPIC : UInt8 := 2
def MPIOINTR : UInt8 := 3
def MPLINTR : UInt8 := 4

def MPCONFSIZE : ℕ := 44
def MPPROCSIZE : ℕ := 20
def MPIOAPICSIZE : ℕ := 8

abbrev Memory := ℕ → UInt8

def bytes (mem : Memory) (a n : ℕ) : List UInt8 := (List.range n).map fun i => mem (a + i)

def sum (mem : Memory) (a len : ℕ) : UInt8 := (bytes mem a len).sum

structure Floating where
  physaddr : ℕ
  imcrp : UInt8

def confLength (mem : Memory) (conf : ℕ) : ℕ := Bytes.leVal (bytes mem (conf + 4) 2)

def mpconfig (mem : Memory) (mp : Option Floating) : Option ℕ := do
  let mp ← mp
  let conf := mp.physaddr
  if conf = 0 then none
  else if bytes mem conf 4 ≠ "PCMP".toList.map Char.toUInt8 then none
  else if mem (conf + 6) ≠ 1 ∧ mem (conf + 6) ≠ 4 then none
  else if sum mem conf (confLength mem conf) ≠ 0 then none
  else some conf

/-- The variables of the loop: `p` and `ismp`, `apicid` of `cpus[0]` to `cpus[ncpu-1]`, and
`ioapicid`. -/
structure Scan where
  p : ℕ
  ismp : Bool
  apicids : List UInt8
  ioapicid : UInt8

/-- The `switch` of `mpinit`. The `break` of its last case leaves the `switch` only. -/
def entry (mem : Memory) (s : Scan) : Scan :=
  if mem s.p = MPPROC then
    { s with
      p := s.p + MPPROCSIZE
      apicids := if s.apicids.length < NCPU then s.apicids ++ [mem (s.p + 1)] else s.apicids }
  else if mem s.p = MPIOAPIC then { s with p := s.p + MPIOAPICSIZE, ioapicid := mem (s.p + 1) }
  else if mem s.p = MPBUS ∨ mem s.p = MPIOINTR ∨ mem s.p = MPLINTR then { s with p := s.p + 8 }
  else { s with ismp := false }

inductive Panic where
  /-- "Expect to run on an SMP" -/
  | notSmp
  /-- "Didn't find a suitable machine" -/
  | notSuitable
deriving DecidableEq, Repr

/-- `mpinit`, with at most `k` rounds of its loop: the variables, and whether it programs the
IMCR. -/
def mpinit (k : ℕ) (mem : Memory) (mp : Option Floating) : Option (Except Panic (Scan × Bool)) :=
  match mp, mpconfig mem mp with
  | some mp, some conf => do
    let s ← While.run (fun s => s.p < conf + confLength mem conf) (fun s => some (entry mem s)) k
      ⟨conf + MPCONFSIZE, true, [], 0⟩
    if s.ismp then some (.ok (s, mp.imcrp ≠ 0)) else some (.error .notSuitable)
  | _, _ => some (.error .notSmp)

end Xv6.Mp
