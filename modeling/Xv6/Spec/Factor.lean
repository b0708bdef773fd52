import Xv6.Lib.While
import Xv6.Spec.SplitMemory

/-! The command `factor` of `factor.c`. An `int` is a number from `-2^31` to `2^31 - 1`, and overflow
wraps around. Each loop over numbers runs for at most `k` rounds, the same `k` for all of them: the
program exits when it does so for some `k`. The loops over strings end with the string. -/

namespace Xv6.Factor

def wrap (x : ℤ) : ℤ := x.bmod (2 ^ 32)

def integerSqrt (k : ℕ) (n : ℤ) : Option ℤ := do
  let i ← While.run (fun i => wrap (i * i) ≤ n) (fun i => some (wrap (i + 1))) k 1
  return wrap (i - 1)

structure State where
  n : ℤ
  out : List ℤ
deriving DecidableEq, Repr

def divideOut (k : ℕ) (i : ℤ) (d : State) : Option State :=
  While.run (fun d => d.n.tmod i = 0) (fun d => some ⟨d.n.tdiv i, d.out ++ [i]⟩) k d

/-- `for (int i = 3; i <= end; i += 2)` around that loop. -/
def divideOdd (k : ℕ) (last : ℤ) (d : State) : Option State := do
  let r ← While.run (fun x : ℤ × State => x.1 ≤ last)
    (fun x => (divideOut k x.1 x.2).map fun d => (wrap (x.1 + 2), d)) k (3, d)
  return r.2

def printFactor (k : ℕ) (n : ℤ) : Option (List ℤ) := do
  let d ← divideOut k 2 ⟨n, []⟩
  let last ← integerSqrt k d.n
  let d ← divideOdd k last d
  return if d.n > 2 then d.out ++ [d.n] else d.out

def checkInt (arg : Str) : Bool := arg.all fun c => 48 ≤ c && c ≤ 57

inductive Print where
  /-- "factor: cannot calculate %s" -/
  | cannot (arg : Str)
  /-- the number with its colon, then the factors and a newline -/
  | line (n : ℤ) (factors : List ℤ)
deriving DecidableEq, Repr

/-- One round of the loop of `main`. -/
def mainArg (k : ℕ) (arg : Str) : Option Print :=
  if checkInt arg then do
    let n := (Split.atoi arg).toInt
    let factors ← printFactor k n
    return .line n factors
  else some (.cannot arg)

/-- The loop of `main` over `argv[1]`, `argv[2]`, … -/
def main (k : ℕ) (argv : List Str) : Option (List Print) := (argv.drop 1).mapM (mainArg k)

def value (s : Str) : ℕ := s.foldl (fun n c => n * 10 + (c.toNat - 48)) 0

end Xv6.Factor
