import Xv6.Spec.Split

/-! The two copies of `split`, `split.c` and `lite/split.c`, with the buffer as it is in memory: `read`
overwrites its beginning, and only the first copy clears it at the end of a round. What lies past the
buffer is taken to begin with a NUL. -/

namespace Xv6.Split

def BUFSIZE : ℕ := 1024

/-- What the calls of `read` return for a regular file, at most `k` of them. -/
def readsFrom : ℕ → List UInt8 → List (List UInt8)
  | 0, _ => []
  | k + 1, bs => if bs = [] then [] else bs.take BUFSIZE :: readsFrom k (bs.drop BUFSIZE)

def reads (content : List UInt8) : List (List UInt8) := readsFrom content.length content

def zeros : List UInt8 := List.replicate BUFSIZE 0

/-- The loop over the results of `read`. `clear` tells whether `memset(buf, 0, 1024)` is there. -/
def splitReads (clear : Bool) (text : UInt8) (maxLine : ℤ) (pre : Str) :
    List UInt8 → List (List UInt8) → State → Except State State
  | _, [], st => .ok st
  | buf, bytes :: rest, st => do
    let buf := bytes ++ buf.drop bytes.length
    let st ← splitBlock text maxLine pre buf st
    splitReads clear text maxLine pre (if clear then zeros else buf) rest st

def splitCopy (clear : Bool) (o : Stray) (maxLine : ℤ) (maxSuffix : ℕ) (pre : Str)
    (content : List UInt8) : Except State State := do
  let st ← splitReads clear o.text maxLine pre zeros (reads content) (opened o maxSuffix pre)
  return st.emit .close

def splitFile : Stray → ℤ → ℕ → Str → List UInt8 → Except State State := splitCopy true

def liteSplitFile : Stray → ℤ → ℕ → Str → List UInt8 → Except State State := splitCopy false

end Xv6.Split
