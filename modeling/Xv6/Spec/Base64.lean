import Mathlib.Tactic

/-! The command `base64`: `encode` of `base64.c`, over the results of its calls of `read`. -/

namespace Xv6.Base64

/-- `"ABCDEFGHIJKLMNOPQRSTUVWXYZabcdefghijklmnopqrstuvwxyz0123456789+/"`. -/
def key : List UInt8 :=
  [65, 66, 67, 68, 69, 70, 71, 72, 73, 74, 75, 76, 77, 78, 79, 80, 81, 82, 83, 84, 85, 86, 87, 88, 89,
    90, 97, 98, 99, 100, 101, 102, 103, 104, 105, 106, 107, 108, 109, 110, 111, 112, 113, 114, 115, 116,
    117, 118, 119, 120, 121, 122, 48, 49, 50, 51, 52, 53, 54, 55, 56, 57, 43, 47]

def keyAt (bits : BitVec 32) (k : ℕ) : UInt8 := key.getD (bits.sshiftRight k &&& 63#32).toNat 0

/-- The loop over the bytes read. `char` is signed, so a byte of 128 and more is subtracted. -/
def bitsOf (buf : List UInt8) : BitVec 32 :=
  buf.foldl (fun bits c => bits <<< 8 + c.toBitVec.signExtend 32) 0

def printGroup (buf : List UInt8) : List UInt8 :=
  let bits := bitsOf buf
  if buf.length = 1 then
    let bits := bits <<< 4
    [keyAt bits 6, keyAt bits 0, 61, 61]
  else if buf.length = 2 then
    let bits := bits <<< 2
    [keyAt bits 12, keyAt bits 6, keyAt bits 0, 61]
  else if buf.length = 3 then [keyAt bits 18, keyAt bits 12, keyAt bits 6, keyAt bits 0]
  else []

/-- What `encode` prints when the calls of `read` return these bytes, and then nothing. -/
def encode : List (List UInt8) → List UInt8
  | [] => [10]
  | buf :: bufs => printGroup buf ++ encode bufs

def Reads (bufs : List (List UInt8)) : Prop := ∀ buf ∈ bufs, 0 < buf.length ∧ buf.length ≤ 3

def FullReads : List (List UInt8) → Prop
  | [] => True
  | [buf] => 0 < buf.length ∧ buf.length ≤ 3
  | buf :: bufs => buf.length = 3 ∧ FullReads bufs

end Xv6.Base64
