import Mathlib.Tactic

/-! The base 64 encoding of RFC 4648, and its decoding. -/

namespace Rfc4648

open List

def alphabet : List UInt8 :=
  (range 26).map (fun i => UInt8.ofNat (65 + i)) ++
    (range 26).map (fun i => UInt8.ofNat (97 + i)) ++
    (range 10).map (fun i => UInt8.ofNat (48 + i)) ++ [43, 47]

def pad : UInt8 := 61

def char (d : ℕ) : UInt8 := alphabet.getD d 0

def digit (c : UInt8) : Option ℕ := alphabet.findIdx? (· == c)

def quantum (n : ℕ) : List UInt8 :=
  [char (n / 2 ^ 18 % 64), char (n / 2 ^ 12 % 64), char (n / 2 ^ 6 % 64), char (n % 64)]

/-- Groups of three bytes become four characters; a last group of one or two bytes is filled up
with zero bits to a whole number of characters, and with padding to four of them. -/
def encode : List UInt8 → List UInt8
  | [] => []
  | [a] => (quantum (a.toNat * 2 ^ 16)).take 2 ++ [pad, pad]
  | [a, b] => (quantum (a.toNat * 2 ^ 16 + b.toNat * 2 ^ 8)).take 3 ++ [pad]
  | a :: b :: c :: rest => quantum (a.toNat * 2 ^ 16 + b.toNat * 2 ^ 8 + c.toNat) ++ encode rest

def bytes (w x y z : ℕ) : List UInt8 :=
  [UInt8.ofNat (w * 4 + x / 16), UInt8.ofNat (x * 16 + y / 4), UInt8.ofNat (y * 64 + z)]

/-- `none` for a text that is no encoding. Only the last group may be padded. -/
def decode : List UInt8 → Option (List UInt8)
  | [] => some []
  | w :: x :: y :: z :: rest =>
    if z = pad ∧ rest = [] then
      if y = pad then do return (bytes (← digit w) (← digit x) 0 0).take 1
      else do return (bytes (← digit w) (← digit x) (← digit y) 0).take 2
    else do return bytes (← digit w) (← digit x) (← digit y) (← digit z) ++ (← decode rest)
  | _ => none

theorem digit_char {d : ℕ} (h : d < 64) : digit (char d) = some d := by
  have hall : ∀ d : Fin 64, digit (char d) = some d.val := by decide
  exact hall ⟨d, h⟩

theorem char_inj {d e : ℕ} (hd : d < 64) (he : e < 64) : char d = char e ↔ d = e := by
  refine ⟨fun h => ?_, congrArg char⟩
  have := (digit_char hd).symm.trans ((congrArg digit h).trans (digit_char he))
  exact Option.some.inj this

theorem char_ne_pad (d : ℕ) : char d ≠ pad := by
  by_cases h : d < 64
  · have hall : ∀ d : Fin 64, char d ≠ pad := by decide
    exact hall ⟨d, h⟩
  · have hlen : alphabet.length = 64 := by decide
    rw [char, getD_eq_getElem?_getD, getElem?_eq_none (by omega)]
    decide

theorem ofNat_eq {m : ℕ} {a : UInt8} (h : m % 2 ^ 8 = a.toNat) : UInt8.ofNat m = a := by
  apply UInt8.toNat_inj.mp
  rwa [UInt8.toNat_ofNat']

theorem decode_encode (bs : List UInt8) : decode (encode bs) = some bs := by
  induction bs using encode.induct with
  | case1 => rfl
  | case2 a =>
    have ha := a.toNat_lt
    simp only [encode, quantum, take, cons_append, nil_append, decode, and_self, if_true,
      digit_char (Nat.mod_lt _ (by decide : 0 < 64)), bytes, Option.pure_def, Option.bind_eq_bind,
      Option.bind_some, Option.some.injEq, cons.injEq, and_true]
    exact ofNat_eq (by omega)
  | case3 a b =>
    have ha := a.toNat_lt
    have hb := b.toNat_lt
    simp only [encode, quantum, take, cons_append, nil_append, decode, and_self, if_true,
      char_ne_pad, if_false,
      digit_char (Nat.mod_lt _ (by decide : 0 < 64)), bytes, Option.pure_def, Option.bind_eq_bind,
      Option.bind_some, Option.some.injEq, cons.injEq, and_true]
    exact ⟨ofNat_eq (by omega), ofNat_eq (by omega)⟩
  | case4 a b c rest ih =>
    have ha := a.toNat_lt
    have hb := b.toNat_lt
    have hc := c.toNat_lt
    simp only [encode, quantum, cons_append, nil_append, decode, char_ne_pad, false_and,
      if_false, digit_char (Nat.mod_lt _ (by decide : 0 < 64)), ih, bytes, Option.pure_def,
      Option.bind_eq_bind, Option.bind_some, Option.some.injEq, cons.injEq, and_true]
    exact ⟨ofNat_eq (by omega), ofNat_eq (by omega), ofNat_eq (by omega)⟩

end Rfc4648
