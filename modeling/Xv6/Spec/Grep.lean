import Xv6.Spec.Split

/-! The matcher of `grep.c`. Strings are lists of bytes, without the NUL at their end. -/

namespace Xv6.Grep

def caret : UInt8 := '^'.toUInt8
def star : UInt8 := '*'.toUInt8
def dollar : UInt8 := '$'.toUInt8
def dot : UInt8 := '.'.toUInt8

/-- `matchstar`: search for `c*re` at the beginning of the text, where `here` is `matchhere(re, ·)`. -/
def matchstar (here : Str → Bool) (c : UInt8) : Str → Bool
  | [] => here []
  | t :: text =>
    if here (t :: text) then true
    else if t = c ∨ c = dot then matchstar here c text
    else false

def matchchar (here : Str → Bool) (c : UInt8) : Str → Bool
  | [] => false
  | t :: text => if c = dot ∨ c = t then here text else false

/-- `matchhere`: search for `re` at the beginning of the text. Every call that it and `matchstar`
make is for a shorter pattern or, for the same pattern, a shorter text. -/
def matchhere : Str → Str → Bool
  | [], _ => true
  | [c], text => if c = dollar then text = [] else matchchar (matchhere []) c text
  | c :: s :: re, text =>
    if s = star then matchstar (matchhere re) c text else matchchar (matchhere (s :: re)) c text

/-- The loop of `match`, which looks at the empty string too. -/
def matchFrom (re : Str) : Str → Bool
  | [] => matchhere re []
  | t :: text => if matchhere re (t :: text) then true else matchFrom re text

def matchRegexp (re text : Str) : Bool :=
  if re.head? = some caret then matchhere re.tail text else matchFrom re text

end Xv6.Grep
