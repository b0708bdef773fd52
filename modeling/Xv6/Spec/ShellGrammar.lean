import Xv6.Spec.Shell

/-! The command language of the shell: the tokens of a line and the grammar, with the tree each
derivation stands for. Nothing here looks at how `sh.c` reads a line. -/

namespace Xv6.Shell

inductive Token where
  | bar
  | lparen
  | rparen
  | semi
  | amp
  | lt
  | gt
  | append
  | word (w : Text)
deriving DecidableEq, Repr

def single (c : UInt8) : Option Token :=
  if c = '|'.toUInt8 then some .bar
  else if c = '('.toUInt8 then some .lparen
  else if c = ')'.toUInt8 then some .rparen
  else if c = ';'.toUInt8 then some .semi
  else if c = '&'.toUInt8 then some .amp
  else if c = '<'.toUInt8 then some .lt
  else none

/-- The tokens of a line: symbols, and maximal words of other characters. -/
def tokens : Text → List Token
  | [] => []
  | c :: s =>
    if c ∈ whitespace then tokens s
    else if c = '>'.toUInt8 then
      if s.head? = some '>'.toUInt8 then .append :: tokens s.tail else .gt :: tokens s
    else
      match single c with
      | some t => t :: tokens s
      | none => .word (c :: s.takeWhile isWord) :: tokens (s.dropWhile isWord)
termination_by s => s.length
decreasing_by
  all_goals
    have := (List.dropWhile_suffix isWord (l := s)).length_le
    simp
    try omega

abbrev Redirection := Redir × Text

def Token.redir : Token → Option Redir
  | lt => some .input
  | gt => some .output
  | append => some .output
  | _ => none

inductive Redirs : List Token → List Redirection → Prop
  | nil : Redirs [] []
  | cons {t : Token} {k : Redir} {w : Text} {ts : List Token} {rs : List Redirection}
      (hk : t.redir = some k) (h : Redirs ts rs) : Redirs (t :: .word w :: ts) ((k, w) :: rs)

/-- args ::= {word {redir}}, with the words and the redirections in order. -/
inductive Args : List Token → List Text → List Redirection → Prop
  | nil : Args [] [] []
  | cons {w : Text} {ts us : List Token} {ws : List Text} {rs rs' : List Redirection}
      (hredirs : Redirs ts rs) (h : Args us ws rs') :
      Args (.word w :: (ts ++ us)) (w :: ws) (rs ++ rs')

def wrap {α : Type} (cmd : Cmd α) (rs : List (Redir × α)) : Cmd α :=
  rs.foldl (fun cmd r => .redir cmd r.2 r.1) cmd

inductive Nonterminal where
  | line
  | pipe
  | exec

inductive Derives : Nonterminal → List Token → Cmd Text → Prop
  /-- line ::= pipe {'&'} -/
  | line {ts : List Token} {cmd : Cmd Text} (n : ℕ) (h : Derives .pipe ts cmd) :
      Derives .line (ts ++ List.replicate n .amp) (Cmd.back^[n] cmd)
  /-- line ::= pipe {'&'} ';' line -/
  | seq {ts us : List Token} {cmd right : Cmd Text} (n : ℕ) (h : Derives .pipe ts cmd)
      (hright : Derives .line us right) :
      Derives .line (ts ++ List.replicate n .amp ++ .semi :: us) (.list (Cmd.back^[n] cmd) right)
  /-- pipe ::= exec -/
  | pipe {ts : List Token} {cmd : Cmd Text} (h : Derives .exec ts cmd) : Derives .pipe ts cmd
  /-- pipe ::= exec '|' pipe -/
  | bar {ts us : List Token} {cmd right : Cmd Text} (h : Derives .exec ts cmd)
      (hright : Derives .pipe us right) : Derives .pipe (ts ++ .bar :: us) (.pipe cmd right)
  /-- exec ::= '(' line ')' {redir} -/
  | block {ts us : List Token} {cmd : Cmd Text} {rs : List Redirection}
      (h : Derives .line ts cmd) (hredirs : Redirs us rs) :
      Derives .exec (.lparen :: ts ++ .rparen :: us) (wrap cmd rs)
  /-- exec ::= {redir} {word {redir}} -/
  | words {ts us : List Token} {ws : List Text} {rs rs' : List Redirection}
      (hredirs : Redirs ts rs) (hargs : Args us ws rs') (hlen : ws.length < MAXARGS) :
      Derives .exec (ts ++ us) (wrap (.exec ws) (rs ++ rs'))

end Xv6.Shell
