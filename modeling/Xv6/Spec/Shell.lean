import Xv6.Spec.Param

/-! The shell of `sh.c`: command trees, `runcmd` on the descriptor tables of the processes it
forks, and the recursive-descent parser. Memory for the nodes of a tree is always there. -/

namespace Xv6.Shell

/-! ### Commands -/

/-- The two kinds of redirection the parser builds: `<`, and `>` which `>>` is taken for. -/
inductive Redir where
  | input
  | output
deriving DecidableEq, Repr

def O_RDONLY : ℕ := 0x000
def O_WRONLY : ℕ := 0x001
def O_CREATE : ℕ := 0x200

def Redir.mode : Redir → ℕ
  | input => O_RDONLY
  | output => O_WRONLY ||| O_CREATE

def Redir.fd : Redir → Fin NOFILE
  | input => ⟨0, by decide⟩
  | output => ⟨1, by decide⟩

inductive Cmd (α : Type) where
  | exec (argv : List α)
  | redir (cmd : Cmd α) (file : α) (kind : Redir)
  | pipe (left right : Cmd α)
  | list (left right : Cmd α)
  | back (cmd : Cmd α)
deriving DecidableEq, Repr

namespace Cmd

variable {α β : Type}

def map (f : α → β) : Cmd α → Cmd β
  | exec argv => exec (argv.map f)
  | redir cmd file kind => redir (cmd.map f) (f file) kind
  | pipe left right => pipe (left.map f) (right.map f)
  | list left right => list (left.map f) (right.map f)
  | back cmd => back (cmd.map f)

end Cmd

/-! ### Running a command -/

inductive Dir where
  | down
  | left
  | right
deriving DecidableEq, Repr

abbrev Path := List Dir

/-- What a descriptor refers to: something opened before the command ran, the file a REDIR node
opened, or an end of the pipe a PIPE node created. -/
inductive Res (R α : Type) where
  | outer (r : R)
  | file (at' : Path) (name : α) (mode : ℕ)
  | read (at' : Path)
  | write (at' : Path)
deriving DecidableEq, Repr

abbrev Fds (F : Type) := Fin NOFILE → Option F

namespace Fds

variable {F : Type}

def fdalloc (t : Fds F) (f : F) : Option (Fin NOFILE × Fds F) :=
  (Fin.find? fun fd => (t fd).isNone).map fun fd => (fd, Function.update t fd (some f))

def close (t : Fds F) (fd : Fin NOFILE) : Fds F := Function.update t fd none

/-- `open` and `dup` fail on a full table, `dup` on a closed descriptor too. -/
def openFile (t : Fds F) (f : F) : Option (Fds F) := (t.fdalloc f).map Prod.snd

def dup (t : Fds F) (fd : Fin NOFILE) : Option (Fds F) :=
  (t fd).bind t.openFile

def pipe (t : Fds F) (rf wf : F) : Option (Fin NOFILE × Fin NOFILE × Fds F) :=
  (t.fdalloc rf).bind fun (fd0, t) => (t.fdalloc wf).map fun (fd1, t) => (fd0, fd1, t)

end Fds

/-- A call of `exec`: the EXEC node it is made for, its arguments and the descriptors. -/
structure Program (R α : Type) where
  node : Path
  argv : List α
  ofile : Fds (Res R α)

variable {R α : Type}

/-- `runcmd`, at the node `π`, in a process with the table `t`: the programs it and the
processes it forks execute, or `none` where a call fails for want of a descriptor. -/
def runcmd : Cmd α → Path → Fds (Res R α) → Option (List (Program R α))
  | .exec [], _, _ => some []
  | .exec (a :: argv), π, t => some [⟨π, a :: argv, t⟩]
  | .redir cmd file kind, π, t => do
    let t ← (t.close kind.fd).openFile (.file π file kind.mode)
    runcmd cmd (π ++ [.down]) t
  | .list left right, π, t => do
    let ps ← runcmd left (π ++ [.left]) t
    let qs ← runcmd right (π ++ [.right]) t
    pure (ps ++ qs)
  | .pipe left right, π, t => do
    let (p0, p1, t) ← t.pipe (.read π) (.write π)
    let tl ← (t.close ⟨1, by decide⟩).dup p1
    let ps ← runcmd left (π ++ [.left]) ((tl.close p0).close p1)
    let tr ← (t.close ⟨0, by decide⟩).dup p0
    let qs ← runcmd right (π ++ [.right]) ((tr.close p0).close p1)
    pure (ps ++ qs)
  | .back cmd, π, t => runcmd cmd (π ++ [.down]) t

/-! ### Parsing

The cursor `*ps` is the text from it to `es`, and so is every pointer into the line. -/

abbrev Text := List UInt8

def whitespace : Text := [' ', '\t', '\r', '\n', '\x0b'].map Char.toUInt8
def symbols : Text := ['<', '|', '>', '&', ';', '(', ')'].map Char.toUInt8
def MAXARGS : ℕ := 10

def skip (s : Text) : Text := s.dropWhile (· ∈ whitespace)

def isWord (c : UInt8) : Bool := c ∉ whitespace && c ∉ symbols

/-- What `gettoken` returns: 0 at the end, the symbol, '+' for `>>`, or 'a' for a word. -/
inductive Tok where
  | eof
  | bar
  | lparen
  | rparen
  | semi
  | amp
  | lt
  | gt
  | append
  | word
deriving DecidableEq, Repr

/-- The `switch` of `gettoken`: what it returns and where the token ends. -/
def scan : Text → Tok × Text
  | [] => (.eof, [])
  | c :: s =>
    if c = 0 then (.eof, c :: s)
    else if c = '|'.toUInt8 then (.bar, s)
    else if c = '('.toUInt8 then (.lparen, s)
    else if c = ')'.toUInt8 then (.rparen, s)
    else if c = ';'.toUInt8 then (.semi, s)
    else if c = '&'.toUInt8 then (.amp, s)
    else if c = '<'.toUInt8 then (.lt, s)
    else if c = '>'.toUInt8 then
      if s.head? = some '>'.toUInt8 then (.append, s.tail) else (.gt, s)
    else (.word, (c :: s).dropWhile isWord)

structure Span where
  q : Text
  eq : Text
deriving DecidableEq, Repr

def gettoken (s : Text) : Tok × Span × Text :=
  let q := skip s
  let (ret, eq) := scan q
  (ret, ⟨q, eq⟩, skip eq)

def peek (s : Text) (toks : List Char) : Bool × Text :=
  let s := skip s
  (s.head?.any fun c => c ≠ 0 ∧ c ∈ toks.map Char.toUInt8, s)

/-- The panics of the parser, and a bound on a loop that was too small. -/
inductive Failure where
  | panic (msg : String)
  | fuel
deriving DecidableEq, Repr

abbrev Parse := Except Failure (Cmd Span × Text)

/-- `parseredirs`, for at most `fuel` rounds of its loop. -/
def parseredirs : ℕ → Cmd Span → Text → Parse
  | 0, _, _ => .error .fuel
  | fuel + 1, cmd, s =>
    let (more, s) := peek s ['<', '>']
    if !more then .ok (cmd, s)
    else
      let (tok, _, s) := gettoken s
      let (tok', file, s) := gettoken s
      if tok' ≠ .word then .error (.panic "missing file for redirection")
      else
        match tok with
        | .lt => parseredirs fuel (.redir cmd file .input) s
        | .gt => parseredirs fuel (.redir cmd file .output) s
        | .append => parseredirs fuel (.redir cmd file .output) s
        | _ => parseredirs fuel cmd s

/-- `cmd->argv[argc] = q` where `cmd` is the EXEC node below the redirections of `ret`. -/
def Cmd.push (w : α) : Cmd α → Cmd α
  | .exec argv => .exec (argv ++ [w])
  | .redir cmd file kind => .redir (cmd.push w) file kind
  | cmd => cmd

/-- The loop of `parseexec` over the words of a command. -/
def parseargs : ℕ → ℕ → Cmd Span → Text → Parse
  | 0, _, _, _ => .error .fuel
  | fuel + 1, argc, ret, s =>
    let (stop, s) := peek s ['|', ')', '&', ';']
    if stop then .ok (ret, s)
    else
      let (tok, w, s) := gettoken s
      if tok = .eof then .ok (ret, s)
      else if tok ≠ .word then .error (.panic "syntax")
      else if MAXARGS ≤ argc + 1 then .error (.panic "too many args")
      else do
        let (ret, s) ← parseredirs (s.length + 1) (ret.push w) s
        parseargs fuel (argc + 1) ret s

section

variable (parseline : Text → Parse)

def parseblock (s : Text) : Parse :=
  let (opened, s) := peek s ['(']
  if !opened then .error (.panic "parseblock")
  else do
    let (_, _, s) := gettoken s
    let (cmd, s) ← parseline s
    let (closed, s) := peek s [')']
    if !closed then .error (.panic "syntax - missing )")
    else
      let (_, _, s) := gettoken s
      parseredirs (s.length + 1) cmd s

def parseexec (s : Text) : Parse :=
  let (block, s) := peek s ['(']
  if block then parseblock parseline s
  else do
    let (ret, s) ← parseredirs (s.length + 1) (.exec []) s
    parseargs (s.length + 1) 0 ret s

def parsepipe : ℕ → Text → Parse
  | 0, _ => .error .fuel
  | fuel + 1, s => do
    let (cmd, s) ← parseexec parseline s
    let (more, s) := peek s ['|']
    if !more then .ok (cmd, s)
    else
      let (_, _, s) := gettoken s
      let (right, s) ← parsepipe fuel s
      .ok (.pipe cmd right, s)

end

/-- The loop of `parseline` over trailing ampersands. -/
def parsebacks : ℕ → Cmd Span → Text → Parse
  | 0, _, _ => .error .fuel
  | fuel + 1, cmd, s =>
    let (more, s) := peek s ['&']
    if !more then .ok (cmd, s)
    else
      let (_, _, s) := gettoken s
      parsebacks fuel (.back cmd) s

def parseline : ℕ → Text → Parse
  | 0, _ => .error .fuel
  | fuel + 1, s => do
    let (cmd, s) ← parsepipe (parseline fuel) (s.length + 1) s
    let (cmd, s) ← parsebacks (s.length + 1) cmd s
    let (more, s) := peek s [';']
    if !more then .ok (cmd, s)
    else
      let (_, _, s) := gettoken s
      let (right, s) ← parseline fuel s
      .ok (.list cmd right, s)

/-- The places, counted back from `es`, where `nulterminate` stores a NUL. -/
def nulterminate : Cmd Span → List ℕ
  | .exec argv => argv.map fun w => w.eq.length
  | .redir cmd file _ => nulterminate cmd ++ [file.eq.length]
  | .pipe left right => nulterminate left ++ nulterminate right
  | .list left right => nulterminate left ++ nulterminate right
  | .back cmd => nulterminate cmd

/-- The C string at a pointer into the line, once the places `nuls` hold a NUL. -/
def cstring (nuls : List ℕ) : Text → Text
  | [] => []
  | c :: s => if c = 0 ∨ s.length + 1 ∈ nuls then [] else c :: cstring nuls s

def parsecmd (line : Text) : Except Failure (Cmd Text) := do
  let (cmd, s) ← parseline (line.length + 1) line
  let (_, s) := peek s []
  if s ≠ [] then .error (.panic "syntax")
  else .ok (cmd.map fun w => cstring (nulterminate cmd) w.q)

end Xv6.Shell
