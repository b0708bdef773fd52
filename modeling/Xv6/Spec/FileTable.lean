import Xv6.Lib.Exec
import Xv6.Lib.Run
import Xv6.Spec.Ptable
import Xv6.Spec.Syscall

/-! The file table of `file.c`, the descriptors of all processes, and the pipes, with the system
calls that work on them. Of the file system it has what `readi` and `writei` test. A process is
between two system calls, or the call runs to its end. -/

namespace Xv6.FileTable

open Ptable (ProcState)

structure File (I : Type) where
  type : FileType := .none
  ref : ℤ := 0
  readable : Bool := false
  writable : Bool := false
  pipe : ℕ := 0
  ip : Option I := none
  off : ℕ := 0

structure Pipe where
  readopen : Bool
  writeopen : Bool
deriving DecidableEq, Repr

structure Inode where
  type : Short
  major : Short
  size : ℕ

structure Files (I : Type) where
  file : Fin NFILE → File I
  pipes : ℕ → Option Pipe
  inode : I → Inode

structure State (I : Type) where
  files : Files I
  /-- `ptable.proc[i].ofile[fd]` -/
  ofile : Fin NPROC × Fin NOFILE → Option (Fin NFILE)
  state : Fin NPROC → ProcState

/-- The panics of `file.c`, and the use of a pipe whose page has been freed. -/
inductive Panic where
  | filedup
  | fileclose
  | fileread
  | filewrite
  | shortFilewrite
  | freedPipe
deriving DecidableEq, Repr

variable {I : Type} [DecidableEq I]

/-- The first entry of a table that passes a test. It is not to be unfolded by unification: the
tables are long. -/
@[irreducible] def lowest {n : ℕ} (test : Fin n → Bool) : Option (Fin n) := Fin.find? test

/-! ### Files and pipes -/

abbrev FilesM (I : Type) := Exec (Files I) Panic

def Files.setFile (f : Fin NFILE) (file : File I) (s : Files I) : Files I :=
  { s with file := Function.update s.file f file }

def Files.setPipe (p : ℕ) (pipe : Option Pipe) (s : Files I) : Files I :=
  { s with pipes := Function.update s.pipes p pipe }

def filealloc : FilesM I (Option (Fin NFILE)) := do
  let s ← Exec.get
  match lowest fun f => (s.file f).ref = 0 with
  | none => pure none
  | some f => do
    Exec.modify (Files.setFile f { s.file f with ref := 1 })
    pure (some f)

def filedup (f : Fin NFILE) : FilesM I Unit := do
  let s ← Exec.get
  if (s.file f).ref < 1 then Exec.halt .filedup
  else Exec.modify (Files.setFile f { s.file f with ref := (s.file f).ref + 1 })

def pipeclose (p : ℕ) (writable : Bool) : FilesM I Unit := do
  let s ← Exec.get
  match s.pipes p with
  | none => Exec.halt .freedPipe
  | some pipe =>
    let pipe := if writable then { pipe with writeopen := false } else { pipe with readopen := false }
    if !pipe.readopen && !pipe.writeopen then Exec.modify (Files.setPipe p none)
    else Exec.modify (Files.setPipe p (some pipe))

def fileclose (f : Fin NFILE) : FilesM I Unit := do
  let s ← Exec.get
  let ff := s.file f
  if ff.ref < 1 then Exec.halt .fileclose
  else if ff.ref - 1 > 0 then Exec.modify (Files.setFile f { ff with ref := ff.ref - 1 })
  else do
    Exec.modify (Files.setFile f { ff with ref := 0, type := .none })
    -- `iput` of an inode does not touch the file table
    if ff.type = .pipe then pipeclose ff.pipe ff.writable else pure ()

def Files.newPipe (p : ℕ) (f0 f1 : Fin NFILE) (s : Files I) : Files I :=
  let s := s.setPipe p (some ⟨true, true⟩)
  let s := s.setFile f0
    { s.file f0 with type := .pipe, readable := true, writable := false, pipe := p }
  s.setFile f1 { s.file f1 with type := .pipe, readable := false, writable := true, pipe := p }

def pipealloc (page : Option ℕ) : FilesM I (Option (Fin NFILE × Fin NFILE)) := do
  match ← filealloc with
  | none => pure none
  | some f0 => do
    match ← filealloc with
    | none => do
      fileclose f0
      pure none
    | some f1 => do
      match page with
      | none => do
        fileclose f0
        fileclose f1
        pure none
      | some p => do
        Exec.modify (Files.newPipe p f0 f1)
        pure (some (f0, f1))

def CONSOLE : Short := 1

def readi (ip : Inode) (off n : ℕ) (cons : ℤ) : ℤ :=
  if ip.type = T_DEV then if ip.major = CONSOLE then cons else -1
  else if off > ip.size ∨ (off + n) % 2 ^ 32 < off then -1
  else if off + n > ip.size then ip.size - off
  else n

/-- What `writei` returns, and the size it leaves. `consolewrite` returns `n`. -/
def writei (ip : Inode) (off n : ℕ) : ℤ × Inode :=
  if ip.type = T_DEV then if ip.major = CONSOLE then (n, ip) else (-1, ip)
  else if off > ip.size ∨ (off + n) % 2 ^ 32 < off then (-1, ip)
  else if off + n > MAXFILE * BSIZE then (-1, ip)
  else (n, if 0 < n ∧ off + n > ip.size then { ip with size := off + n } else ip)

def fileread (f : Fin NFILE) (n : ℕ) (other : ℤ) : FilesM I ℤ := do
  let s ← Exec.get
  let file := s.file f
  if !file.readable then pure (-1)
  else
    match file.type, file.ip with
    | .pipe, _ => pure other
    | .inode, some ip => do
      let r := readi (s.inode ip) file.off n other
      (if r > 0 then Exec.modify (Files.setFile f { file with off := (file.off + r.toNat) % 2 ^ 32 })
        else pure ())
      pure r
    | _, _ => Exec.halt .fileread

/-- The loop of `filewrite` over the `n` bytes that are left, for at most `k` rounds: whether all
were written. -/
def filewriteFrom (f : Fin NFILE) (ip : I) : ℕ → ℕ → FilesM I Bool
  | 0, n => pure (n = 0)
  | k + 1, n =>
    if n = 0 then pure true
    else do
      let n1 := min n (FsOps.maxPiece)
      let s ← Exec.get
      let file := s.file f
      let (r, ip') := writei (s.inode ip) file.off n1
      Exec.modify fun s => { s with inode := Function.update s.inode ip ip' }
      (if r > 0 then Exec.modify (Files.setFile f { file with off := (file.off + r.toNat) % 2 ^ 32 })
        else pure ())
      if r < 0 then pure false
      else if r ≠ n1 then Exec.halt .shortFilewrite
      else filewriteFrom f ip k (n - n1)

def filewrite (f : Fin NFILE) (n : ℕ) (other : ℤ) : FilesM I ℤ := do
  let s ← Exec.get
  let file := s.file f
  if !file.writable then pure (-1)
  else
    match file.type, file.ip with
    | .pipe, _ => pure other
    | .inode, some ip => do
      let all ← filewriteFrom f ip n n
      pure (if all then n else -1)
    | _, _ => Exec.halt .filewrite

/-! ### System calls -/

abbrev M (I : Type) := Exec (State I) Panic

def files {α : Type} (m : FilesM I α) : M I α :=
  Exec.zoom State.files (fun t s => { s with files := t }) m

def setOfile (x : Fin NPROC × Fin NOFILE) (f : Option (Fin NFILE)) : M I Unit :=
  Exec.modify fun s => { s with ofile := Function.update s.ofile x f }

def setState (p : Fin NPROC) (st : ProcState) : M I Unit :=
  Exec.modify fun s => { s with state := Function.update s.state p st }

def argfd (p : Fin NPROC) (fd : ℤ) : M I (Option (Fin NOFILE × Fin NFILE)) := do
  let s ← Exec.get
  pure (if h : 0 ≤ fd ∧ fd < NOFILE then
    (s.ofile (p, ⟨fd.toNat, toNat_lt_nofile h⟩)).map (⟨fd.toNat, toNat_lt_nofile h⟩, ·) else none)

def fdalloc (p : Fin NPROC) (f : Fin NFILE) : M I (Option (Fin NOFILE)) := do
  let s ← Exec.get
  match lowest fun fd => (s.ofile (p, fd)).isNone with
  | none => pure none
  | some fd => do
    setOfile (p, fd) (some f)
    pure (some fd)

def sysDup (p : Fin NPROC) (fd : ℤ) : M I ℤ := do
  match ← argfd p fd with
  | none => pure (-1)
  | some (_, f) => do
    match ← fdalloc p f with
    | none => pure (-1)
    | some fd => do
      files (filedup f)
      pure fd

def sysClose (p : Fin NPROC) (fd : ℤ) : M I ℤ := do
  match ← argfd p fd with
  | none => pure (-1)
  | some (fd, f) => do
    setOfile (p, fd) none
    files (fileclose f)
    pure 0

/-- `sys_open`, from the inode that `create` or `namei` found and the test for directories let
pass. -/
def sysOpen (p : Fin NPROC) (found : Option I) (omode : BitVec 32) : M I ℤ := do
  match found with
  | none => pure (-1)
  | some ip => do
    match ← files filealloc with
    | none => pure (-1)
    | some f => do
      match ← fdalloc p f with
      | none => do
        files (fileclose f)
        pure (-1)
      | some fd => do
        files (Exec.modify fun s => s.setFile f { s.file f with
          type := .inode
          ip := some ip
          off := 0
          readable := omode &&& O_WRONLY == 0
          writable := omode &&& O_WRONLY != 0 || omode &&& O_RDWR != 0 })
        pure fd

def sysPipe (p : Fin NPROC) (arg : Bool) (page : Option ℕ) : M I ℤ := do
  if !arg then pure (-1)
  else do
    match ← files (pipealloc page) with
    | none => pure (-1)
    | some (rf, wf) => do
      match ← fdalloc p rf with
      | none => do
        files (fileclose rf)
        files (fileclose wf)
        pure (-1)
      | some fd0 => do
        match ← fdalloc p wf with
        | none => do
          setOfile (p, fd0) none
          files (fileclose rf)
          files (fileclose wf)
          pure (-1)
        | some _ => pure 0

/-- The loop of `fork` over the descriptors. -/
def copyFiles (p np : Fin NPROC) : List (Fin NOFILE) → M I Unit
  | [] => pure ()
  | fd :: fds => do
    let s ← Exec.get
    match s.ofile (p, fd) with
    | none => pure ()
    | some f => do
      files (filedup f)
      setOfile (np, fd) (some f)
    copyFiles p np fds

/-- `fork`, with whether there is memory for the kernel stack and for the copy of the process. -/
def fork (p : Fin NPROC) (kstack pgdir : Bool) : M I ℤ := do
  let s ← Exec.get
  match lowest fun np => s.state np = .unused with
  | none => pure (-1)
  | some np => do
    setState np .embryo
    if !kstack || !pgdir then do
      setState np .unused
      pure (-1)
    else do
      copyFiles p np (List.finRange NOFILE)
      setState np .runnable
      pure 0

/-- The loop of `exit` over the descriptors. -/
def closeFiles (p : Fin NPROC) : List (Fin NOFILE) → M I Unit
  | [] => pure ()
  | fd :: fds => do
    let s ← Exec.get
    match s.ofile (p, fd) with
    | none => pure ()
    | some f => do
      files (fileclose f)
      setOfile (p, fd) none
    closeFiles p fds

def exit (p : Fin NPROC) : M I ℤ := do
  closeFiles p (List.finRange NOFILE)
  setState p .zombie
  pure 0

def reap (p : Fin NPROC) : M I ℤ := do
  setState p .unused
  pure 0

def sysRead (p : Fin NPROC) (fd : ℤ) (n : ℕ) (other : ℤ) : M I ℤ := do
  match ← argfd p fd with
  | none => pure (-1)
  | some (_, f) => files (fileread f n other)

def sysWrite (p : Fin NPROC) (fd : ℤ) (n : ℕ) (other : ℤ) : M I ℤ := do
  match ← argfd p fd with
  | none => pure (-1)
  | some (_, f) => files (filewrite f n other)

/-! ### Runs -/

inductive Act (I : Type) where
  | sysOpen (p : Fin NPROC) (found : Option I) (omode : BitVec 32)
  | sysPipe (p : Fin NPROC) (arg : Bool) (page : Option ℕ)
  | sysDup (p : Fin NPROC) (fd : ℤ)
  | sysClose (p : Fin NPROC) (fd : ℤ)
  | fork (p : Fin NPROC) (kstack pgdir : Bool)
  | exit (p : Fin NPROC)
  | wait (p child : Fin NPROC)
  | sysRead (p : Fin NPROC) (fd : ℤ) (n : ℕ) (other : ℤ)
  | sysWrite (p : Fin NPROC) (fd : ℤ) (n : ℕ) (other : ℤ)

def Act.run : Act I → M I ℤ
  | sysOpen p found omode => FileTable.sysOpen p found omode
  | sysPipe p arg page => FileTable.sysPipe p arg page
  | sysDup p fd => FileTable.sysDup p fd
  | sysClose p fd => FileTable.sysClose p fd
  | fork p kstack pgdir => FileTable.fork p kstack pgdir
  | exit p => FileTable.exit p
  | wait _ child => reap child
  | sysRead p fd n other => FileTable.sysRead p fd n other
  | sysWrite p fd n other => FileTable.sysWrite p fd n other

def Act.proc : Act I → Fin NPROC
  | sysOpen p _ _ | sysPipe p _ _ | sysDup p _ | sysClose p _ | fork p _ _ | exit p | wait p _
  | sysRead p _ _ _ | sysWrite p _ _ _ => p

/-- The process exists, `kalloc` returns a page that is free, `wait` finds a zombie, and `initproc`
does not exit. -/
def Act.Legal (s : State I) (a : Act I) : Prop :=
  s.state a.proc ∉ [ProcState.unused, .embryo, .zombie] ∧
    match a with
    | sysPipe _ _ (some page) => s.files.pipes page = none
    | exit p => p.val ≠ 0
    | wait _ child => s.state child = .zombie
    | _ => True

def step (s : State I) (a : Act I) : Option (State I) :=
  match a.run s with
  | .ok _ s' => some s'
  | .halt _ _ => none

def userinit (inode : I → Inode) : State I where
  files := ⟨fun _ => {}, fun _ => none, inode⟩
  ofile := fun _ => none
  state := fun p => if p.val = 0 then .runnable else .unused

end Xv6.FileTable
