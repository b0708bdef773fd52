import Xv6.Lib.Prog
import Xv6.Spec.Syscall

/-! The file system used by any number of processes, over any storage of inodes. A process
is interrupted where it waits for the lock of an inode or for the log, after it has let go of
one of them, and where it enters a function on an inode that waits for the disk. -/

namespace Xv6

open Function Prog

structure Volume (T : Type) where
  data : T
  icache : Ptr → Inode
  log : Log

abbrev VolumeM (T : Type) := Exec (Volume T) Stop

structure Storage (T : Type) where
  ninodes : T → ℕ
  dinode : T → ℕ → Dinode
  setDinode (inum : ℕ) (d : Dinode) : VolumeM T Unit
  truncBlocks (ip : Ptr) : VolumeM T Unit
  readFrom (ip : Ptr) (off n : ℕ) : VolumeM T (List UInt8)
  writeFrom (ip : Ptr) (off : ℕ) (src : List UInt8) : VolumeM T ℕ

structure Proc where
  ofile : Fin NOFILE → Option (Fin NFILE)
  cwd : Option Ptr
  isInit : Bool

def Proc.fds (pr : Proc) (f : Fin NFILE) : ℕ := (Finset.univ.filter fun fd => pr.ofile fd = some f).card

/-- The system calls, with the arguments they fetch and what they learn from outside the file
system. -/
inductive Call (n : ℕ) where
  | sysOpen (args : Option (Str × BitVec 32))
  | sysClose (fd : Option ℤ)
  | sysDup (fd : Option ℤ)
  | sysRead (fd : Option ℤ) (len : Option ℕ) (pipe : ℤ × List UInt8)
  | sysWrite (fd : Option ℤ) (src : Option (List UInt8)) (pipe : ℤ)
  | sysFstat (fd : Option ℤ) (st : Bool)
  | sysLink (args : Option (Str × Str))
  | sysUnlink (path : Option Str)
  | sysMkdir (path : Option Str)
  | sysMknod (args : Option (Str × ℤ × ℤ))
  | sysChdir (path : Option Str)
  | sysChmod (args : Option (Str × ℤ))
  | sysExec (path : Option Str) (vm : Vm)
  /-- `child` is the entry of the process table that `allocproc` finds -/
  | fork (child : Fin n)
  | exit

/-- Process `proc` did `access` to `ip`: who held the lock of `ip` at that moment, and
whether `proc` was between its own `begin_op` and `end_op`. -/
structure Event (n : ℕ) where
  proc : Fin n
  access : Access
  ip : Ptr
  holder : Option ℕ
  inOp : Bool
deriving DecidableEq

/-- The kernel with its `n` processes. `call` is what a process is executing. The last four
fields are history: the calls of `begin_op` of a process less those of `end_op`, the references to
cache entries that a process has taken and not given back or passed on to an open file, those to
open files, and the events, newest first. -/
structure Kernel (T : Type) (n : ℕ) extends Volume T where
  ftable : Fin NFILE → File
  devsw : Fin NDEV → Devsw
  proc : Fin n → Proc
  call : Fin n → Option (Call n)
  depth : Fin n → ℕ
  iref : Fin n → Ptr → ℤ
  fref : Fin n → Fin NFILE → ℤ
  events : List (Event n)

def opened (ftable : Fin NFILE → File) (ip : Ptr) : ℕ :=
  (Finset.univ.filter fun f => (ftable f).type = .inode ∧ (ftable f).ip = ip).card

abbrev KernelM (T : Type) (n : ℕ) := Prog (Kernel T n) Stop

namespace Kernel

variable {T : Type} {n : ℕ}

def cwds (k : Kernel T n) (ip : Ptr) : ℕ := (Finset.univ.filter fun p => (k.proc p).cwd = some ip).card

def event (k : Kernel T n) (p : Fin n) (a : Access) (ip : Ptr) : Event n :=
  ⟨p, a, ip, (k.icache ip).lock, 0 < k.depth p⟩

/-- Process `p` takes the volume to `v`. Changes of `ref` are on its account. -/
def setVolume (k : Kernel T n) (p : Fin n) (v : Volume T) : Kernel T n :=
  { k with
    toVolume := v
    iref := update k.iref p fun ip =>
      k.iref p ip + ((v.icache ip).ref - (k.icache ip).ref)
    events := ((List.finRange NINODE).filter fun ip => (v.icache ip).d ≠ (k.icache ip).d).map
      (k.event p .assign) ++ k.events }

/-- Process `p` changes the file table. A reference to an inode passes to the file that is
opened on it, and back to the process when the file is closed. -/
def setFtable (k : Kernel T n) (p : Fin n) (ftable : Fin NFILE → File) : Kernel T n :=
  { k with
    ftable := ftable
    iref := update k.iref p fun ip =>
      k.iref p ip - (opened ftable ip - opened k.ftable ip : ℤ)
    fref := update k.fref p fun f =>
      k.fref p f + ((ftable f).ref - (k.ftable f).ref) }

def setProc (k : Kernel T n) (p : Fin n) (pr : Proc) : Kernel T n :=
  { k with proc := update k.proc p pr }

def setLock (k : Kernel T n) (ip : Ptr) (l : Option ℕ) : Kernel T n :=
  { k with icache := update k.icache ip { k.icache ip with lock := l } }

def setCall (k : Kernel T n) (p : Fin n) (c : Option (Call n)) : Kernel T n :=
  { k with call := update k.call p c }

def setDepth (k : Kernel T n) (p : Fin n) (d : ℕ) : Kernel T n :=
  { k with depth := update k.depth p d }

def mark (k : Kernel T n) (p : Fin n) (a : Access) (ip : Ptr) : Kernel T n :=
  { k with events := k.event p a ip :: k.events }

def onVolume {α : Type} (p : Fin n) (m : VolumeM T α) : KernelM T n α := lift fun k =>
  match m k.toVolume with
  | .ok a v => .ok a (k.setVolume p v)
  | .halt e v => .halt e (k.setVolume p v)

def acquiresleep (p : Fin n) (ip : Ptr) : KernelM T n Unit := do
  await fun k => (k.icache ip).lock.isNone
  modify fun k => k.setLock ip (some p)

def releasesleep (ip : Ptr) : KernelM T n Unit := do
  modify fun k => k.setLock ip none
  await fun _ => true

def beginOp (p : Fin n) : KernelM T n Unit := do
  await fun k => k.log.beginOp.isSome
  modify fun k => { k.setDepth p (k.depth p + 1) with log := k.log.beginOp.getD k.log }

/-- With its `commit`, which leaves the log empty and `committing` clear. -/
def endOp (p : Fin n) : KernelM T n Unit := do
  let k ← get
  match k.log.endOp with
  | .error e => halt (.panic (.log e))
  | .ok (log, commits) => do
    let log := if commits then { log with lh := [], committing := false } else log
    modify fun k => { k.setDepth p (k.depth p - 1) with log := log }
    await fun _ => true

def opsAt (S : Storage T) (p : Fin n) : FsOps (KernelM T n) where
  panic e := halt (.panic e)
  note a ip := do
    await fun _ => true
    modify fun k => k.mark p a ip
  beginOp := beginOp p
  endOp := endOp p
  acquiresleep := acquiresleep p
  releasesleep := releasesleep
  holdingsleep ip := do
    let k ← get
    return (k.icache ip).lock == some p.val
  icache := do
    let k ← get
    return k.icache
  setInode ip n := onVolume p (Exec.modify fun v => { v with icache := update v.icache ip n })
  ninodes := do
    let k ← get
    return S.ninodes k.data
  dinode inum := do
    let k ← get
    return S.dinode k.data inum
  setDinode inum d := onVolume p (S.setDinode inum d)
  truncBlocks ip := onVolume p (S.truncBlocks ip)
  readFrom ip off len := onVolume p (S.readFrom ip off len)
  writeFrom ip off src := onVolume p (S.writeFrom ip off src)
  devsw := do
    let k ← get
    return k.devsw
  ftable := do
    let k ← get
    return k.ftable
  setFile f file := modify fun k => k.setFtable p (update k.ftable f file)
  ofile := do
    let k ← get
    return (k.proc p).ofile
  setOfile fd f := modify fun k =>
    k.setProc p { k.proc p with ofile := update (k.proc p).ofile fd f }
  cwd := do
    let k ← get
    return (k.proc p).cwd
  setCwd ip := modify fun k => k.setProc p { k.proc p with cwd := ip }
  isInit := do
    let k ← get
    return (k.proc p).isInit

def unused (k : Kernel T n) (p : Fin n) : Bool :=
  (k.call p).isNone && (k.proc p).cwd.isNone && decide (∀ fd, (k.proc p).ofile fd = none)

def spawn (k : Kernel T n) (p child : Fin n) (cwd : Option Ptr) : Kernel T n :=
  { k.setProc child ⟨(k.proc p).ofile, cwd, false⟩ with
    iref := fun q ip => k.iref q ip +
      if cwd = some ip then (if q = child then 1 else if q = p then -1 else 0) else 0
    fref := fun q f => k.fref q f +
      (k.proc p).fds f * (if q = child then 1 else if q = p then -1 else 0) }

def fork (S : Storage T) (p child : Fin n) : KernelM T n Unit := do
  let k ← get
  if k.unused child then do
    let cwd ← (opsAt S p).forkFiles
    modify fun k => k.spawn p child cwd
  else return ()

def body (S : Storage T) (p : Fin n) : Call n → KernelM T n Unit
  | .sysOpen args => do
    let _ ← (opsAt S p).sysOpen args
  | .sysClose fd => do
    let _ ← (opsAt S p).sysClose fd
  | .sysDup fd => do
    let _ ← (opsAt S p).sysDup fd
  | .sysRead fd len pipe => do
    let _ ← (opsAt S p).sysRead fd len pipe
  | .sysWrite fd src pipe => do
    let _ ← (opsAt S p).sysWrite fd src pipe
  | .sysFstat fd st => do
    let _ ← (opsAt S p).sysFstat fd st
  | .sysLink args => do
    let _ ← (opsAt S p).sysLink args
  | .sysUnlink path => do
    let _ ← (opsAt S p).sysUnlink path
  | .sysMkdir path => do
    let _ ← (opsAt S p).sysMkdir path
  | .sysMknod args => do
    let _ ← (opsAt S p).sysMknod args
  | .sysChdir path => do
    let _ ← (opsAt S p).sysChdir path
  | .sysChmod args => do
    let _ ← (opsAt S p).sysChmod args
  | .sysExec path vm => do
    let _ ← (opsAt S p).sysExec path vm
  | .fork child => fork S p child
  | .exit => (opsAt S p).exit

def serve (S : Storage T) (p : Fin n) (c : Call n) : KernelM T n Unit := do
  modify fun k => k.setCall p (some c)
  body S p c
  modify fun k => k.setCall p none

/-- No call is in progress and nothing is left over from one: the locks are free, there is no
transaction, and every reference is that of an open file or of a current directory. -/
structure Start (k : Kernel T n) : Prop where
  call : ∀ p, k.call p = none
  lock : ∀ ip, (k.icache ip).lock = none
  depth : ∀ p, k.depth p = 0
  outstanding : k.log.outstanding = 0
  committing : k.log.committing = false
  ref : ∀ ip, (k.icache ip).ref = opened k.ftable ip + k.cwds ip
  file_ref : ∀ f, (k.ftable f).ref = ∑ p, ((k.proc p).fds f : ℤ)
  closed : ∀ f, (k.ftable f).type = .none ↔ (k.ftable f).ref = 0
  iref : ∀ p ip, k.iref p ip = if (k.proc p).cwd = some ip then 1 else 0
  fref : ∀ p f, k.fref p f = (k.proc p).fds f
  events : k.events = []

abbrev Runs (S : Storage T) (C : Conc (Fin n) (Kernel T n) Stop → Sched (Fin n) (Call n) → Prop)
    (k : Kernel T n) (acts : List (Sched (Fin n) (Call n))) (c : Conc (Fin n) (Kernel T n) Stop) : Prop :=
  Trans.Run (Conc.step (serve S)) C (Conc.init k) acts c

end Kernel

end Xv6
