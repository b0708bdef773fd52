import Xv6.Spec.Inode

/-! The file table of `file.c`, the system calls of `sysfile.c` and what `fork`, `exit`
and `exec` do to files. The argument of a call is `none` when fetching it from user memory
fails. -/

namespace Xv6

def O_WRONLY : BitVec 32 := 0x001
def O_RDWR : BitVec 32 := 0x002
def O_CREATE : BitVec 32 := 0x200

namespace FsOps

variable {m : Type → Type} [Monad m] (o : FsOps m)

/-! File descriptors. -/

def file (f : Fin NFILE) : m File := do
  let t ← o.ftable
  return t f

def filealloc : m (Option (Fin NFILE)) := do
  let t ← o.ftable
  match (List.finRange NFILE).find? fun f => (t f).ref == 0 with
  | some f => do
    o.setFile f { t f with ref := 1 }
    return some f
  | none => return none

def filedup (f : Fin NFILE) : m Unit := do
  let file ← o.file f
  o.panicIf (file.ref < 1) .filedup
  o.setFile f { file with ref := file.ref + 1 }

def fileclose (f : Fin NFILE) : m Unit := do
  let ff ← o.file f
  o.panicIf (ff.ref < 1) .fileclose
  if ff.ref - 1 > 0 then o.setFile f { ff with ref := ff.ref - 1 }
  else do
    o.setFile f { ff with ref := 0, type := .none }
    match ff.type with
    | .inode => do
      o.beginOp
      o.iput ff.ip
      o.endOp
    | .pipe => pure ()
    | .none => pure ()

def filestat (f : Fin NFILE) : m (Option Stat) := do
  let file ← o.file f
  match file.type with
  | .inode => do
    o.ilock file.ip
    let file ← o.file f
    let st ← o.stati file.ip
    o.iunlock file.ip
    return some st
  | .pipe => return none
  | .none => return none

def advance (f : Fin NFILE) (r : ℕ) : m Unit := do
  let file ← o.file f
  o.setFile f { file with off := (file.off + r) % 2 ^ 32 }

def fileread (f : Fin NFILE) (n : ℕ) (pipe : ℤ × List UInt8) : m (ℤ × List UInt8) := do
  let file ← o.file f
  if !file.readable then return (-1, [])
  else
    match file.type with
    | .pipe => return pipe
    | .inode => do
      o.ilock file.ip
      let file ← o.file f
      let r ← o.readi file.ip file.off n
      (if r.1 > 0 then o.advance f r.1.toNat else pure ())
      o.iunlock file.ip
      return r
    | .none => o.panic .fileread

def maxPiece : ℕ := (MAXOPBLOCKS - 1 - 1 - 2) / 2 * 512

/-- The loop of `filewrite`, at most `k` rounds; whether it wrote everything. -/
def filewriteFrom (f : Fin NFILE) : ℕ → List UInt8 → m Bool
  | 0, src => return src.isEmpty
  | k + 1, src =>
    if src.isEmpty then return true
    else do
      let src1 := src.take maxPiece
      o.beginOp
      let file ← o.file f
      o.ilock file.ip
      let file ← o.file f
      let r ← o.writei file.ip src1 file.off
      (if r > 0 then o.advance f r.toNat else pure ())
      o.iunlock file.ip
      o.endOp
      if r < 0 then return false
      else do
        o.panicIf (r ≠ src1.length) .shortFilewrite
        filewriteFrom f k (src.drop maxPiece)

/-- Write the bytes `src` to file `f`; the result of writing a pipe is `pipe`. -/
def filewrite (f : Fin NFILE) (src : List UInt8) (pipe : ℤ) : m ℤ := do
  let file ← o.file f
  if !file.writable then return -1
  else
    match file.type with
    | .pipe => return pipe
    | .inode => do
      let all ← o.filewriteFrom f src.length src
      return if all then src.length else -1
    | .none => o.panic .filewrite

/-! System calls. -/

def argfd (fd : Option ℤ) : m (Option (Fin NOFILE × Fin NFILE)) := do
  let ofile ← o.ofile
  return fd.bind fun fd =>
    if h : 0 ≤ fd ∧ fd < NOFILE then
      (ofile ⟨fd.toNat, toNat_lt_nofile h⟩).map (⟨fd.toNat, toNat_lt_nofile h⟩, ·)
    else none

def fdalloc (f : Fin NFILE) : m (Option (Fin NOFILE)) := do
  let ofile ← o.ofile
  match (List.finRange NOFILE).find? fun fd => (ofile fd).isNone with
  | some fd => do
    o.setOfile fd (some f)
    return some fd
  | none => return none

def sysDup (fd : Option ℤ) : m ℤ := do
  let a ← o.argfd fd
  match a with
  | none => return -1
  | some (_, f) => do
    let fd ← o.fdalloc f
    match fd with
    | none => return -1
    | some fd => do
      o.filedup f
      return fd.val

def sysRead (fd : Option ℤ) (n : Option ℕ) (pipe : ℤ × List UInt8) : m (ℤ × List UInt8) := do
  let a ← o.argfd fd
  match a, n with
  | some (_, f), some n => o.fileread f n pipe
  | _, _ => return (-1, [])

def sysWrite (fd : Option ℤ) (src : Option (List UInt8)) (pipe : ℤ) : m ℤ := do
  let a ← o.argfd fd
  match a, src with
  | some (_, f), some src => o.filewrite f src pipe
  | _, _ => return -1

def sysClose (fd : Option ℤ) : m ℤ := do
  let a ← o.argfd fd
  match a with
  | none => return -1
  | some (fd, f) => do
    o.setOfile fd none
    o.fileclose f
    return 0

/-- The stored metadata, or `none` for -1; `st` is whether the address for it is valid. -/
def sysFstat (fd : Option ℤ) (st : Bool) : m (Option Stat) := do
  let a ← o.argfd fd
  match a, st with
  | some (_, f), true => o.filestat f
  | _, _ => return none

def linkBad (ip : Ptr) : m ℤ := do
  o.ilock ip
  o.modifyInode ip fun n => { n with d := { n.d with nlink := n.d.nlink - 1 } }
  o.iupdate ip
  o.iunlockput ip
  o.endOp
  return -1

/-- `sys_link` from the second path on, once the link count of `ip` is incremented. -/
def linkInto (ip : Ptr) (new : Str) : m ℤ := do
  let p ← o.nameiparent new
  match p with
  | none => o.linkBad ip
  | some (dp, name) => do
    o.ilock dp
    let n ← o.inode ip
    let r ← o.dirlink dp name n.inum
    if r < 0 then do
      o.iunlockput dp
      o.linkBad ip
    else do
      o.iunlockput dp
      o.iput ip
      o.endOp
      return 0

/-- Create the path `new` as a link to the same inode as `old`. There is one device, so
`dp->dev != ip->dev` never holds. -/
def sysLink (args : Option (Str × Str)) : m ℤ :=
  match args with
  | none => return -1
  | some (old, new) => do
    o.beginOp
    let r ← o.namei old
    match r with
    | none => do
      o.endOp
      return -1
    | some ip => do
      o.ilock ip
      let n ← o.inode ip
      if n.d.type = T_DIR then do
        o.iunlockput ip
        o.endOp
        return -1
      else do
        o.setInode ip { n with d := { n.d with nlink := n.d.nlink + 1 } }
        o.iupdate ip
        o.iunlock ip
        o.linkInto ip new

def unlinkBad (dp : Ptr) : m ℤ := do
  o.iunlockput dp
  o.endOp
  return -1

/-- `sys_unlink` once both inodes are locked: `off` is the offset of the entry of `ip` in
`dp`. -/
def unlinkEntry (dp ip : Ptr) (off : ℕ) : m ℤ := do
  let n ← o.inode ip
  o.panicIf (n.d.nlink.toInt < 1) .unlinkNlink
  let empty ← (if n.d.type = T_DIR then o.isdirempty ip else pure true)
  if !empty then do
    o.iunlockput ip
    o.unlinkBad dp
  else do
    let r ← o.writei dp (List.replicate DIRENTSIZE 0) off
    o.panicIf (r ≠ DIRENTSIZE) .unlinkWritei
    (if n.d.type = T_DIR then do
        o.modifyInode dp fun n => { n with d := { n.d with nlink := n.d.nlink - 1 } }
        o.iupdate dp
      else pure ())
    o.iunlockput dp
    o.modifyInode ip fun n => { n with d := { n.d with nlink := n.d.nlink - 1 } }
    o.iupdate ip
    o.iunlockput ip
    o.endOp
    return 0

def sysUnlink (path : Option Str) : m ℤ :=
  match path with
  | none => return -1
  | some path => do
    o.beginOp
    let p ← o.nameiparent path
    match p with
    | none => do
      o.endOp
      return -1
    | some (dp, name) => do
      o.ilock dp
      -- cannot unlink "." or ".."
      if namecmp name dot || namecmp name dotdot then o.unlinkBad dp
      else do
        let r ← o.dirlookup dp name
        match r with
        | none => o.unlinkBad dp
        | some (ip, off) => do
          o.ilock ip
          o.unlinkEntry dp ip off

def createDots (dp ip : Ptr) : m Unit := do
  -- for ".."; no link is counted for "."
  o.modifyInode dp fun n => { n with d := { n.d with nlink := n.d.nlink + 1 } }
  o.iupdate dp
  let n ← o.inode ip
  let r ← o.dirlink ip dot n.inum
  o.panicIf (r < 0) .createDots
  let n ← o.inode dp
  let r ← o.dirlink ip dotdot n.inum
  o.panicIf (r < 0) .createDots

def createNew (dp : Ptr) (name : Str) (type major minor : Short) : m (Option Ptr) := do
  let ip ← o.ialloc type
  o.ilock ip
  o.modifyInode ip fun n =>
    { n with d := { n.d with major := major, minor := minor, nlink := 1 } }
  o.iupdate ip
  (if type = T_DIR then o.createDots dp ip else pure ())
  let n ← o.inode ip
  let r ← o.dirlink dp name n.inum
  o.panicIf (r < 0) .createDirlink
  o.iunlockput dp
  return some ip

def create (path : Str) (type major minor : Short) : m (Option Ptr) := do
  let p ← o.nameiparent path
  match p with
  | none => return none
  | some (dp, name) => do
    o.ilock dp
    let r ← o.dirlookup dp name
    match r with
    | some (ip, _) => do
      o.iunlockput dp
      o.ilock ip
      let n ← o.inode ip
      if type = T_FILE ∧ n.d.type = T_FILE then return some ip
      else do
        o.iunlockput ip
        return none
    | none => o.createNew dp name type major minor

def openFile (ip : Ptr) (omode : BitVec 32) : m ℤ := do
  let f ← o.filealloc
  match f with
  | none => do
    o.iunlockput ip
    o.endOp
    return -1
  | some f => do
    let fd ← o.fdalloc f
    match fd with
    | none => do
      o.fileclose f
      o.iunlockput ip
      o.endOp
      return -1
    | some fd => do
      o.iunlock ip
      o.endOp
      let file ← o.file f
      o.setFile f { file with
        type := .inode
        ip := ip
        off := 0
        readable := omode &&& O_WRONLY == 0
        writable := omode &&& O_WRONLY != 0 || omode &&& O_RDWR != 0 }
      return fd.val

def sysOpen (args : Option (Str × BitVec 32)) : m ℤ :=
  match args with
  | none => return -1
  | some (path, omode) => do
    o.beginOp
    if omode &&& O_CREATE ≠ 0 then do
      let r ← o.create path T_FILE 0 0
      match r with
      | none => do
        o.endOp
        return -1
      | some ip => o.openFile ip omode
    else do
      let r ← o.namei path
      match r with
      | none => do
        o.endOp
        return -1
      | some ip => do
        o.ilock ip
        let n ← o.inode ip
        if n.d.type = T_DIR ∧ omode ≠ 0 then do
          o.iunlockput ip
          o.endOp
          return -1
        else o.openFile ip omode

def createPut (path : Str) (type major minor : Short) : m ℤ := do
  let r ← o.create path type major minor
  match r with
  | none => do
    o.endOp
    return -1
  | some ip => do
    o.iunlockput ip
    o.endOp
    return 0

def sysMkdir (path : Option Str) : m ℤ := do
  o.beginOp
  match path with
  | none => do
    o.endOp
    return -1
  | some path => o.createPut path T_DIR 0 0

def sysMknod (args : Option (Str × ℤ × ℤ)) : m ℤ := do
  o.beginOp
  match args with
  | none => do
    o.endOp
    return -1
  | some (path, major, minor) => o.createPut path T_DEV (.ofInt 16 major) (.ofInt 16 minor)

def sysChdir (path : Option Str) : m ℤ := do
  o.beginOp
  match path with
  | none => do
    o.endOp
    return -1
  | some path => do
    let r ← o.namei path
    match r with
    | none => do
      o.endOp
      return -1
    | some ip => do
      o.ilock ip
      let n ← o.inode ip
      if n.d.type ≠ T_DIR then do
        o.iunlockput ip
        o.endOp
        return -1
      else do
        o.iunlock ip
        let cwd ← o.cwd
        match cwd with
        | none => o.panic .trap
        | some cwd => do
          o.iput cwd
          o.endOp
          o.setCwd (some ip)
          return 0

def sysChmod (args : Option (Str × ℤ)) : m ℤ :=
  match args with
  | none => return -1
  | some (pathname, mode) => do
    let r ← o.namei pathname
    match r with
    | none => return -1
    | some ip => o.chmod ip mode

/-! Processes. -/

/-- The loop of `exit` over the open files. -/
def closeAll : List (Fin NOFILE) → m Unit
  | [] => pure ()
  | fd :: fds => do
    let ofile ← o.ofile
    match ofile fd with
    | none => closeAll fds
    | some f => do
      o.fileclose f
      o.setOfile fd none
      closeAll fds

def exit : m Unit := do
  let init ← o.isInit
  o.panicIf init .initExiting
  o.closeAll (List.finRange NOFILE)
  o.beginOp
  let cwd ← o.cwd
  match cwd with
  | none => o.panic .trap
  | some ip => do
    o.iput ip
    o.endOp
    o.setCwd none

/-- The loop of `fork` that shares the open files with the child. -/
def dupAll : List (Fin NOFILE) → m Unit
  | [] => pure ()
  | fd :: fds => do
    let ofile ← o.ofile
    match ofile fd with
    | none => dupAll fds
    | some f => do
      o.filedup f
      dupAll fds

/-- The references that `fork` takes for the child: its open files and its current
directory. -/
def forkFiles : m (Option Ptr) := do
  o.dupAll (List.finRange NOFILE)
  let cwd ← o.cwd
  match cwd with
  | none => o.panic .trap
  | some ip => do
    o.idup ip
    return some ip

end FsOps

/-- What `exec` learns from the virtual memory code: whether `setupkvm` succeeds, the new
size `allocuvm` returns (0 if it fails), and whether the stack can be set up. -/
structure Vm where
  setupkvm : Bool
  allocuvm : ℕ → ℕ → ℕ
  stack : Bool

def PGSIZE : ℕ := 4096
def ELF_MAGIC : ℕ := 0x464C457F
def ELF_PROG_LOAD : ℕ := 1
def ELFHDRSIZE : ℕ := 52
def PROGHDRSIZE : ℕ := 32

def fieldAt (w : ℕ) (bs : List UInt8) (k : ℕ) : ℕ := Bytes.leVal ((bs.drop k).take w)

namespace FsOps

variable {m : Type → Type} [Monad m] (o : FsOps m)

/-- Load a program segment, page by page, at most `k` pages; whether all was read. -/
def loaduvm (ip : Ptr) : ℕ → ℕ → ℕ → m Bool
  | 0, _, _ => return true
  | k + 1, offset, sz =>
    if sz = 0 then return true
    else do
      let n := min sz PGSIZE
      let r ← o.readi ip offset n
      if r.1 ≠ n then return false
      else loaduvm ip k (offset + n) (sz - n)

/-- The loop of `exec` over the program headers; `none` is its `goto bad`. -/
def execLoad (vm : Vm) (ip : Ptr) : ℕ → ℕ → ℕ → m (Option ℕ)
  | 0, _, sz => return some sz
  | k + 1, off, sz => do
    let r ← o.readi ip off PROGHDRSIZE
    if r.1 ≠ PROGHDRSIZE then return none
    else
      let ph := r.2
      let vaddr := fieldAt 4 ph 8
      let filesz := fieldAt 4 ph 16
      let memsz := fieldAt 4 ph 20
      if fieldAt 4 ph 0 ≠ ELF_PROG_LOAD then execLoad vm ip k (off + PROGHDRSIZE) sz
      else if memsz < filesz then return none
      else if (vaddr + memsz) % 2 ^ 32 < vaddr then return none
      else
        let sz := vm.allocuvm sz (vaddr + memsz)
        if sz = 0 then return none
        else if vaddr % PGSIZE ≠ 0 then return none
        else do
          let ok ← o.loaduvm ip (filesz / PGSIZE + 1) (fieldAt 4 ph 4) filesz
          if !ok then return none
          else execLoad vm ip k (off + PROGHDRSIZE) sz

def execRead (vm : Vm) (ip : Ptr) : m (Option ℕ) := do
  let r ← o.readi ip 0 ELFHDRSIZE
  if r.1 ≠ ELFHDRSIZE then return none
  else if fieldAt 4 r.2 0 ≠ ELF_MAGIC then return none
  else if !vm.setupkvm then return none
  else o.execLoad vm ip (fieldAt 2 r.2 44) (fieldAt 4 r.2 28) 0

/-- `sys_exec`. Past the program headers, both outcomes have released the inode. -/
def sysExec (path : Option Str) (vm : Vm) : m ℤ :=
  match path with
  | none => return -1
  | some path => do
    o.beginOp
    let r ← o.namei path
    match r with
    | none => do
      o.endOp
      return -1
    | some ip => do
      o.ilock ip
      let sz ← o.execRead vm ip
      o.iunlockput ip
      o.endOp
      return if sz.isSome ∧ vm.stack then 0 else -1

end FsOps

end Xv6
