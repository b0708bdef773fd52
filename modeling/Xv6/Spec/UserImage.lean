import Xv6.Spec.Paging

/-! `exec.c`, with the functions of `vm.c` that fill the new memory: the program is read from the
bytes of its file, and the arguments are copied to the stack. -/

namespace Xv6

def MAXARG : ℕ := 32

def readFile (file : List UInt8) (off n : ℕ) : Option (List UInt8) :=
  if off > file.length ∨ (off + n) % 2 ^ 32 < off then none else some ((file.drop off).take n)

namespace Kmem

/-- The loop of `loaduvm` from byte `i` of the segment on. -/
def loadFrom (file : List UInt8) (pgdir addr offset sz : ℕ) : ℕ → ℕ → KmemM Bool
  | 0, _ => return true
  | k + 1, i =>
    if i < sz then do
      let r ← walkpgdir pgdir ((addr + i) % 2 ^ 32) false
      match r with
      | none => panic .loaduvmExist
      | some (pgtab, j) => do
        let pte ← load pgtab j
        let n := if sz - i < PGSIZE then sz - i else PGSIZE
        match readFile file ((offset + i) % 2 ^ 32) n with
        | none => return false
        | some bs => do
          Exec.modify fun s => s.setPage (pte / PGSIZE) ((s.mem (pte / PGSIZE)).patch 0 bs)
          if bs.length ≠ n then return false
          else loadFrom file pgdir addr offset sz k ((i + PGSIZE) % 2 ^ 32)
    else return true

def loaduvm (file : List UInt8) (pgdir addr offset sz : ℕ) : KmemM Bool :=
  if addr % PGSIZE ≠ 0 then panic .loaduvmAlign
  else loadFrom file pgdir addr offset sz (sz / PGSIZE + 1) 0

/-- `uva2ka`: the page behind a user address. It does not look at whether there is a page table. -/
def uva2ka (pgdir uva : ℕ) : KmemM (Option ℕ) := do
  let r ← walkpgdir pgdir uva false
  match r with
  | none => Exec.halt .fault
  | some (pgtab, i) => do
    let pte ← load pgtab i
    if ¬present pte then return none
    else if pte &&& PTE_U = 0 then return none
    else return some (pte / PGSIZE)

/-- The rounds of the loop of `copyout`; false is its -1. -/
def copyoutFrom (pgdir : ℕ) : ℕ → ℕ → List UInt8 → KmemM Bool
  | 0, _, _ => return true
  | k + 1, va, buf =>
    if buf.length > 0 then do
      let va0 := PGROUNDDOWN va
      let pa0 ← uva2ka pgdir va0
      match pa0 with
      | none => return false
      | some pa0 => do
        let n := min (PGSIZE - (va - va0)) buf.length
        Exec.modify fun s => { s.setPage pa0 ((s.mem pa0).patch (va - va0) (buf.take n)) with
          copied := s.copied ++ [(va, n)] }
        copyoutFrom pgdir k ((va0 + PGSIZE) % 2 ^ 32) (buf.drop n)
    else return true

def copyout (pgdir va : ℕ) (buf : List UInt8) : KmemM Bool := copyoutFrom pgdir buf.length va buf

/-- The loop of `exec` over the program headers; `none` is its `goto bad`. -/
def loadSegments (L : Layout) (file : List UInt8) (pgdir : ℕ) : ℕ → ℕ → ℕ → KmemM (Option ℕ)
  | 0, _, sz => return some sz
  | k + 1, off, sz =>
    match readFile file off PROGHDRSIZE with
    | none => return none
    | some ph =>
      let vaddr := fieldAt 4 ph 8
      let filesz := fieldAt 4 ph 16
      let memsz := fieldAt 4 ph 20
      if ph.length ≠ PROGHDRSIZE then return none
      else if fieldAt 4 ph 0 ≠ ELF_PROG_LOAD then
        loadSegments L file pgdir k ((off + PROGHDRSIZE) % 2 ^ 32) sz
      else if memsz < filesz then return none
      else if (vaddr + memsz) % 2 ^ 32 < vaddr then return none
      else do
        let sz ← allocuvm L pgdir sz ((vaddr + memsz) % 2 ^ 32)
        if sz = 0 then return none
        else if vaddr % PGSIZE ≠ 0 then return none
        else do
          let ok ← loaduvm file pgdir vaddr (fieldAt 4 ph 4) filesz
          if ok then loadSegments L file pgdir k ((off + PROGHDRSIZE) % 2 ^ 32) sz
          else return none

def pushed (sp n : ℕ) : ℕ := (sp + 2 ^ 32 - n % 2 ^ 32) % 2 ^ 32 / 4 * 4

/-- The loop of `exec` over the arguments: `argc`, `sp` and the part of `ustack` written so far. -/
def pushStrings (pgdir : ℕ) : List (List UInt8) → ℕ → ℕ → List ℕ → KmemM (Option (ℕ × ℕ × List ℕ))
  | [], argc, sp, ustack => return some (argc, sp, ustack)
  | arg :: argv, argc, sp, ustack =>
    if argc ≥ MAXARG then return none
    else do
      let sp := pushed sp (arg.length + 1)
      let ok ← copyout pgdir sp (arg ++ [0])
      if ok then pushStrings pgdir argv (argc + 1) sp (ustack ++ [sp]) else return none

/-- The stack of the new program: the strings, and below them `ustack`. The result is `sp`. -/
def pushArgs (pgdir sz : ℕ) (argv : List (List UInt8)) : KmemM (Option ℕ) := do
  let r ← pushStrings pgdir argv 0 sz []
  match r with
  | none => return none
  | some (argc, sp, ustack) => do
    let words := [0xffffffff, argc, (sp + 2 ^ 32 - (argc + 1) * 4) % 2 ^ 32] ++ ustack ++ [0]
    let sp := (sp + 2 ^ 32 - (3 + argc + 1) * 4) % 2 ^ 32
    let ok ← copyout pgdir sp (words.flatMap (Bytes.le 4))
    if ok then return some sp else return none

def HasString (s : Kmem) (pgdir uva : ℕ) (arg : List UInt8) : Prop :=
  (∀ i (h : i < arg.length), arg[i] ≠ 0 ∧ s.byteAt pgdir (uva + i) = some arg[i]) ∧
    s.byteAt pgdir (uva + arg.length) = some 0

end Kmem

/-- The process that calls `exec`, and what it holds in the file system: the transactions it is in,
its references to the inode of the program, and whether it has that inode locked. -/
structure Caller where
  kmem : Kmem
  pgdir : ℕ
  sz : ℕ
  eip : ℕ
  esp : ℕ
  name : List UInt8
  ops : ℕ
  refs : ℕ
  locked : Bool

abbrev ExecM := Exec Caller KmemStop

namespace Caller

/-- The arguments that `sys_exec` accepts: they end in the memory of the process. -/
def Accepts (c : Caller) (argv : List (List UInt8)) : Prop :=
  argv.length < MAXARG ∧ ∀ arg ∈ argv, ∃ uva, uva + arg.length < c.sz ∧
    c.kmem.HasString c.pgdir uva arg

def onMem {α : Type} (m : KmemM α) : ExecM α := Exec.zoom kmem (fun k c => { c with kmem := k }) m

def beginOp : ExecM Unit := Exec.modify fun c => { c with ops := c.ops + 1 }

def endOp : ExecM Unit := Exec.modify fun c => { c with ops := c.ops - 1 }

def namei (file : Option (List UInt8)) : ExecM (Option (List UInt8)) :=
  match file with
  | none => return none
  | some bytes => do
    Exec.modify fun c => { c with refs := c.refs + 1 }
    return some bytes

def ilock : ExecM Unit := Exec.modify fun c => { c with locked := true }

def iunlockput : ExecM Unit := Exec.modify fun c => { c with locked := false, refs := c.refs - 1 }

def bad (L : Layout) (pgdir : Option ℕ) (ip : Bool) : ExecM Unit := do
  match pgdir with
  | some d => onMem (Kmem.freevm L d)
  | none => pure ()
  if ip then do
    iunlockput
    endOp

def lastElem (last : List UInt8) : List UInt8 → List UInt8
  | [] => last
  | c :: s => if c = 47 then lastElem s s else lastElem last s

/-- The end of `exec`: the process gets its new image, and the old one is freed. -/
def commit (L : Layout) (path : List UInt8) (pgdir sz entry sp : ℕ) : ExecM ℤ := do
  let c ← Exec.get
  Exec.modify fun c => { c with
    name := (lastElem path path).take 15, pgdir := pgdir, sz := sz, eip := entry, esp := sp }
  onMem (Kmem.freevm L c.pgdir)
  return 0

/-- The two pages above the program, of which the lower one is not for the user. -/
@[irreducible] def stackPages (L : Layout) (entry pgdir sz : ℕ) : ExecM (Option (ℕ × ℕ × ℕ)) := do
  let sz := PGROUNDUP sz
  let sz ← onMem (Kmem.allocuvm L pgdir sz ((sz + 2 * PGSIZE) % 2 ^ 32))
  if sz = 0 then do
    bad L (some pgdir) false
    return none
  else do
    onMem (Kmem.clearpteu pgdir (sz - 2 * PGSIZE))
    return some (entry, pgdir, sz)

/-- `exec` of the file with the given bytes, if there is one, up to the arguments. The result is
`elf.entry`, `pgdir` and `sz`, or `none` when it has failed. -/
def newImage (L : Layout) (file : Option (List UInt8)) : ExecM (Option (ℕ × ℕ × ℕ)) := do
  beginOp
  let ip ← namei file
  match ip with
  | none => do
    endOp
    return none
  | some file => do
    ilock
    match readFile file 0 ELFHDRSIZE with
    | none => do
      bad L none true
      return none
    | some elf =>
      if elf.length ≠ ELFHDRSIZE ∨ fieldAt 4 elf 0 ≠ ELF_MAGIC then do
        bad L none true
        return none
      else do
        let r ← onMem (Kmem.setupkvm L)
        match r with
        | none => do
          bad L none true
          return none
        | some pgdir => do
          let r ← onMem (Kmem.loadSegments L file pgdir (fieldAt 2 elf 44) (fieldAt 4 elf 28) 0)
          match r with
          | none => do
            bad L (some pgdir) true
            return none
          | some sz => do
            iunlockput
            endOp
            stackPages L (fieldAt 4 elf 24) pgdir sz

def exec (L : Layout) (file : Option (List UInt8)) (path : List UInt8) (argv : List (List UInt8)) :
    ExecM ℤ := do
  let r ← newImage L file
  match r with
  | none => return -1
  | some (entry, pgdir, sz) => do
    let r ← onMem (Kmem.pushArgs pgdir sz argv)
    match r with
    | none => do
      bad L (some pgdir) false
      return -1
    | some sp => commit L path pgdir sz entry sp

end Caller

/-! How large the program is, and where its arguments go. -/

def programSize (file : List UInt8) : ℕ → ℕ → ℕ → ℕ
  | 0, _, sz => sz
  | k + 1, off, sz =>
    match readFile file off PROGHDRSIZE with
    | none => sz
    | some ph =>
      let sz := if fieldAt 4 ph 0 ≠ ELF_PROG_LOAD then sz
        else max sz ((fieldAt 4 ph 8 + fieldAt 4 ph 20) % 2 ^ 32)
      programSize file k ((off + PROGHDRSIZE) % 2 ^ 32) sz

/-- The size of the new image: the program, the page below the stack and the stack. -/
def imageSize (file : List UInt8) : ℕ :=
  PGROUNDUP (programSize file (fieldAt 2 file 44) (fieldAt 4 file 28) 0) + 2 * PGSIZE

def WellFormed (file : List UInt8) (top : ℕ) : ℕ → ℕ → Prop
  | 0, _ => True
  | k + 1, off =>
    ∃ ph, readFile file off PROGHDRSIZE = some ph ∧ ph.length = PROGHDRSIZE ∧
      (fieldAt 4 ph 0 = ELF_PROG_LOAD → fieldAt 4 ph 16 ≤ fieldAt 4 ph 20 ∧
        0 < fieldAt 4 ph 8 + fieldAt 4 ph 20 ∧ fieldAt 4 ph 8 + fieldAt 4 ph 20 ≤ top ∧
        fieldAt 4 ph 8 % PGSIZE = 0 ∧ fieldAt 4 ph 4 + fieldAt 4 ph 16 ≤ file.length) ∧
      WellFormed file top k ((off + PROGHDRSIZE) % 2 ^ 32)

structure Loadable (file : List UInt8) (top : ℕ) : Prop where
  header : ELFHDRSIZE ≤ file.length
  magic : fieldAt 4 file 0 = ELF_MAGIC
  length : file.length < 2 ^ 31
  segments : WellFormed file top (fieldAt 2 file 44) (fieldAt 4 file 28)

def stringBytes (argv : List (List UInt8)) : ℕ := (argv.map fun arg => (arg.length + 4) / 4 * 4).sum

def stackBytes (argv : List (List UInt8)) : ℕ := stringBytes argv + (argv.length + 4) * 4

/-- An address above the kernel's memory and below the devices, where a new page directory has no
page table. -/
def NoTable (va : ℕ) : Prop := KERNBASE + PHYSTOP ≤ va ∧ va < DEVSPACE

/-- Pushed in turn below `sp`, the strings keep away from the addresses without a page table, up to
and including the first that leaves the stack page. -/
def Lands (sz : ℕ) : ℕ → List (List UInt8) → Prop
  | _, [] => True
  | sp, arg :: argv =>
    ¬NoTable (Kmem.pushed sp (arg.length + 1)) ∧
      (sz - PGSIZE ≤ Kmem.pushed sp (arg.length + 1) → Kmem.pushed sp (arg.length + 1) < sz →
        Lands sz (Kmem.pushed sp (arg.length + 1)) argv)

end Xv6
