import Xv6.Lib.Exec
import Xv6.Spec.Syscall

/-! `kalloc.c` and `vm.c`: the physical page allocator and the two-level page tables. A physical
page is named by its number, so a kernel pointer to a page and its physical address are the same
thing here; user addresses are 32-bit numbers. -/

namespace Xv6

def KERNBASE : ℕ := 0x80000000
def EXTMEM : ℕ := 0x100000
def PHYSTOP : ℕ := 0xE000000
def DEVSPACE : ℕ := 0xFE000000
def KERNLINK : ℕ := KERNBASE + EXTMEM

def PTE_P : ℕ := 1
def PTE_W : ℕ := 2
def PTE_U : ℕ := 4

def NPDENTRIES : ℕ := 1024

def PDX (va : ℕ) : ℕ := va / 2 ^ 22 % 1024
def PTX (va : ℕ) : ℕ := va / 2 ^ 12 % 1024
def PGROUNDUP (sz : ℕ) : ℕ := (sz + PGSIZE - 1) % 2 ^ 32 / PGSIZE * PGSIZE
def PGROUNDDOWN (a : ℕ) : ℕ := a / PGSIZE * PGSIZE

def present (pte : ℕ) : Prop := pte &&& PTE_P ≠ 0

instance : DecidablePred present := fun pte => inferInstanceAs (Decidable (pte &&& PTE_P ≠ 0))

abbrev Page := Buffer PGSIZE

/-- Where the linker put the kernel: the first page of its data, and the first page after it. -/
structure Layout where
  data : ℕ
  endp : ℕ
  data_gt : EXTMEM / PGSIZE < data
  data_le : data ≤ endp
  endp_le : endp ≤ PHYSTOP / PGSIZE

/-- Physical memory and `kmem.freelist`. `fails` says of the next calls of `kalloc` whether they
find no page, whatever the free list; `copied` is history: the user addresses `copyout` has
copied to, with the number of bytes. -/
structure Kmem where
  mem : ℕ → Page
  freelist : List ℕ
  fails : List Bool
  copied : List (ℕ × ℕ)

inductive KmemPanic where
  | kfree
  | remap
  | loaduvmAlign
  | loaduvmExist
  | freevm
  | clearpteu
  | copyuvmPte
  | copyuvmPage
deriving DecidableEq, Repr

inductive KmemStop where
  | panic (msg : KmemPanic)
  | fault
deriving DecidableEq, Repr

abbrev KmemM := Exec Kmem KmemStop

namespace Kmem

def word (s : Kmem) (p i : ℕ) : ℕ := (s.mem p).word 4 (4 * i)

def setWord (s : Kmem) (p i w : ℕ) : Kmem :=
  { s with mem := Function.update s.mem p ((s.mem p).setWord 4 (4 * i) w) }

def setPage (s : Kmem) (p : ℕ) (b : Page) : Kmem := { s with mem := Function.update s.mem p b }

def junk : Page := .ofFn fun _ => 1

def load (p i : ℕ) : KmemM ℕ := do
  let s ← Exec.get
  return s.word p i

def store (p i w : ℕ) : KmemM Unit := Exec.modify (·.setWord p i w)

def zeroPage (p : ℕ) : KmemM Unit := Exec.modify (·.setPage p Buffer.zero)

def panic {α : Type} (msg : KmemPanic) : KmemM α := Exec.halt (.panic msg)

def kalloc : KmemM (Option ℕ) := fun s =>
  match s.fails.headD false, s.freelist with
  | false, r :: next => .ok (some r) { s with freelist := next, fails := s.fails.tail }
  | _, _ => .ok none { s with fails := s.fails.tail }

def Managed (L : Layout) (p : ℕ) : Prop := L.endp ≤ p ∧ p < PHYSTOP / PGSIZE

instance (L : Layout) (p : ℕ) : Decidable (Managed L p) :=
  inferInstanceAs (Decidable (_ ∧ _))

def kfree (L : Layout) (p : ℕ) : KmemM Unit :=
  if Managed L p then
    Exec.modify fun s => { s.setPage p junk with freelist := p :: s.freelist }
  else panic .kfree

def walkpgdir (pgdir va : ℕ) (alloc : Bool) : KmemM (Option (ℕ × ℕ)) := do
  let pde ← load pgdir (PDX va)
  if present pde then return some (pde / PGSIZE, PTX va)
  else if !alloc then return none
  else do
    let r ← kalloc
    match r with
    | none => return none
    | some pgtab => do
      zeroPage pgtab
      store pgdir (PDX va) (pgtab * PGSIZE ||| PTE_P ||| PTE_W ||| PTE_U)
      return some (pgtab, PTX va)

/-- The loop of `mappages`, for the given number of pages at most; false is its -1. -/
def mapFrom (pgdir last perm : ℕ) : ℕ → ℕ → ℕ → KmemM Bool
  | 0, _, _ => return true
  | k + 1, a, pa => do
    let r ← walkpgdir pgdir a true
    match r with
    | none => return false
    | some (pgtab, i) => do
      let pte ← load pgtab i
      if present pte then panic .remap
      else do
        store pgtab i (pa ||| perm ||| PTE_P)
        if a = last then return true
        else mapFrom pgdir last perm k ((a + PGSIZE) % 2 ^ 32) ((pa + PGSIZE) % 2 ^ 32)

/-- `mappages`. The loop ends after the pages from `va` to the last one. -/
def mappages (pgdir va size pa perm : ℕ) : KmemM Bool :=
  let a := PGROUNDDOWN va
  let last := PGROUNDDOWN ((va + size + (2 ^ 32 - 1)) % 2 ^ 32)
  mapFrom pgdir last perm ((last + 2 ^ 32 - a) % 2 ^ 32 / PGSIZE + 1) a pa

/-- The loop of `deallocuvm`. Where there is no page table it goes on with the next one. -/
def deallocFrom (L : Layout) (pgdir oldsz : ℕ) : ℕ → ℕ → KmemM Unit
  | 0, _ => return ()
  | k + 1, a =>
    if a < oldsz then do
      let r ← walkpgdir pgdir a false
      match r with
      | none => deallocFrom L pgdir oldsz k ((PDX a + 1) * 2 ^ 22 % 2 ^ 32)
      | some (pgtab, i) => do
        let pte ← load pgtab i
        if present pte then do
          if pte / PGSIZE = 0 then panic .kfree
          else do
            kfree L (pte / PGSIZE)
            store pgtab i 0
            deallocFrom L pgdir oldsz k ((a + PGSIZE) % 2 ^ 32)
        else deallocFrom L pgdir oldsz k ((a + PGSIZE) % 2 ^ 32)
    else return ()

def deallocuvm (L : Layout) (pgdir oldsz newsz : ℕ) : KmemM ℕ :=
  if newsz ≥ oldsz then return oldsz
  else do
    deallocFrom L pgdir oldsz ((oldsz - PGROUNDUP newsz) / PGSIZE + 1) (PGROUNDUP newsz)
    return newsz

/-- The rounds of the loop of `allocuvm` from `a` on. -/
def allocFrom (L : Layout) (pgdir oldsz newsz : ℕ) : ℕ → ℕ → KmemM ℕ
  | 0, _ => return newsz
  | k + 1, a => do
    let r ← kalloc
    match r with
    | none => do
      let _ ← deallocuvm L pgdir newsz oldsz
      return 0
    | some mem => do
      zeroPage mem
      let ok ← mappages pgdir a PGSIZE (mem * PGSIZE) (PTE_W ||| PTE_U)
      if ok then allocFrom L pgdir oldsz newsz k (a + PGSIZE)
      else do
        let _ ← deallocuvm L pgdir newsz oldsz
        kfree L mem
        return 0

/-- `allocuvm`. Its loop makes a round for each page between `oldsz` and `newsz`. -/
def allocuvm (L : Layout) (pgdir oldsz newsz : ℕ) : KmemM ℕ :=
  if newsz ≥ KERNBASE then return 0
  else if newsz < oldsz then return oldsz
  else
    let a := PGROUNDUP oldsz
    allocFrom L pgdir oldsz newsz ((newsz - a + PGSIZE - 1) / PGSIZE) a

/-- The loop of `freevm` over the page directory. -/
def freeTables (L : Layout) (pgdir : ℕ) : List ℕ → KmemM Unit
  | [] => return ()
  | i :: is => do
    let pde ← load pgdir i
    if present pde then do
      kfree L (pde / PGSIZE)
      freeTables L pgdir is
    else freeTables L pgdir is

def freevm (L : Layout) (pgdir : ℕ) : KmemM Unit :=
  if pgdir = 0 then panic .freevm
  else do
    let _ ← deallocuvm L pgdir KERNBASE 0
    freeTables L pgdir (List.range NPDENTRIES)
    kfree L pgdir

structure Kmap where
  virt : ℕ
  physStart : ℕ
  physEnd : ℕ
  perm : ℕ

def kmap (L : Layout) : List Kmap :=
  [⟨KERNBASE, 0, EXTMEM, PTE_W⟩,
    ⟨KERNLINK, EXTMEM, L.data * PGSIZE, 0⟩,
    ⟨KERNBASE + L.data * PGSIZE, L.data * PGSIZE, PHYSTOP, PTE_W⟩,
    ⟨DEVSPACE, DEVSPACE, 0, PTE_W⟩]

def Kmap.size (k : Kmap) : ℕ := (k.physEnd + 2 ^ 32 - k.physStart) % 2 ^ 32

/-- The loop of `setupkvm` over `kmap`. -/
def mapKernel (pgdir : ℕ) : List Kmap → KmemM Bool
  | [] => return true
  | k :: ks => do
    let ok ← mappages pgdir k.virt k.size k.physStart k.perm
    if ok then mapKernel pgdir ks else return false

def setupkvm (L : Layout) : KmemM (Option ℕ) := do
  let r ← kalloc
  match r with
  | none => return none
  | some pgdir => do
    zeroPage pgdir
    let ok ← mapKernel pgdir (kmap L)
    if ok then return some pgdir
    else do
      freevm L pgdir
      return none

def clearpteu (pgdir uva : ℕ) : KmemM Unit := do
  let r ← walkpgdir pgdir uva false
  match r with
  | none => panic .clearpteu
  | some (pgtab, i) => do
    let pte ← load pgtab i
    store pgtab i (pte &&& (2 ^ 32 - 1 - PTE_U))

/-- The rounds of the loop of `copyuvm` from address `i` on; false is its `goto bad`. -/
def copyFrom (L : Layout) (pgdir d : ℕ) : ℕ → ℕ → KmemM Bool
  | 0, _ => return true
  | k + 1, i => do
    let r ← walkpgdir pgdir i false
    match r with
    | none => panic .copyuvmPte
    | some (pgtab, j) => do
      let pte ← load pgtab j
      if ¬present pte then panic .copyuvmPage
      else do
        let r ← kalloc
        match r with
        | none => return false
        | some mem => do
          Exec.modify fun s => s.setPage mem (s.mem (pte / PGSIZE))
          let ok ← mappages d i PGSIZE (mem * PGSIZE) (pte % PGSIZE)
          if ok then copyFrom L pgdir d k (i + PGSIZE)
          else do
            kfree L mem
            return false

/-- `copyuvm`. Its loop makes a round for each page below `sz`. -/
def copyuvm (L : Layout) (pgdir sz : ℕ) : KmemM (Option ℕ) := do
  let r ← setupkvm L
  match r with
  | none => return none
  | some d => do
    let ok ← copyFrom L pgdir d ((sz + PGSIZE - 1) / PGSIZE) 0
    if ok then return some d
    else do
      freevm L d
      return none

/-- `growproc` of a process with page directory `pgdir` and size `sz`: the result and the
size after. -/
def growproc (L : Layout) (pgdir sz : ℕ) (n : ℤ) : KmemM (ℤ × ℕ) :=
  let newsz := ((sz + n) % 2 ^ 32).toNat
  if n > 0 then do
    let r ← allocuvm L pgdir sz newsz
    if r = 0 then return (-1, sz) else return (0, r)
  else if n < 0 then do
    let r ← deallocuvm L pgdir sz newsz
    if r = 0 then return (-1, sz) else return (0, r)
  else return (0, sz)

/-! What the pages are used for. -/

/-- The entry for the page `v` of user or kernel memory, if it is mapped. -/
def mapped (s : Kmem) (pgdir v : ℕ) : Option ℕ :=
  let pde := s.word pgdir (v / 1024)
  let pte := s.word (pde / PGSIZE) (v % 1024)
  if present pde ∧ present pte then some pte else none

def byteAt (s : Kmem) (pgdir va : ℕ) : Option UInt8 :=
  (s.mapped pgdir (va / PGSIZE)).map fun pte => (s.mem (pte / PGSIZE)).get (va % PGSIZE)

def UserPages (s : Kmem) (pgdir sz : ℕ) : Prop :=
  ∀ v < 2 ^ 19, s.mapped pgdir v ≠ none ↔ v * PGSIZE < sz

def Kmap.Mapped (k : Kmap) (s : Kmem) (pgdir : ℕ) : Prop :=
  ∀ v, k.virt ≤ v * PGSIZE → v * PGSIZE < k.virt + k.size →
    s.mapped pgdir v = some ((k.physStart + (v * PGSIZE - k.virt)) ||| k.perm ||| PTE_P)

def SameBelow (s s' : Kmem) (pgdir n : ℕ) : Prop :=
  (∀ v < 2 ^ 19, v * PGSIZE < n → s'.mapped pgdir v = s.mapped pgdir v) ∧
    ∀ va < n, s'.byteAt pgdir va = s.byteAt pgdir va

/-- `growproc(n)` did exactly what it should: the size is `sz + n`, the pages below it are mapped,
what was there is unchanged and new pages are zero. -/
structure Grown (s s' : Kmem) (pgdir sz : ℕ) (n : ℤ) (sz' : ℕ) : Prop where
  size : (sz' : ℤ) = sz + n
  pages : s'.UserPages pgdir sz'
  same : s.SameBelow s' pgdir (min sz sz')
  zero : ∀ v, sz ≤ v * PGSIZE → v * PGSIZE < sz' →
    ∃ pte, s'.mapped pgdir v = some pte ∧ s'.mem (pte / PGSIZE) = Buffer.zero

/-- The outcomes of `growproc(n)`: success, or failure with no effect on user memory. -/
def GrowExact (s s' : Kmem) (pgdir sz : ℕ) (n : ℤ) (r : ℤ × ℕ) : Prop :=
  r.1 = 0 ∧ s.Grown s' pgdir sz n r.2 ∨ r.1 = -1 ∧ r.2 = sz ∧ s.SameBelow s' pgdir KERNBASE

/-- Page directory `d` is a copy of the user memory of `pgdir` below `sz`, with the same flags, and
with the kernel. -/
structure Copied (L : Layout) (s s' : Kmem) (pgdir sz d : ℕ) : Prop where
  byte : ∀ va, va / PGSIZE * PGSIZE < sz → s'.byteAt d va = s.byteAt pgdir va
  flags : ∀ v, v * PGSIZE < sz → ∃ w w', s.mapped pgdir v = some w ∧ s'.mapped d v = some w' ∧
    w' % PGSIZE = w % PGSIZE
  pages : s'.UserPages d sz
  kernel : ∀ k ∈ kmap L, k.Mapped s' d

end Kmem

/-- What a physical page is used for. `held` is a page in the hands of the running code, between
`kalloc` and its use, and `dying` a page directory in `freevm`. -/
inductive Role where
  | outside
  | free
  | held
  | dir
  | dying
  | table (pgdir i : ℕ)
  | user (pgdir v : ℕ)
  | kstack (p : ℕ)
  | pipe (i : ℕ)
deriving DecidableEq, Repr

/-- Every page above the kernel is in exactly one place, its role: what is on the free list, in
the page directories and in their page tables are the pages with that role, and no others. -/
structure Owned (L : Layout) (s : Kmem) (own : ℕ → Role) : Prop where
  outside : ∀ p, own p = .outside ↔ ¬Kmem.Managed L p
  free : ∀ p, p ∈ s.freelist ↔ own p = .free
  nodup : s.freelist.Nodup
  pde : ∀ d i, own d = .dir → i < 1024 → present (s.word d i) →
    own (s.word d i / PGSIZE) = .table d i
  table : ∀ t d i, own t = .table d i → i < 1024 ∧ (own d = .dir ∨ own d = .dying) ∧
    present (s.word d i) ∧ s.word d i / PGSIZE = t
  pte : ∀ t d i j, own t = .table d i → i < 512 → j < 1024 → present (s.word t j) →
    own (s.word t j / PGSIZE) = .user d (i * 1024 + j)
  user : ∀ f d v, own f = .user d v → v < 2 ^ 19 ∧ ∃ t, own t = .table d (v / 1024) ∧
    present (s.word t (v % 1024)) ∧ s.word t (v % 1024) / PGSIZE = f

/-- A user page of `d` is behind no other user page, of `d` or of any other page directory. -/
def Unshared (s : Kmem) (own : ℕ → Role) (d : ℕ) : Prop :=
  ∀ v w e u x, v < 2 ^ 19 → s.mapped d v = some w → own e = .dir → u < 2 ^ 19 →
    s.mapped e u = some x → x / PGSIZE = w / PGSIZE → e = d ∧ u = v

def NoHeld (own : ℕ → Role) : Prop := ∀ p, own p ≠ .held

end Xv6
