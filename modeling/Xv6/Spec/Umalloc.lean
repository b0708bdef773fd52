import Xv6.Lib.LinkList
import Xv6.Lib.Run
import Xv6.Spec.Paging

/-! The allocator of `umalloc.c`, with every sequence of `malloc` and `free` a program makes.
Addresses are byte addresses. A loop is bounded by the memory there is, since a block is never
empty. -/

namespace Xv6.Umalloc

open Function

structure Header where
  ptr : ℕ
  size : ℕ
deriving DecidableEq, Repr

def HEADERSIZE : ℕ := 8

/-- A block: the address of its header, and its size in units of a header, the header's own
unit among them. -/
structure Block where
  addr : ℕ
  size : ℕ
deriving DecidableEq, Repr

def Block.stop (b : Block) : ℕ := b.addr + HEADERSIZE * b.size

/-- The memory of the allocator: the headers, and the variable `freep`, 0 before the first
`malloc`. `brk` is the end of the memory of the process. The other fields are history: the blocks
handed out and not freed yet, and the units obtained from `sbrk`. -/
structure Heap where
  mem : ℕ → Header
  freep : ℕ
  brk : ℕ
  live : List Block
  units : ℕ

namespace Heap

/-- The condition that ends the loop of `free`. -/
def after (h : Heap) (bp p : ℕ) : Bool :=
  let q := (h.mem p).ptr
  (bp > p && bp < q) || (p ≥ q && (bp > p || bp < q))

/-- The two tests of `free` after its loop, which join `bp` with the free block above it and
with the free block `p` below it. -/
def link (mem : ℕ → Header) (bp p : ℕ) : ℕ → Header :=
  let q := (mem p).ptr
  let mem :=
    if (bp + HEADERSIZE * (mem bp).size) % 2 ^ 32 = q then
      update mem bp ⟨(mem q).ptr, (mem bp).size + (mem q).size⟩
    else update mem bp ⟨q, (mem bp).size⟩
  if (p + HEADERSIZE * (mem p).size) % 2 ^ 32 = bp then
    update mem p ⟨(mem bp).ptr, (mem p).size + (mem bp).size⟩
  else update mem p ⟨bp, (mem p).size⟩

/-- `none` where the loop does not end. -/
def free (h : Heap) (ap : ℕ) : Option Heap := do
  let bp := ap - HEADERSIZE
  let p ← LinkList.walk (fun a => (h.mem a).ptr) (h.after bp) (h.units + 1) h.freep
  pure { h with
    mem := link h.mem bp p
    freep := p
    live := h.live.eraseP (·.addr = bp) }

/-- `sbrk(n)`, when the program itself has moved the end of its memory up by `gap` since the last
call, or there is no memory left. The answer is the old end or -1. No answer: all pages are gone,
those of the program too. -/
def sbrk (h : Heap) (gap : Option ℕ) (n : ℕ) : Option (Option (ℕ × Heap)) :=
  let sz := h.brk + gap.getD 0
  if 0 < n ∧ n < 2 ^ 31 then
    if gap = none ∨ KERNBASE ≤ sz + n then some none else some (some (sz, { h with brk := sz + n }))
  else
    -- a negative `int`: `deallocuvm` to `sz + n`, unless this wraps around
    let newsz := (sz + n) % 2 ^ 32
    if newsz = 0 then none else some (some (sz, { h with brk := min sz newsz }))

/-- `morecore`: 0 when there is no memory, and no answer where the program faults. -/
def morecore (h : Heap) (gap : Option ℕ) (nu : ℕ) : Option (ℕ × Heap) := do
  let nu := if nu < 4096 then 4096 else nu
  match ← h.sbrk gap (nu * HEADERSIZE % 2 ^ 32) with
  | none => pure (0, h)
  | some (hp, h) =>
    -- `hp->s.size = nu` needs the page of the header
    if PGROUNDUP h.brk < hp + HEADERSIZE then none
    else
      let h ← { h with
        mem := update h.mem hp ⟨(h.mem hp).ptr, nu⟩
        units := h.units + nu }.free (hp + HEADERSIZE)
      pure (h.freep, h)

/-- `malloc` takes `nunits` units from the free block `p`, which follows `prevp`. -/
def take (h : Heap) (nunits prevp p : ℕ) : ℕ × Heap :=
  if (h.mem p).size = nunits then
    (p + HEADERSIZE, { h with
      mem := update h.mem prevp ⟨(h.mem p).ptr, (h.mem prevp).size⟩
      freep := prevp
      live := ⟨p, nunits⟩ :: h.live })
  else
    let rest := (h.mem p).size - nunits
    let mem := update h.mem p ⟨(h.mem p).ptr, rest⟩
    let p := p + HEADERSIZE * rest
    (p + HEADERSIZE, { h with
      mem := update mem p ⟨(mem p).ptr, nunits⟩
      freep := prevp
      live := ⟨p, nunits⟩ :: h.live })

/-- The loop of `malloc`, for at most `fuel` rounds. -/
def search (gap : Option ℕ) (nunits : ℕ) : ℕ → ℕ → ℕ → Heap → Option (ℕ × Heap)
  | 0, _, _, _ => none
  | fuel + 1, prevp, p, h =>
    if nunits ≤ (h.mem p).size then some (h.take nunits prevp p)
    else if p = h.freep then do
      let (p, h) ← h.morecore gap nunits
      if p = 0 then pure (0, h)
      else search (gap.map fun _ => 0) nunits fuel p (h.mem p).ptr h
    else search gap nunits fuel p (h.mem p).ptr h

def nunits (nbytes : ℕ) : ℕ := (nbytes + HEADERSIZE - 1) % 2 ^ 32 / HEADERSIZE + 1

def ready (base : ℕ) (h : Heap) : Heap :=
  if h.freep = 0 then { h with mem := update h.mem base ⟨base, 0⟩, freep := base } else h

/-- `malloc(nbytes)`, for a program whose variable `base` is at the address `base`. -/
def malloc (base : ℕ) (h : Heap) (gap : Option ℕ) (nbytes : ℕ) : Option (ℕ × Heap) :=
  let h := h.ready base
  search gap (nunits nbytes) (2 * h.units + 4) h.freep (h.mem h.freep).ptr h

end Heap

/-- A program allocates, with the way `sbrk` answers while it does, or frees a block it holds. -/
inductive Act where
  | malloc (nbytes : ℕ) (gap : Option ℕ)
  | free (ap : ℕ)
deriving DecidableEq, Repr

/-- Requests of less than 2^30 bytes, and blocks that `malloc` returned and that have not been
freed since. -/
def Act.Legal (h : Heap) : Act → Prop
  | malloc nbytes _ => nbytes < 2 ^ 30
  | free ap => ∃ b ∈ h.live, b.addr + HEADERSIZE = ap

instance (h : Heap) : DecidablePred (Act.Legal h)
  | .malloc _ _ => inferInstanceAs (Decidable (_ < _))
  | .free _ => inferInstanceAs (Decidable (∃ b ∈ h.live, _))

def step (base : ℕ) (h : Heap) : Act → Option Heap
  | .malloc nbytes gap => (h.malloc base gap nbytes).map Prod.snd
  | .free ap => h.free ap

/-- A program before its first call, with the end of its memory at `brk`. -/
def start (brk : ℕ) : Heap := ⟨fun _ => ⟨0, 0⟩, 0, brk, [], 0⟩

end Xv6.Umalloc
