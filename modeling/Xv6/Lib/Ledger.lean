import Mathlib.Tactic

/-! Bookkeeping of an allocator: slots that hold at most one block each, and a free map
with the blocks that are marked. A block may be unmarked before the slot that holds it is
cleared; such blocks are `out`. -/

structure Ledger (S B : Type) where
  held : S → Option B
  used : B → Prop

namespace Ledger

variable {S B : Type}

/-- No block is held twice, every held block is one of `data` and marked unless it is
`out`, and the `reserved` blocks are marked. -/
structure Sound (data reserved out : Set B) (L : Ledger S B) : Prop where
  data : ∀ x b, L.held x = some b → b ∈ data
  unique : ∀ x y b, L.held x = some b → L.held y = some b → x = y
  marked : ∀ x b, L.held x = some b → b ∉ out → L.used b
  reserved : ∀ b ∈ reserved, L.used b

variable {data reserved out : Set B} {L L' : Ledger S B}

theorem Sound.not_held (h : L.Sound data reserved ∅) {b : B} (hb : ¬L.used b) (x : S) :
    L.held x ≠ some b :=
  fun hx => hb (h.marked x b hx (Set.notMem_empty b))

section

variable (h : L.Sound data reserved out)
include h

theorem Sound.not_reserved {b : B} (hb : ¬L.used b) : b ∉ reserved :=
  fun hr => hb (h.reserved b hr)

theorem Sound.sub (hheld : ∀ x b, L'.held x = some b → L.held x = some b)
    (hused : ∀ b, b ∈ data ∨ b ∈ reserved → L.used b → L'.used b) : L'.Sound data reserved out where
  data x b hx := h.data x b (hheld x b hx)
  unique x y b hx hy := h.unique x y b (hheld x b hx) (hheld y b hy)
  marked x b hx ho :=
    hused b (.inl (h.data x b (hheld x b hx))) (h.marked x b (hheld x b hx) ho)
  reserved b hb := hused b (.inr hb) (h.reserved b hb)

theorem Sound.put {x : S} {b : B} (hd : b ∈ data) (hb : ∀ y, L.held y ≠ some b) (hu : L.used b)
    (hheld : ∀ y c, L'.held y = some c → L.held y = some c ∨ y = x ∧ c = b)
    (hused : L'.used = L.used) : L'.Sound data reserved out where
  data y c hy := by
    rcases hheld y c hy with hy | ⟨-, rfl⟩
    · exact h.data y c hy
    · exact hd
  unique y z c hy hz := by
    rcases hheld y c hy with hy | ⟨rfl, rfl⟩ <;> rcases hheld z c hz with hz | ⟨rfl, hc⟩
    · exact h.unique y z c hy hz
    · exact absurd (hc ▸ hy) (hb y)
    · exact absurd hz (hb z)
    · rfl
  marked y c hy ho := by
    rw [hused]
    rcases hheld y c hy with hy | ⟨-, rfl⟩
    · exact h.marked y c hy ho
    · exact hu
  reserved c hc := hused ▸ h.reserved c hc

theorem Sound.unmark {b : B} (hb : b ∉ reserved) (hheld : L'.held = L.held)
    (hused : ∀ c, c ∈ data ∨ c ∈ reserved → c ≠ b → L.used c → L'.used c) :
    L'.Sound data reserved (insert b out) where
  data x c hx := h.data x c (hheld ▸ hx)
  unique x y c hx hy := h.unique x y c (hheld ▸ hx) (hheld ▸ hy)
  marked x c hx ho := by
    rw [hheld] at hx
    rw [Set.mem_insert_iff, not_or] at ho
    exact hused c (.inl (h.data x c hx)) ho.1 (h.marked x c hx ho.2)
  reserved c hc := hused c (.inr hc) (fun e => hb (e ▸ hc)) (h.reserved c hc)

theorem Sound.settle (hheld : ∀ x b, L'.held x = some b → L.held x = some b ∧ b ∉ out)
    (hused : L'.used = L.used) : L'.Sound data reserved ∅ where
  data x b hx := h.data x b (hheld x b hx).1
  unique x y b hx hy := h.unique x y b (hheld x b hx).1 (hheld y b hy).1
  marked x b hx _ := hused ▸ h.marked x b (hheld x b hx).1 (hheld x b hx).2
  reserved b hb := hused ▸ h.reserved b hb

end

end Ledger
