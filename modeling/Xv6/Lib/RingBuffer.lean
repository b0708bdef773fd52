import Mathlib.Tactic

/-! A ring buffer addressed by two free-running counters of `w` bits. The counters wrap
around, and the capacity divides the number of their values. `RingBuffer.Holds r q` ties a
buffer from which `r` elements have been taken to the queue `q` of those still in it. -/

structure RingBuffer (α : Type) (N w : ℕ) where
  data : Fin N → α
  nread : BitVec w
  nwrite : BitVec w

namespace RingBuffer

variable {α : Type} {N w : ℕ} [NeZero N]

def slot (c : BitVec w) : Fin N := Fin.ofNat N c.toNat

def put (b : RingBuffer α N w) (a : α) : RingBuffer α N w :=
  { b with data := Function.update b.data (slot b.nwrite) a, nwrite := b.nwrite + 1#w }

def head (b : RingBuffer α N w) : α := b.data (slot b.nread)

def tail (b : RingBuffer α N w) : RingBuffer α N w := { b with nread := b.nread + 1#w }

def isEmpty (b : RingBuffer α N w) : Bool := b.nread == b.nwrite

def isFull (b : RingBuffer α N w) : Bool := b.nwrite == b.nread + BitVec.ofNat w N

structure Holds (b : RingBuffer α N w) (r : ℕ) (q : List α) : Prop where
  nread : b.nread = BitVec.ofNat w r
  nwrite : b.nwrite = BitVec.ofNat w (r + q.length)
  length_le : q.length ≤ N
  data : ∀ i a, q[i]? = some a → b.data (Fin.ofNat N (r + i)) = a

variable {b : RingBuffer α N w} {r : ℕ} {q : List α}

theorem slot_ofNat (hN : N ∣ 2 ^ w) (c : ℕ) : (slot (BitVec.ofNat w c) : Fin N) = Fin.ofNat N c := by
  refine Fin.ext ?_
  simp only [slot, BitVec.toNat_ofNat, Fin.val_ofNat]
  exact Nat.mod_mod_of_dvd c hN

theorem ofNat_add_inj (c : ℕ) {i j : ℕ} (hi : i < 2 ^ w) (hj : j < 2 ^ w) :
    BitVec.ofNat w (c + i) = BitVec.ofNat w (c + j) ↔ i = j := by
  constructor
  · intro h
    have hmod : c + i ≡ c + j [MOD 2 ^ w] := by
      have := congrArg BitVec.toNat h
      rwa [BitVec.toNat_ofNat, BitVec.toNat_ofNat] at this
    exact (Nat.ModEq.add_left_cancel' c hmod).eq_of_lt_of_lt hi hj
  · rintro rfl
    rfl

theorem Holds.isEmpty_iff (h : b.Holds r q) (hlt : N < 2 ^ w) : b.isEmpty = true ↔ q = [] := by
  have hle := h.length_le
  rw [isEmpty, beq_iff_eq, h.nread, h.nwrite, ← List.length_eq_zero_iff]
  have := ofNat_add_inj (w := w) r (i := 0) (j := q.length) (by omega) (by omega)
  rw [Nat.add_zero] at this
  exact this.trans eq_comm

theorem Holds.isFull_iff (h : b.Holds r q) (hlt : N < 2 ^ w) : b.isFull = true ↔ q.length = N := by
  have hle := h.length_le
  rw [isFull, beq_iff_eq, h.nread, h.nwrite, ← BitVec.ofNat_add]
  exact ofNat_add_inj r (by omega) hlt

theorem toNat_ofNat_add_sub (c : ℕ) {i : ℕ} (hi : i < 2 ^ w) :
    (BitVec.ofNat w (c + i) - BitVec.ofNat w c).toNat = i := by
  rw [BitVec.ofNat_add, BitVec.add_comm, BitVec.add_sub_cancel, BitVec.toNat_ofNat]
  exact Nat.mod_eq_of_lt hi

theorem Holds.toNat_sub (h : b.Holds r q) (hlt : N < 2 ^ w) :
    (b.nwrite - b.nread).toNat = q.length := by
  rw [h.nread, h.nwrite]
  exact toNat_ofNat_add_sub r (h.length_le.trans_lt hlt)

theorem holds_nil (data : Fin N → α) : (⟨data, 0#w, 0#w⟩ : RingBuffer α N w).Holds 0 [] :=
  ⟨rfl, rfl, Nat.zero_le N, fun _ _ h => by simp at h⟩

theorem Holds.put (h : b.Holds r q) (hN : N ∣ 2 ^ w) (hroom : q.length < N) (a : α) :
    (b.put a).Holds r (q ++ [a]) where
  nread := h.nread
  nwrite := by
    change b.nwrite + 1#w = _
    rw [h.nwrite, ← BitVec.ofNat_add, List.length_append, List.length_singleton, Nat.add_assoc]
  length_le := by
    rw [List.length_append, List.length_singleton]
    omega
  data i x hx := by
    change Function.update b.data (slot b.nwrite) a (Fin.ofNat N (r + i)) = x
    rw [h.nwrite, slot_ofNat hN]
    by_cases hi : i < q.length
    · -- the slots of the elements in the buffer are different
      have hne : Fin.ofNat N (r + i) ≠ Fin.ofNat N (r + q.length) := by
        intro he
        have hmod : r + i ≡ r + q.length [MOD N] := congrArg Fin.val he
        have := (Nat.ModEq.add_left_cancel' r hmod).eq_of_lt_of_lt (by omega) hroom
        omega
      rw [Function.update_of_ne hne]
      rw [List.getElem?_append_left hi] at hx
      exact h.data i x hx
    · rw [List.getElem?_append_right (by omega)] at hx
      obtain ⟨hlt, hx⟩ := List.getElem?_eq_some_iff.mp hx
      rw [List.length_singleton] at hlt
      obtain rfl : i = q.length := by omega
      rw [Function.update_self]
      simpa using hx

theorem Holds.unput {a : α} (h : b.Holds r (q ++ [a])) :
    ({ b with nwrite := b.nwrite - 1#w } : RingBuffer α N w).Holds r q where
  nread := h.nread
  nwrite := by
    change b.nwrite - 1#w = _
    rw [h.nwrite, List.length_append, List.length_singleton, ← Nat.add_assoc, BitVec.ofNat_add _ 1,
      BitVec.add_sub_cancel]
  length_le := by
    have := h.length_le
    rw [List.length_append, List.length_singleton] at this
    omega
  data i x hx := h.data i x (by
    rw [List.getElem?_append_left (List.getElem?_eq_some_iff.mp hx).1]
    exact hx)

theorem Holds.last {a : α} (h : b.Holds r (q ++ [a])) (hN : N ∣ 2 ^ w) :
    b.data (slot (b.nwrite - 1#w)) = a := by
  have hw : b.nwrite - 1#w = BitVec.ofNat w (r + q.length) := h.unput.nwrite
  rw [hw, slot_ofNat hN]
  exact h.data q.length a (by simp)

theorem Holds.head {a : α} (h : b.Holds r (a :: q)) (hN : N ∣ 2 ^ w) : b.head = a := by
  rw [RingBuffer.head, h.nread, slot_ofNat hN]
  exact h.data 0 a rfl

theorem Holds.tail {a : α} (h : b.Holds r (a :: q)) : b.tail.Holds (r + 1) q where
  nread := by
    change b.nread + 1#w = _
    rw [h.nread, ← BitVec.ofNat_add]
  nwrite := by
    change b.nwrite = _
    rw [h.nwrite, List.length_cons]
    congr 1
    omega
  length_le := (Nat.le_succ _).trans h.length_le
  data i x hx := by
    have := h.data (i + 1) x hx
    rwa [show r + (i + 1) = r + 1 + i by omega] at this

end RingBuffer
