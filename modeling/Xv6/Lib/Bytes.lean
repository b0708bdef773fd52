import Mathlib.Tactic

/-! Fixed-size byte buffers with total reads, block copies and little-endian
words. A buffer is only ever changed through `patch`, so every layout argument
is about two ranges of offsets being equal or disjoint. -/

namespace Bytes

/-- Little-endian encoding of `v` in `w` bytes, dropping what does not fit. -/
def le : ℕ → ℕ → List UInt8
  | 0, _ => []
  | w + 1, v => UInt8.ofNat (v % 256) :: le w (v / 256)

def leVal : List UInt8 → ℕ
  | [] => 0
  | b :: bs => b.toNat + 256 * leVal bs

@[simp] theorem le_length (w v : ℕ) : (le w v).length = w := by
  induction w generalizing v with
  | zero => rfl
  | succ w ih => simp [le, ih]

theorem leVal_le (w v : ℕ) : leVal (le w v) = v % 256 ^ w := by
  induction w generalizing v with
  | zero => simp [le, leVal, Nat.mod_one]
  | succ w ih =>
    simp only [le, leVal, ih]
    rw [UInt8.toNat_ofNat_of_lt' (Nat.mod_lt _ (by decide)), pow_succ, Nat.mul_comm (256 ^ w) 256,
      Nat.mod_mul]

theorem leVal_lt (bs : List UInt8) : leVal bs < 256 ^ bs.length := by
  induction bs with
  | nil => simp [leVal]
  | cons b bs ih =>
    have hb : b.toNat < 256 := b.toNat_lt
    simp only [leVal, List.length_cons, pow_succ]
    omega

theorem drop_le {w v k : ℕ} (h : w ≤ k) : (le w v).drop k = [] :=
  List.drop_eq_nil_of_le (by simpa using h)

theorem leVal_le_toNat (w : ℕ) (x : BitVec (8 * w)) : leVal (le w x.toNat) = x.toNat := by
  rw [leVal_le, Nat.mod_eq_of_lt]
  have := x.isLt
  rwa [pow_mul] at this

theorem record_flatMap {α : Type} (w : ℕ) (f : α → List UInt8) (hf : ∀ a, (f a).length = w)
    (l : List α) (k : ℕ) (hk : k < l.length) : ((l.flatMap f).drop (w * k)).take w = f l[k] := by
  induction l generalizing k with
  | nil => simp at hk
  | cons a l ih =>
    rw [List.flatMap_cons]
    cases k with
    | zero => simp [hf a]
    | succ k =>
      have hd : w * (k + 1) = (f a).length + w * k := by rw [hf a]; ring
      rw [hd, ← List.drop_drop, List.drop_left]
      simpa using ih k (by simpa using hk)

end Bytes

structure Buffer (n : ℕ) where
  data : Vector UInt8 n
deriving DecidableEq

namespace Buffer

variable {n : ℕ}

/-- Byte `k`; the reads of the model stay in bounds, an outside one gives 0. -/
def get (b : Buffer n) (k : ℕ) : UInt8 := b.data[k]?.getD 0

def ofFn (f : ℕ → UInt8) : Buffer n := ⟨Vector.ofFn fun i => f i⟩

def zero : Buffer n := ofFn fun _ => 0

@[simp] theorem get_ofFn (f : ℕ → UInt8) (k : ℕ) :
    (ofFn f : Buffer n).get k = if k < n then f k else 0 := by
  unfold get ofFn
  split_ifs with h <;> simp [h]

variable (b : Buffer n)

theorem get_of_le {k : ℕ} (h : n ≤ k) : b.get k = 0 := by
  unfold get
  rw [Vector.getElem?_eq_none h]
  rfl

@[ext] theorem ext {b c : Buffer n} (h : ∀ k < n, b.get k = c.get k) : b = c := by
  obtain ⟨b⟩ := b
  obtain ⟨c⟩ := c
  congr 1
  apply Vector.ext
  intro i hi
  simpa [get, hi] using h i hi

def patch (b : Buffer n) (off : ℕ) (src : List UInt8) : Buffer n :=
  ofFn fun k => if off ≤ k then (src[k - off]?).getD (b.get k) else b.get k

def slice (b : Buffer n) (off m : ℕ) : List UInt8 :=
  (List.range m).map fun i => b.get (off + i)

@[simp] theorem slice_length (off m : ℕ) : (b.slice off m).length = m := by
  simp [slice]

theorem get_patch (off : ℕ) (src : List UInt8) {k : ℕ} (hk : k < n) :
    (b.patch off src).get k = if off ≤ k then (src[k - off]?).getD (b.get k) else b.get k := by
  rw [patch, get_ofFn, if_pos hk]

theorem get_patch_of_outside (off : ℕ) (src : List UInt8) {k : ℕ}
    (h : k < off ∨ off + src.length ≤ k) : (b.patch off src).get k = b.get k := by
  by_cases hk : k < n
  · rw [get_patch b off src hk]
    split_ifs with ho
    · rw [List.getElem?_eq_none (by omega)]
      rfl
    · rfl
  · rw [get_of_le _ (by omega), get_of_le _ (by omega)]

theorem slice_patch_of_disjoint (off : ℕ) (src : List UInt8) {k m : ℕ}
    (h : k + m ≤ off ∨ off + src.length ≤ k) : (b.patch off src).slice k m = b.slice k m := by
  unfold slice
  apply List.map_congr_left
  intro i hi
  rw [List.mem_range] at hi
  exact get_patch_of_outside b off src (by omega)

theorem slice_patch_self (off : ℕ) (src : List UInt8)
    (h : off + src.length ≤ n) : (b.patch off src).slice off src.length = src := by
  apply List.ext_getElem (by simp)
  intro i hi hi'
  simp only [slice, List.getElem_map, List.getElem_range]
  rw [get_patch b off src (by omega), if_pos (by omega), Nat.add_sub_cancel_left,
    List.getElem?_eq_getElem hi']
  rfl

def word (w : ℕ) (b : Buffer n) (k : ℕ) : ℕ := Bytes.leVal (b.slice k w)

def setWord (w : ℕ) (b : Buffer n) (k v : ℕ) : Buffer n := b.patch k (Bytes.le w v)

theorem word_lt (w : ℕ) (b : Buffer n) (k : ℕ) : b.word w k < 256 ^ w := by
  simpa [word] using Bytes.leVal_lt (b.slice k w)

theorem word_setWord_self (w : ℕ) (b : Buffer n) (k v : ℕ) (h : k + w ≤ n) :
    (b.setWord w k v).word w k = v % 256 ^ w := by
  have hs := slice_patch_self b k (Bytes.le w v) (by simpa using h)
  rw [Bytes.le_length] at hs
  rw [word, setWord, hs, Bytes.leVal_le]

theorem word_setWord_of_disjoint (w u : ℕ) (b : Buffer n) (k j v : ℕ)
    (h : j + u ≤ k ∨ k + w ≤ j) : (b.setWord w k v).word u j = b.word u j := by
  rw [word, setWord, slice_patch_of_disjoint _ _ _ (by simpa using h)]
  rfl

theorem slice_patch_inside (off : ℕ) (src : List UInt8) {k m : ℕ}
    (hk : k + m ≤ src.length) (h : off + src.length ≤ n) :
    (b.patch off src).slice (off + k) m = (src.drop k).take m := by
  apply List.ext_getElem (by simp; omega)
  intro i hi hi'
  simp only [slice_length] at hi
  simp only [slice, List.getElem_map, List.getElem_range, List.getElem_take, List.getElem_drop]
  rw [get_patch b off src (by omega), if_pos (by omega),
    show off + k + i - off = k + i by omega, List.getElem?_eq_getElem (by omega)]
  rfl

theorem word_patch_inside (w : ℕ) (b : Buffer n) (off : ℕ) (src : List UInt8) (k : ℕ)
    (hk : k + w ≤ src.length) (h : off + src.length ≤ n) :
    (b.patch off src).word w (off + k) = Bytes.leVal ((src.drop k).take w) := by
  rw [word, slice_patch_inside b off src hk h]

theorem word_patch_of_disjoint (w : ℕ) (b : Buffer n) (off : ℕ) (src : List UInt8) (k : ℕ)
    (h : k + w ≤ off ∨ off + src.length ≤ k) : (b.patch off src).word w k = b.word w k := by
  rw [word, slice_patch_of_disjoint b off src h]
  rfl

theorem word_zero (w k : ℕ) : (zero : Buffer n).word w k = 0 := by
  have h : ∀ m, Bytes.leVal (List.replicate m 0) = 0 := by
    intro m
    induction m with
    | zero => rfl
    | succ m ih => simp [List.replicate_succ, Bytes.leVal, ih]
  have hs : (zero : Buffer n).slice k w = List.replicate w 0 := by
    apply List.ext_getElem (by simp)
    intro i _ _
    simp [slice, zero]
  rw [word, hs, h]

end Buffer
