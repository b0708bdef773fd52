import Xv6.Spec.Memmove

/-! Where the two `memmove` agree. -/

namespace Xv6

open Function

variable {dst src n : ℕ}

def moved (dst src n : ℕ) (mem : Memory) : Memory := fun a =>
  if dst ≤ a ∧ a < dst + n then mem (src + (a - dst)) else mem a

/-- The part of the source that lies in the destination holds what the copy puts there. -/
def Repeats (dst src n : ℕ) (mem : Memory) : Prop :=
  src < dst → ∀ a, dst ≤ a → a < src + n → mem a = mem (src + (a - dst))

theorem copyUp_eq {mem : Memory} (h : Repeats dst src n mem) : copyUp n dst src mem = moved dst src n mem := by
  induction n generalizing dst src mem with
  | zero => exact funext fun a => (if_neg (by omega)).symm
  | succ n ih =>
    -- the byte written is outside the rest of the source, or was there already
    have hsame : ∀ k < n + 1, update mem dst (mem src) (src + k) = mem (src + k) := by
      intro k hk
      by_cases heq : src + k = dst
      · rcases Nat.eq_zero_or_pos k with rfl | hpos
        · rw [← heq, Nat.add_zero, update_self]
        · have hdst := h (by omega) dst le_rfl (by omega)
          rw [heq, update_self, hdst, Nat.sub_self, Nat.add_zero]
      · exact update_of_ne heq _ _
    have hrest : Repeats (dst + 1) (src + 1) n (update mem dst (mem src)) := by
      intro hlt a ha han
      rw [update_of_ne (by omega), h (by omega) a (by omega) (by omega),
        show src + 1 + (a - (dst + 1)) = src + (a - dst) by omega, hsame _ (by omega)]
    rw [copyUp, ih hrest]
    funext a
    unfold moved
    split_ifs with h1 h2 h2
    · rw [show src + 1 + (a - (dst + 1)) = src + (a - dst) by omega, hsame _ (by omega)]
    · omega
    · obtain rfl : a = dst := by omega
      rw [update_self, Nat.sub_self, Nat.add_zero]
    · exact update_of_ne (by omega) _ _

theorem copyUp_below {a : ℕ} (ha : a < dst) (mem : Memory) : copyUp n dst src mem a = mem a := by
  induction n generalizing dst src mem with
  | zero => rfl
  | succ n ih => rw [copyUp, ih (by omega), update_of_ne (by omega)]

theorem copyUp_repeats {i : ℕ} (hlt : src < dst) (hi : i < n) (mem : Memory) :
    copyUp n dst src mem (dst + i) = copyUp n dst src mem (src + i) := by
  induction n generalizing dst src i mem with
  | zero => omega
  | succ n ih =>
    rw [copyUp]
    cases i with
    | zero =>
      rw [copyUp_below (by omega), copyUp_below (by omega), Nat.add_zero, Nat.add_zero, update_self,
        update_of_ne hlt.ne]
    | succ i =>
      have := @ih (dst + 1) (src + 1) i (by omega) (by omega) (update mem dst (mem src))
      rwa [Nat.add_right_comm, Nat.add_right_comm src] at this

theorem copyDown_eq (h : src < dst) (mem : Memory) : copyDown dst src n mem = moved dst src n mem := by
  induction n generalizing mem with
  | zero => exact funext fun a => (if_neg (by omega)).symm
  | succ n ih =>
    rw [copyDown, ih]
    funext a
    unfold moved
    split_ifs with h1 h2 h2
    · exact update_of_ne (by omega) _ _
    · omega
    · obtain rfl : a = dst + n := by omega
      rw [update_self, Nat.add_sub_cancel_left]
    · exact update_of_ne (by omega) _ _

theorem copyUp_moves_iff {mem : Memory} : copyUp n dst src mem = moved dst src n mem ↔ Repeats dst src n mem := by
  refine ⟨fun h hlt a ha han => ?_, copyUp_eq⟩
  obtain ⟨i, rfl⟩ := Nat.exists_eq_add_of_le (hlt.le.trans ha)
  have hrep := copyUp_repeats (n := n) (i := i) hlt (by omega) mem
  rw [h, moved, moved, if_pos ⟨by omega, by omega⟩, if_pos ⟨ha, by omega⟩, Nat.add_sub_cancel_left] at hrep
  exact hrep

/-- The kernel's `memmove` moves the bytes however the ranges overlap. The user's does when `dst` is
not inside the source, or the bytes of the source repeat from there on. -/
theorem memmove_moves (dst src n : ℕ) (mem : Memory) (hsrc : src + n ≤ 2 ^ 32)
    (hdst : dst + n ≤ 2 ^ 32) :
    (StringC.memmove dst src n mem = moved dst src n mem ∧
      Ulib.memmove dst src n mem = moved dst src n mem) ↔ Repeats dst src n mem := by
  have hkernel : StringC.memmove dst src n mem = moved dst src n mem := by
    unfold StringC.memmove
    split_ifs with h
    · exact copyDown_eq h.1 mem
    · refine copyUp_eq fun hlt a ha han => absurd ⟨hlt, ?_⟩ h
      -- the source ends below the end of the destination
      rw [Nat.mod_eq_of_lt (by omega)]
      omega
  rw [and_iff_right hkernel]
  exact copyUp_moves_iff

/-- Three equal bytes, moved up by one. -/
theorem memmove_moves_equal : StringC.memmove 1 0 2 (fun _ => 7) = moved 1 0 2 (fun _ => 7) ∧
    Ulib.memmove 1 0 2 (fun _ => 7) = moved 1 0 2 (fun _ => 7) :=
  (memmove_moves 1 0 2 (fun _ => 7) (by decide) (by decide)).mpr fun _ _ _ _ => rfl

/-- The bytes 0, 1, 2 moved up by one: the user's `memmove` copies the first one twice. -/
theorem memmove_differ : StringC.memmove 1 0 2 (fun a => UInt8.ofNat a) 2 = 1 ∧
    Ulib.memmove 1 0 2 (fun a => UInt8.ofNat a) 2 = 0 := by
  decide

end Xv6
