import Mathlib.Data.Nat.Bitwise
import Xv6.Spec.Blocks

/-! The on-disk format read back: a stored disk inode is the one that was written and the
other inodes of its block are untouched; a bit of the free map changes alone. -/

namespace Xv6

open Nat

namespace Dinode

theorem encode_length (d : Dinode) : d.encode.length = DINODESIZE := by
  have h : (d.addrs.toList.flatMap fun a => Bytes.le 4 a.toNat).length = 48 := by
    simp [List.length_flatMap]
  simp [encode, h]
  rfl

theorem decode_encode (b : Block) (o : ℕ) (d : Dinode) (ho : o + DINODESIZE ≤ BSIZE) :
    decode (b.patch o d.encode) o = d := by
  have hl := encode_length d
  have hw : ∀ w k, k + w ≤ DINODESIZE →
      (b.patch o d.encode).word w (o + k) = Bytes.leVal ((d.encode.drop k).take w) :=
    fun w k hk => Buffer.word_patch_inside w b o d.encode k (hl ▸ hk) (hl ▸ ho)
  have h0 := hw 2 0 (by decide)
  rw [add_zero] at h0
  unfold decode
  rw [h0, hw 2 2 (by decide), hw 2 4 (by decide), hw 2 6 (by decide), hw 4 8 (by decide),
    hw 4 12 (by decide)]
  obtain ⟨type, major, minor, nlink, mode, size, addrs⟩ := d
  have haddr : ∀ k : Fin 12,
      Bytes.leVal (((encode ⟨type, major, minor, nlink, mode, size, addrs⟩).drop (16 + 4 * k)).take 4)
        = addrs[k].toNat := by
    intro k
    have hr := Bytes.record_flatMap 4 (fun a : BitVec 32 => Bytes.le 4 a.toNat) (by simp)
      addrs.toList k (by simp)
    have hd : (encode ⟨type, major, minor, nlink, mode, size, addrs⟩).drop (16 + 4 * k) =
        (addrs.toList.flatMap fun a => Bytes.le 4 a.toNat).drop (4 * k) := by
      rw [← List.drop_drop]
      simp (disch := omega) [encode, List.drop_append, Bytes.drop_le]
    rw [hd, hr, Bytes.leVal_le_toNat 4]
    simp
  congr 1
  · simp [encode, Bytes.leVal_le_toNat 2]
  · simp [encode, Bytes.leVal_le_toNat 2]
  · simp [encode, List.drop_append, Bytes.drop_le, Bytes.leVal_le_toNat 2]
  · simp [encode, List.drop_append, Bytes.drop_le, Bytes.leVal_le_toNat 2]
  · simp [encode, List.drop_append, Bytes.drop_le, Bytes.leVal_le_toNat 4]
  · simp [encode, List.drop_append, Bytes.drop_le, Bytes.leVal_le_toNat 4]
  · apply Vector.ext
    intro k hk
    rw [Vector.getElem_ofFn, show o + 16 + 4 * k = o + (16 + 4 * k) by ring,
      hw 4 (16 + 4 * k) (by simp only [DINODESIZE]; omega), haddr ⟨k, hk⟩]
    simp

theorem decode_patch_of_disjoint (b : Block) (o off : ℕ) (src : List UInt8)
    (h : o + DINODESIZE ≤ off ∨ off + src.length ≤ o) : decode (b.patch off src) o = decode b o := by
  have hw : ∀ w k, k + w ≤ DINODESIZE → (b.patch off src).word w (o + k) = b.word w (o + k) := by
    intro w k hk
    exact Buffer.word_patch_of_disjoint w b off src (o + k) (by omega)
  have h0 := hw 2 0 (by decide)
  rw [add_zero] at h0
  unfold decode
  rw [h0, hw 2 2 (by decide), hw 2 4 (by decide), hw 2 6 (by decide), hw 4 8 (by decide),
    hw 4 12 (by decide)]
  have ha : ∀ k : Fin 12, (b.patch off src).word 4 (o + 16 + 4 * k) = b.word 4 (o + 16 + 4 * k) := by
    intro k
    rw [add_assoc]
    exact hw 4 (16 + 4 * k) (by simp only [DINODESIZE]; omega)
  simp only [ha]

theorem addr_of_zero {d : Dinode} (h : d.addrs = zero.addrs) (k : ℕ) : d.addr k = 0 := by
  unfold addr
  rw [h]
  unfold zero
  simp only [Vector.getElem?_replicate]
  split_ifs <;> rfl

theorem addr_setAddr (d : Dinode) (k b j : ℕ) (hj : j ≤ NDIRECT) :
    (d.setAddr k b).addr j = if j = k then b % 2 ^ 32 else d.addr j := by
  have hj' : j < 12 := lt_succ_of_le hj
  unfold addr setAddr
  simp only [Vector.getElem?_ofFn, hj', dif_pos, Option.getD_some]
  split_ifs with h
  · simp
  · simp [hj']

end Dinode

theorem inodeOff_add_le (i : ℕ) : inodeOff i + DINODESIZE ≤ BSIZE := by
  have := mod_lt i (show 0 < IPB by decide)
  simp only [inodeOff, DINODESIZE, BSIZE, IPB] at *
  omega

theorem inodeOff_disjoint {i j : ℕ} (h : i % IPB ≠ j % IPB) :
    inodeOff i + DINODESIZE ≤ inodeOff j ∨ inodeOff j + DINODESIZE ≤ inodeOff i := by
  simp only [inodeOff, DINODESIZE]
  omega

/-! The free map. -/

variable (bp : Block)

theorem bitClear_eq (bi : ℕ) : bitClear bp bi = !(bp.get (bi / 8)).toNat.testBit (bi % 8) := by
  unfold bitClear
  rw [one_shiftLeft, and_two_pow]
  cases (bp.get (bi / 8)).toNat.testBit (bi % 8) <;> simp

theorem bitClear_patch (bi bj v : ℕ) (hi : bi < BPB) (hv : v < 256) :
    bitClear (bp.patch (bi / 8) [UInt8.ofNat v]) bj =
      if bj / 8 = bi / 8 then !v.testBit (bj % 8) else bitClear bp bj := by
  have hi' : bi / 8 < BSIZE := by simp only [BPB, BSIZE] at *; omega
  rw [bitClear_eq, bitClear_eq]
  split_ifs with h
  · rw [h, Buffer.get_patch _ _ _ hi', if_pos le_rfl]
    simp [mod_eq_of_lt hv]
  · rw [Buffer.get_patch_of_outside]
    simp only [List.length_singleton]
    omega

theorem testBit_mask {k j : ℕ} (hk : k < 8) (hj : j < 8) : (255 - 2 ^ k).testBit j = (j != k) := by
  interval_cases k <;> interval_cases j <;> rfl

theorem bitClear_setBit (bi bj : ℕ) (hi : bi < BPB) :
    bitClear (setBit bp bi) bj = (bitClear bp bj && bj != bi) := by
  have hb := (bp.get (bi / 8)).toNat_lt
  have hp : 2 ^ (bi % 8) < 2 ^ 8 := Nat.pow_lt_pow_right (by decide) (Nat.mod_lt _ (by decide))
  unfold setBit
  rw [Nat.one_shiftLeft, bitClear_patch _ _ _ _ hi (Nat.or_lt_two_pow hb hp), bitClear_eq]
  split_ifs with h
  · rw [testBit_or, testBit_two_pow, h, Bool.not_or]
    congr 1
    rw [bne, ← decide_not, Bool.beq_eq_decide_eq, ← decide_not, decide_eq_decide]
    omega
  · have : bj ≠ bi := fun e => h (by rw [e])
    simp [this]

theorem bitClear_clearBit (bi bj : ℕ) (hi : bi < BPB) :
    bitClear (clearBit bp bi) bj = (bitClear bp bj || bj == bi) := by
  have hb := (bp.get (bi / 8)).toNat_lt
  have hk : bi % 8 < 8 := mod_lt _ (by decide)
  unfold clearBit
  rw [one_shiftLeft, bitClear_patch _ _ _ _ hi (lt_of_le_of_lt and_le_left hb), bitClear_eq]
  split_ifs with h
  · rw [testBit_and, testBit_mask hk (mod_lt _ (by decide)), h, Bool.not_and]
    congr 1
    rw [bne, Bool.not_not, Bool.beq_eq_decide_eq, Bool.beq_eq_decide_eq, decide_eq_decide]
    omega
  · have : bj ≠ bi := fun e => h (by rw [e])
    simp [this]

end Xv6
