import Xv6.Proofs.Store
import Xv6.Spec.OpBlocks

/-! Reading an inode whose blocks are all there: `bmap` finds them, and `readi` returns their
bytes and changes nothing. -/

namespace Xv6

open Store

theorem slotOf_direct {blocks : ℕ → Block} {d : Dinode} {bn : ℕ} (h : bn < NDIRECT) :
    slotOf blocks d (slotIdx bn) = d.addr bn := by
  rw [slotIdx, if_pos h, slotOf_le h.le]

theorem slotOf_indirect {blocks : ℕ → Block} {d : Dinode} {bn : ℕ} (h : NDIRECT ≤ bn) :
    slotOf blocks d (slotIdx bn) = if d.addr NDIRECT = 0 then 0
      else (blocks (d.addr NDIRECT)).word 4 (4 * (bn - NDIRECT)) := by
  rw [slotIdx, if_neg (by omega), slotOf_gt (by omega),
    show bn + 1 - NDIRECT - 1 = bn - NDIRECT by omega]

def fileByte (blocks : ℕ → Block) (d : Dinode) (k : ℕ) : UInt8 :=
  (blocks (slotOf blocks d (slotIdx (k / BSIZE)))).get (k % BSIZE)

def fileBytes (blocks : ℕ → Block) (d : Dinode) (off len : ℕ) : List UInt8 :=
  (List.range len).map fun k => fileByte blocks d (off + k)

theorem fileBytes_add (blocks : ℕ → Block) (d : Dinode) (off m n : ℕ) :
    fileBytes blocks d off (m + n) = fileBytes blocks d off m ++ fileBytes blocks d (off + m) n := by
  unfold fileBytes
  rw [List.range_add, List.map_append, List.map_map]
  congr 2
  funext k
  simp [Nat.add_assoc]

theorem slice_eq_fileBytes (blocks : ℕ → Block) (d : Dinode) {off m : ℕ}
    (hm : m ≤ BSIZE - off % BSIZE) :
    (blocks (slotOf blocks d (slotIdx (off / BSIZE)))).slice (off % BSIZE) m =
      fileBytes blocks d off m := by
  unfold Buffer.slice fileBytes
  refine List.map_congr_left fun k hk => ?_
  have hkm := List.mem_range.mp hk
  have hdiv : (off + k) / BSIZE = off / BSIZE := by
    simp only [BSIZE] at *
    omega
  have hmod : (off + k) % BSIZE = off % BSIZE + k := by
    simp only [BSIZE] at *
    omega
  unfold fileByte
  rw [hdiv, hmod]

def Backed (blocks : ℕ → Block) (d : Dinode) (len : ℕ) : Prop :=
  ∀ bn, bn * BSIZE < len → bn < MAXFILE ∧ slotOf blocks d (slotIdx bn) ≠ 0

namespace Fs

variable {s : Fs} {p : Ptr}

theorem bmap_slot {bn : ℕ} (hbn : bn < MAXFILE)
    (hb : slotOf s.blocks (s.icache p).d (slotIdx bn) ≠ 0) :
    bmap p bn s = .ok (slotOf s.blocks (s.icache p).d (slotIdx bn)) s := by
  unfold bmap
  by_cases hd : bn < NDIRECT
  · rw [slotOf_direct hd] at hb ⊢
    rw [if_pos hd]
    change (if (s.icache p).d.addr bn = 0 then _ else _ : FsM ℕ) s = _
    rw [if_neg hb]
    rfl
  · rw [slotOf_indirect (by omega)] at hb ⊢
    have hi : (s.icache p).d.addr NDIRECT ≠ 0 := fun hz => hb (if_pos hz)
    rw [if_neg hi] at hb ⊢
    have hlt : bn - NDIRECT < NINDIRECT := by
      simp only [MAXFILE] at hbn
      omega
    rw [if_neg hd, if_pos hlt]
    have hind : bmapAddr p NDIRECT s = .ok ((s.icache p).d.addr NDIRECT) s := by
      change (if (s.icache p).d.addr NDIRECT = 0 then _ else _ : FsM ℕ) s = _
      rw [if_neg hi]
      rfl
    rw [Exec.bind_apply, hind]
    change (if (s.blocks ((s.icache p).d.addr NDIRECT)).word 4 (4 * (bn - NDIRECT)) = 0 then _
      else _ : FsM ℕ) s = _
    rw [if_neg hb]
    rfl

theorem readFrom_backed (off len : ℕ) (hb : Backed s.blocks (s.icache p).d (off + len)) :
    readFrom p off len s = .ok (fileBytes s.blocks (s.icache p).d off len) s := by
  induction len using Nat.strong_induction_on generalizing off with
  | _ len ih =>
    unfold readFrom
    split_ifs with hn
    · subst hn
      rfl
    have hlt : off % BSIZE < BSIZE := Nat.mod_lt _ (by decide)
    have hoff : off / BSIZE * BSIZE ≤ off := Nat.div_mul_le_self off BSIZE
    obtain ⟨hbn, hslot⟩ := hb (off / BSIZE) (by omega)
    set m := min len (BSIZE - off % BSIZE) with hm
    have hrest := ih (len - m) (by omega) (off + m) fun bn hbn => hb bn (by omega)
    rw [Exec.bind_apply, bmap_slot hbn hslot]
    change ((readFrom p (off + m) (len - m) >>= fun rest =>
      Pure.pure ((s.blocks (slotOf s.blocks (s.icache p).d
        (slotIdx (off / BSIZE)))).slice (off % BSIZE) m ++ rest)) : FsM _) s = _
    rw [Exec.bind_apply, hrest]
    refine congrArg (Res.ok · s) ?_
    -- the first round reads the bytes below `m`
    rw [slice_eq_fileBytes _ _ (min_le_right _ _), ← fileBytes_add,
      show m + (len - m) = len by omega]

theorem readi_backed {off len : ℕ} (hdev : (s.icache p).d.type ≠ T_DEV)
    (hoff : off ≤ (s.icache p).d.size.toNat) (hlen : off + len < 2 ^ 32)
    (hb : Backed s.blocks (s.icache p).d (off + min len ((s.icache p).d.size.toNat - off))) :
    ops.readi p off len s = .ok ((min len ((s.icache p).d.size.toNat - off) : ℕ),
      fileBytes s.blocks (s.icache p).d off (min len ((s.icache p).d.size.toNat - off))) s := by
  change (if (s.icache p).d.type = T_DEV then _ else _ : FsM _) s = _
  rw [if_neg hdev]
  dsimp only
  have hok : ¬(off > (s.icache p).d.size.toNat ∨ (off + len) % 2 ^ 32 < off) := by
    rw [Nat.mod_eq_of_lt hlen]
    omega
  rw [if_neg hok]
  have hmin : (if off + len > (s.icache p).d.size.toNat then (s.icache p).d.size.toNat - off
      else len) = min len ((s.icache p).d.size.toNat - off) := by
    split_ifs <;> omega
  have hread : ops.readFrom p off _ s = _ := readFrom_backed off _ hb
  rw [hmin, Exec.bind_apply, hread]
  rfl

end Fs

end Xv6
