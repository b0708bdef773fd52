import Xv6.Lib.Run
import Xv6.Proofs.InodeBlocks

/-! Block ownership over any sequence of calls of the inode layer: the file system stays
well formed, every block that is allocated was free to take, and no free block is freed. -/

namespace Xv6

namespace InodeCall

variable {s s' : Fs} {c : InodeCall}

def Safe (s s' : Fs) : Prop := ∀ g ∈ s'.granted, g ∈ s.granted ∨ Fs.Fresh g

theorem wp_of_does {α : Type} {m : FsM α} {X : Set ℕ} {n : ℕ} {R : α → Store → Prop}
    (h : Fs.Does X n m R s) (hR : ∀ a t, R a t → t.Wf) :
    Exec.wp m (fun _ s' => s'.toStore.Wf ∧ Safe s s')
      (fun e s' => e ≠ .panic .freeingFreeBlock ∧ Safe s s') s := by
  refine Exec.wp.mono h ?_ ?_
  · rintro a s' ⟨t, hist, bs, rfl, hok, -, hr⟩
    exact ⟨hR a t hr, hok⟩
  · rintro e s' ⟨t, hist, bs, rfl, hok, -, he⟩
    exact ⟨he, hok⟩

theorem run_spec (hw : s.toStore.Wf) (hc : Contract s c) :
    Exec.wp c.run (fun _ s' => s'.toStore.Wf ∧ Safe s s')
      (fun e s' => e ≠ .panic .freeingFreeBlock ∧ Safe s s') s := by
  have hself : Safe s s := fun _ hg => .inl hg
  cases c with
  | beginOp =>
    change Exec.wp Fs.beginOp _ _ s
    unfold Exec.wp Fs.beginOp
    cases s.log.beginOp with
    | none => exact ⟨by simp, hself⟩
    | some log => exact ⟨hw, hself⟩
  | endOp =>
    change Exec.wp Fs.endOp _ _ s
    unfold Exec.wp Fs.endOp
    cases s.log.endOp with
    | error e => exact ⟨by simp, hself⟩
    | ok r =>
      obtain ⟨log, commit⟩ := r
      cases commit with
      | true => exact ⟨hw, hself⟩
      | false => exact ⟨hw, hself⟩
  | iget inum =>
    exact wp_of_does (X := ∅) (n := 0) ((Fs.iget_spec hw inum).seq fun _ _ _ _ h => .pure h.1)
      fun _ _ h => h
  | idup ip => exact wp_of_does (X := ∅) (n := 0) (Fs.idup_spec hw hc) fun _ _ h => h.1
  | ilock ip =>
    refine wp_of_does (X := ∅) (n := 0) (Fs.ilock_spec hw fun _ => hc) fun _ t h => ?_
    obtain ⟨hq, -, -, rfl⟩ := h
    exact hw.quiet hq
  | iunlock ip =>
    refine wp_of_does (X := ∅) (n := 0) Fs.iunlock_spec fun _ t h => ?_
    subst h
    exact hw.quiet (hw.quiet_lock none)
  | iput ip => exact wp_of_does (Fs.iput_spec hw (Set.subset_univ _) trivial) fun _ _ h => h.1
  | ialloc type =>
    exact wp_of_does (X := ∅) ((Fs.ialloc_spec hw type).bind (k := 0) fun _ _ _ _ h => .pure h.1)
      fun _ _ h => h
  | itrunc ip =>
    exact wp_of_does (Fs.itrunc_spec hw hc.1 (Set.subset_univ _) trivial) fun _ _ h => h.1
  | readi ip off n =>
    exact wp_of_does (n := 0) ((Fs.readi_spec hw hc.1 off n).seq fun _ _ _ _ h => .pure h.1)
      fun _ _ h => h
  | writei ip src off =>
    exact wp_of_does (n := 0) ((Fs.writei_spec hw hc.1 (Set.subset_univ _) trivial src off).univ.seq
      fun _ _ _ _ h => .pure h.1) fun _ _ h => h
  | dirlink dp name inum =>
    exact wp_of_does (n := 0) ((Fs.dirlink_spec hw hc.1 name inum).seq fun _ _ _ _ h => .pure h)
      fun _ _ h => h

theorem step_inv (hw : s.toStore.Wf) (hg : ∀ g ∈ s.granted, Fs.Fresh g) (hc : Contract s c)
    (hstep : step s c = some s') : s'.toStore.Wf ∧ ∀ g ∈ s'.granted, Fs.Fresh g := by
  have hrun := run_spec hw hc
  unfold step at hstep
  unfold Exec.wp at hrun
  cases hr : c.run s with
  | halt e t => simp [hr] at hstep
  | ok a t =>
    simp only [hr, Option.some.injEq] at hstep hrun
    subst hstep
    exact ⟨hrun.1, fun g hgt => (hrun.2 g hgt).elim (hg g) id⟩

/-- Over any sequence of calls that keep the callers' contract, the file system stays well
formed: no block has two owners. Whatever call comes next, every block `balloc` hands out
in it is neither a metadata block nor owned, and it does not free a free block. -/
theorem block_ownership {cs : List InodeCall} (hw : s.toStore.Wf) (hg : s.granted = [])
    (hrun : Trans.Run step Contract s cs s') :
    s'.toStore.Wf ∧ ∀ c, Contract s' c →
      (∀ g ∈ (c.run s').state.granted, Fs.Fresh g) ∧
        ∀ s'', c.run s' ≠ .halt (.panic .freeingFreeBlock) s'' := by
  have hinv : s'.toStore.Wf ∧ ∀ g ∈ s'.granted, Fs.Fresh g := by
    refine hrun.induct (I := fun s => s.toStore.Wf ∧ ∀ g ∈ s.granted, Fs.Fresh g)
      ⟨hw, by simp [hg]⟩ ?_
    intro t c t' h hc hstep
    exact step_inv h.1 h.2 hc hstep
  refine ⟨hinv.1, fun c hc => ?_⟩
  have h := run_spec hinv.1 hc
  unfold Exec.wp at h
  cases hr : c.run s' with
  | ok a t =>
    simp only [hr] at h
    exact ⟨fun g hgt => (h.2 g hgt).elim (hinv.2 g) id, by simp⟩
  | halt e t =>
    simp only [hr] at h
    refine ⟨fun g hgt => (h.2 g hgt).elim (hinv.2 g) id, fun s'' he => ?_⟩
    injection he with he
    exact h.1 he

end InodeCall

/-! A file system as `mkfs` lays it out. -/

namespace Fs

open Store

/-- A disk of 1000 blocks with 200 inodes, all free: blocks 0 to 58 hold the boot block, the
super block, the log, the inodes and the free map. -/
def blankFs : Fs where
  sb := ⟨1000, 941, 200, 30, 2, 32, 58⟩
  blocks b := if b = 58 then Buffer.ofFn fun k => if k < 7 then 255 else if k = 7 then 7 else 0
    else Buffer.zero
  icache _ := ⟨0, 0, none, false, Dinode.zero⟩
  log := ⟨2, 30, 0, false, []⟩
  brackets := []
  granted := []
  ftable _ := ⟨.none, 0, false, false, ⟨0, ninode_pos⟩, 0⟩
  ofile _ := none
  cwd := none
  devsw _ := ⟨none, none⟩
  isInit := false

theorem blankFs_free {i : ℕ} (hi : i < 200) : (blankFs.toStore.dinode i).type = 0 := by
  have hne : IBLOCK i blankFs.sb ≠ 58 := by
    change i / 8 + 32 ≠ 58
    omega
  have hb : blankFs.toStore.blocks (IBLOCK i blankFs.sb) = Buffer.zero := if_neg hne
  change (Dinode.decode (blankFs.toStore.blocks (IBLOCK i blankFs.sb)) _).type = 0
  rw [hb]
  unfold Dinode.decode
  simp only [Buffer.word_zero]
  rfl

theorem blankFs_used {b : ℕ} (hb : b < 1000) : blankFs.toStore.used b ↔ b < 59 := by
  have hmap : BBLOCK b blankFs.sb = 58 := by
    change b / 4096 + 58 = 58
    omega
  have hmod : b % BPB = b := Nat.mod_eq_of_lt (lt_trans hb (by decide))
  have hblk : blankFs.blocks 58 =
      Buffer.ofFn fun k => if k < 7 then 255 else if k = 7 then 7 else 0 := by
    simp only [blankFs, if_true]
  unfold used
  rw [hmap, hmod, bitClear_eq, hblk, Buffer.get_ofFn,
    if_pos (show b / 8 < BSIZE by simp only [BSIZE]; omega)]
  by_cases h7 : b < 64
  · interval_cases b <;> decide
  · rw [if_neg (by omega), if_neg (by omega)]
    simp
    omega

theorem blankFs_wf : blankFs.toStore.Wf where
  geometry := ⟨by decide, by decide, by decide, by decide, by decide⟩
  unique _ _ hp := absurd hp (lt_irrefl 0)
  loaded _ hp := absurd hp.1 (lt_irrefl 0)
  synced _ _ hp := absurd hp.1 (lt_irrefl 0)
  sound := by
    have hheld : ∀ y, blankFs.toStore.held y = none := by
      intro ⟨i, k⟩
      exact if_neg fun h => h.1.2 (blankFs_free h.1.1)
    refine ⟨fun y b h => ?_, fun y z b h => ?_, fun y b h => ?_, fun b hb => ?_⟩
    · exact absurd h (by simp [ledger, hheld])
    · exact absurd h (by simp [ledger, hheld])
    · exact absurd h (by simp [ledger, hheld])
    · have hb : b < 59 := hb
      exact (blankFs_used (by omega)).mpr hb

def rootFs : Fs :=
  { blankFs with
    toStore := blankFs.toStore.setDinode ROOTINO { Dinode.zero with type := T_DIR, nlink := 1 } }

theorem rootFs_dinode (i : ℕ) : rootFs.toStore.dinode i =
    if i = ROOTINO then { Dinode.zero with type := T_DIR, nlink := 1 } else blankFs.toStore.dinode i :=
  setDinode_dinode

theorem rootFs_wf : rootFs.toStore.Wf :=
  blankFs_wf.clear (by decide) (fun p hp => absurd hp.1 (lt_irrefl 0))
    (.inr (Dinode.addr_of_zero rfl))

end Fs

namespace InodeCall

instance (s : Fs) (c : InodeCall) : Decidable (Contract s c) := by
  cases c <;> unfold Contract <;> infer_instance

/-- A new file gets an entry in the root directory, for which a block is allocated; the block is
read, written and freed. -/
def growAndTrunc : List InodeCall :=
  [.beginOp, .iget ROOTINO, .ilock ⟨0, ninode_pos⟩, .ialloc T_FILE, .dirlink ⟨0, ninode_pos⟩ [97] 2,
    .readi ⟨0, ninode_pos⟩ 0 16, .writei ⟨0, ninode_pos⟩ [0, 0] 0, .itrunc ⟨0, ninode_pos⟩,
    .iunlock ⟨0, ninode_pos⟩, .iput ⟨0, ninode_pos⟩, .endOp]

theorem block_ownership_growAndTrunc : ∃ s', Trans.Run step Contract Fs.rootFs growAndTrunc s' ∧
    s'.granted.length = 1 ∧ s'.toStore.Wf := by
  have hexec : (Trans.exec step (fun s c => decide (Contract s c)) Fs.rootFs growAndTrunc).any
      (fun s => s.granted.length == 1) = true := by decide +kernel
  obtain ⟨s', hrun, hlen⟩ := Trans.Run.of_exec_any (fun _ _ => of_decide_eq_true) hexec
  exact ⟨s', hrun, by simpa using hlen, (block_ownership Fs.rootFs_wf rfl hrun).1⟩

end InodeCall

end Xv6
