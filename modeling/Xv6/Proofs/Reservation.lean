import Xv6.Proofs.GroupCommit

/-! The reservation of `begin_op` against the capacity that `log_write` checks. The test in
`begin_op` admits three operations of `MAXOPBLOCKS` blocks, `LOGSIZE` in all, but the
log of the image holds only `nlog - 1 = LOGSIZE - 1` of them. -/

namespace Xv6.Ops

variable {P : Type} {s s' : Ops P}

/-- At a `log_write`, the operations sharing the open transaction have logged fewer
than `nlog - 1` different blocks so far. -/
def Roomy (s : Ops P) : OpsAct P → Prop
  | .logWrite _ _ => s.group.dedup.length < nlog - 1
  | _ => True

instance (s : Ops P) (a : OpsAct P) : Decidable (Roomy s a) := by
  cases a <;> unfold Roomy <;> infer_instance

theorem Inv.group_length (h : Inv s) : s.group.dedup.length = s.log.lh.length := by
  rw [← List.card_toFinset, h.group, List.toFinset_card_of_nodup h.nodup]

variable [DecidableEq P]

instance (s : Ops P) (a : OpsAct P) : Decidable (Within s a) :=
  match a with
  | .logWrite p b =>
    match h : s.phase p with
    | .running logged =>
      decidable_of_iff (distinct ((b, 0) :: logged) ≤ MAXOPBLOCKS) (by simp [Within, h])
    | .idle => .isTrue (by simp [Within, h])
    | .commit _ => .isTrue (by simp [Within, h])
  | .beginOp _ | .endOp _ | .commit _ => .isTrue trivial

theorem size_step {a : OpsAct P} (hstep : s.step a = some s') : s'.log.size = s.log.size := by
  obtain ⟨-, hb | hw | hwe | he | hee | hc⟩ := step_cases hstep
  · obtain ⟨p, log, -, -, hlog, rfl⟩ := hb
    obtain ⟨-, -, rfl⟩ := Log.beginOp_some hlog
    rfl
  · obtain ⟨p, b, logged, log, -, -, hlog, rfl⟩ := hw
    obtain ⟨-, -, -, rfl⟩ := Log.logWrite_ok hlog
    rfl
  · obtain ⟨p, b, logged, e, -, -, -, rfl⟩ := hwe
    rfl
  · obtain ⟨p, logged, log, doCommit, -, -, hlog, rfl⟩ := he
    obtain ⟨-, ⟨-, -, rfl⟩ | ⟨-, -, rfl⟩⟩ := Log.endOp_ok hlog <;> rfl
  · obtain ⟨p, logged, e, -, -, -, rfl⟩ := hee
    rfl
  · obtain ⟨p, pc, -, -, rfl⟩ := hc
    cases pc <;> simp only [commitStep] <;> (try split) <;> rfl

theorem tooBig_step (h : Inv s) (hsize : s.log.size = nlog) {a : OpsAct P}
    (hstep : s.step a = some s') : s'.panic = some .tooBig ↔ ¬ Roomy s a := by
  have hlen := h.group_length
  have hnlog : nlog = 30 := rfl
  have hcap : LOGSIZE = 30 := rfl
  obtain ⟨hpanic, hb | hw | hwe | he | hee | hc⟩ := step_cases hstep
  · obtain ⟨p, log, rfl, -, -, rfl⟩ := hb
    simp [Roomy, setPhase, hpanic]
  · obtain ⟨p, b, logged, log, rfl, -, hlog, rfl⟩ := hw
    have hroom := (Log.logWrite_ok hlog).2.1
    simp only [setPhase, hpanic, Roomy, reduceCtorEq, false_iff, not_not]
    omega
  · obtain ⟨p, b, logged, e, rfl, hp, hlog, rfl⟩ := hwe
    have hout := (h.of_running hp).1
    rcases Log.logWrite_error hlog with ⟨rfl, hfull⟩ | ⟨-, hlt⟩
    · simp only [Roomy, not_lt, true_iff]
      omega
    · omega
  · obtain ⟨p, logged, log, doCommit, rfl, -, -, rfl⟩ := he
    simp [Roomy, setPhase, hpanic]
  · obtain ⟨p, logged, e, rfl, hp, hlog, rfl⟩ := hee
    rw [(Log.endOp_error hlog).2]
    simp [Roomy]
  · obtain ⟨p, pc, rfl, -, rfl⟩ := hc
    have hsame : (s.commitStep p pc).panic = s.panic := by
      cases pc <;> simp only [commitStep] <;> (try split) <;> rfl
    simp [Roomy, hsame, hpanic]

/-- On the image `mkfs` writes, in every run in which each bracket keeps to `MAXOPBLOCKS`
different blocks: `log_write` has not panicked with "too big a transaction" if and only if
every `log_write` of the run was made while the operations of its transaction had logged
fewer than `nlog - 1` different blocks. -/
theorem reservation_iff (start : ℕ) (acts : List (OpsAct P)) (s : Ops P)
    (hrun : Trans.Run step Within (init start nlog) acts s) :
    s.panic ≠ some .tooBig ↔
      Trans.Run step (fun s a => Within s a ∧ Roomy s a) (init start nlog) acts s := by
  induction hrun with
  | nil => exact ⟨fun _ => .nil _, fun _ => by simp [init]⟩
  | @snoc s s' acts a hrun hc hstep ih =>
    have hinv := inv_run hrun (inv_init start nlog)
    have hsize : s.log.size = nlog :=
      hrun.induct (I := fun t => t.log.size = nlog) rfl
        fun _ _ _ hi _ hst => (size_step hst).trans hi
    have hiff := tooBig_step hinv hsize hstep
    constructor
    · intro hp
      have hroomy : Roomy s a := by
        by_contra hn
        exact hp (hiff.mpr hn)
      have hpanic : s.panic ≠ some .tooBig := by simp [(step_cases hstep).1]
      exact .snoc (ih.mp hpanic) ⟨hc, hroomy⟩ hstep
    · intro hroomy
      obtain ⟨t, ht, ⟨-, hta⟩, -⟩ := hroomy.snoc_inv
      obtain rfl := hrun.deterministic ht
      rw [Ne, hiff, not_not]
      exact hta

/-- A single operation that logs `MAXOPBLOCKS` blocks is roomy at every step. -/
theorem reservation_iff_one_op : ∃ s : Ops Bool,
    Trans.Run step (fun s a => Within s a ∧ Roomy s a) (init 2 nlog)
      (.beginOp true :: (List.range MAXOPBLOCKS).map fun i => .logWrite true (100 + i)) s := by
  obtain ⟨s, hs, hp⟩ : ∃ s : Ops Bool,
      Trans.exec step (fun s a => decide (Within s a)) (init 2 nlog)
        (.beginOp true :: (List.range MAXOPBLOCKS).map fun i => .logWrite true (100 + i)) = some s ∧
        s.panic = none := ⟨_, rfl, rfl⟩
  refine ⟨s, (reservation_iff 2 _ s (.of_exec (fun _ _ h => of_decide_eq_true h) hs)).mp ?_⟩
  simp [hp]

def threeFullOps : List (OpsAct (Fin 3)) :=
  [.beginOp 0, .beginOp 1, .beginOp 2] ++
    (List.range MAXOPBLOCKS).flatMap fun i =>
      [.logWrite 0 (100 + i), .logWrite 1 (200 + i), .logWrite 2 (300 + i)]

/-- The last of the thirty `log_write` calls of `threeFullOps` panics. -/
theorem threeFullOps_panic : ∃ s : Ops (Fin 3),
    Trans.Run step Within (init 2 nlog) threeFullOps s ∧ s.panic = some .tooBig := by
  obtain ⟨s, hs, hp⟩ : ∃ s : Ops (Fin 3),
      Trans.exec step (fun s a => decide (Within s a)) (init 2 nlog) threeFullOps = some s ∧
        s.panic = some .tooBig := ⟨_, rfl, rfl⟩
  exact ⟨s, .of_exec (fun _ _ h => of_decide_eq_true h) hs, hp⟩

end Xv6.Ops
