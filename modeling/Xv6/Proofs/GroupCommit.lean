import Xv6.Spec.GroupCommit

/-! Group commit never splits an operation. The flag `committing` and the counter
`outstanding` together keep every bracket inside one transaction. -/

namespace Xv6

variable {b : ℕ} {doCommit : Bool} {e : LogPanic}

namespace Log

theorem beginOp_some {log log' : Log} (h : log.beginOp = some log') : log.committing = false ∧
      log.lh.length + (log.outstanding + 1) * MAXOPBLOCKS ≤ LOGSIZE ∧
      log' = { log with outstanding := log.outstanding + 1 } := by
  unfold beginOp at h
  split_ifs at h with hc hn
  exact ⟨by simpa using hc, by omega, (Option.some.inj h).symm⟩

theorem endOp_ok {log log' : Log} (h : log.endOp = .ok (log', doCommit)) :
    log.committing = false ∧ ((doCommit = true ∧ log.outstanding = 1 ∧
          log' = { log with outstanding := 0, committing := true }) ∨
        (doCommit = false ∧ log.outstanding ≠ 1 ∧
          log' = { log with outstanding := log.outstanding - 1 })) := by
  unfold endOp at h
  simp only at h
  split_ifs at h with hc ho
  · cases h
    refine ⟨by simpa using hc, Or.inl ⟨rfl, by omega, ?_⟩⟩
    simp [ho]
  · cases h
    exact ⟨by simpa using hc, Or.inr ⟨rfl, by omega, rfl⟩⟩

theorem endOp_error {log : Log} (h : log.endOp = .error e) :
    log.committing = true ∧ e = .committing := by
  unfold endOp at h
  simp only at h
  split_ifs at h with hc
  cases h
  exact ⟨hc, rfl⟩

theorem logWrite_ok {log log' : Log} (h : log.logWrite b = .ok log') :
    log.lh.length < LOGSIZE ∧ log.lh.length < log.size - 1 ∧ 1 ≤ log.outstanding ∧
      log' = { log with lh := absorb log.lh b } := by
  unfold logWrite at h
  split_ifs at h with hn ho
  cases h
  exact ⟨by omega, by omega, by omega, rfl⟩

theorem logWrite_error {log : Log} (h : log.logWrite b = .error e) :
    (e = .tooBig ∧ (LOGSIZE ≤ log.lh.length ∨ log.size - 1 ≤ log.lh.length)) ∨
      (e = .outsideTrans ∧ log.outstanding < 1) := by
  unfold logWrite at h
  split_ifs at h with hn ho
  · cases h
    exact Or.inl ⟨rfl, hn⟩
  · cases h
    exact Or.inr ⟨rfl, ho⟩

theorem absorb_eq (lh : List ℕ) (b : ℕ) : absorb lh b = if b ∈ lh then lh else lh ++ [b] := by
  induction lh with
  | nil => rfl
  | cons c cs ih =>
    rw [absorb, ih]
    by_cases hc : c = b
    · subst hc
      simp
    · have hbc : ¬ b = c := fun h => hc h.symm
      by_cases hm : b ∈ cs <;> simp [hc, hbc, hm]

theorem mem_absorb (lh : List ℕ) (b x : ℕ) : x ∈ absorb lh b ↔ x ∈ lh ∨ x = b := by
  rw [absorb_eq]
  split_ifs with h
  · constructor
    · exact Or.inl
    · rintro (hx | rfl)
      · exact hx
      · exact h
  · simp

theorem nodup_absorb {lh : List ℕ} (h : lh.Nodup) (b : ℕ) : (absorb lh b).Nodup := by
  rw [absorb_eq]
  split_ifs with hb
  · exact h
  · exact List.nodup_append.mpr ⟨h, List.nodup_singleton b, by
      intro x hx y hy hxy
      rw [List.mem_singleton] at hy
      exact hb (hy ▸ hxy ▸ hx)⟩

end Log

namespace Ops

variable {P : Type} [DecidableEq P] {s s' : Ops P}

@[simp] theorem setPhase_self (s : Ops P) (p : P) (ph : Phase) : (s.setPhase p ph).phase p = ph :=
  Function.update_self ..

theorem setPhase_of_ne (s : Ops P) {p q : P} (ph : Phase) (h : q ≠ p) :
    (s.setPhase p ph).phase q = s.phase q := Function.update_of_ne h ..

theorem step_cases {a : OpsAct P} (h : s.step a = some s') : s.panic = none ∧
    ((∃ p log, a = .beginOp p ∧ s.phase p = .idle ∧ s.log.beginOp = some log ∧
        s' = { s.setPhase p (.running []) with log := log }) ∨
      (∃ p b logged log, a = .logWrite p b ∧ s.phase p = .running logged ∧
        s.log.logWrite b = .ok log ∧
        s' = { s.setPhase p (.running (logged ++ [(b, s.txns.length)])) with
          log := log, group := s.group ++ [b] }) ∨
      (∃ p b logged e, a = .logWrite p b ∧ s.phase p = .running logged ∧
        s.log.logWrite b = .error e ∧ s' = { s with panic := some e }) ∨
      (∃ p logged log doCommit, a = .endOp p ∧ s.phase p = .running logged ∧
        s.log.endOp = .ok (log, doCommit) ∧
        s' = { s.setPhase p (if doCommit then .commit .test else .idle) with
          log := log, brackets := s.brackets ++ [logged] }) ∨
      (∃ p logged e, a = .endOp p ∧ s.phase p = .running logged ∧
        s.log.endOp = .error e ∧ s' = { s with panic := some e }) ∨
      (∃ p pc, a = .commit p ∧ s.phase p = .commit pc ∧ s' = s.commitStep p pc)) := by
  cases a with
  | beginOp p =>
    simp only [step] at h
    split at h
    · rename_i log hn hi hl
      exact ⟨hn, Or.inl ⟨p, log, rfl, hi, hl, (Option.some.inj h).symm⟩⟩
    · cases h
  | logWrite p b =>
    simp only [step] at h
    split at h
    · rename_i logged hn hr
      split at h
      · rename_i log hl
        exact ⟨hn, Or.inr (Or.inl ⟨p, b, logged, log, rfl, hr, hl, (Option.some.inj h).symm⟩)⟩
      · rename_i e hl
        exact ⟨hn, Or.inr (Or.inr (Or.inl ⟨p, b, logged, e, rfl, hr, hl,
          (Option.some.inj h).symm⟩))⟩
    · cases h
  | endOp p =>
    simp only [step] at h
    split at h
    · rename_i logged hn hr
      split at h
      · rename_i log doCommit hl
        exact ⟨hn, Or.inr (Or.inr (Or.inr (Or.inl ⟨p, logged, log, doCommit, rfl, hr, hl,
          (Option.some.inj h).symm⟩)))⟩
      · rename_i e hl
        exact ⟨hn, Or.inr (Or.inr (Or.inr (Or.inr (Or.inl ⟨p, logged, e, rfl, hr, hl,
          (Option.some.inj h).symm⟩))))⟩
    · cases h
  | commit p =>
    simp only [step] at h
    split at h
    · rename_i pc hn hc
      exact ⟨hn, Or.inr (Or.inr (Or.inr (Or.inr (Or.inr ⟨p, pc, rfl, hc,
        (Option.some.inj h).symm⟩))))⟩
    · cases h

end Ops

def CommitPc.headWritten : CommitPc → Bool
  | .installTrans _ | .clear | .eraseHead | .finish => true
  | _ => false

namespace Ops

variable {P : Type} {s s' : Ops P}

/-- The block `x.1`, logged while `x.2` transactions had been committed, stands in the
header of transaction number `x.2`. -/
def Committed (s : Ops P) (x : ℕ × ℕ) : Prop := ∃ t, s.txns[x.2]? = some t ∧ x.1 ∈ t

def InTxn (s : Ops P) (x : ℕ × ℕ) : Prop :=
  s.Committed x ∨
    (x.2 = s.txns.length ∧ x.1 ∈ s.log.lh ∧
      ∀ p pc, s.phase p = .commit pc → pc.headWritten = false)

structure Inv (s : Ops P) : Prop where
  count : ∃ S : Finset P, (∀ p, p ∈ S ↔ ∃ l, s.phase p = .running l) ∧
    (S.card : ℤ) = s.log.outstanding
  sole : ∀ p pc, s.phase p = .commit pc →
    s.log.outstanding = 0 ∧ ∀ q pc', s.phase q = .commit pc' → q = p
  flag : s.log.committing = true ↔ ∃ p pc, s.phase p = .commit pc
  nodup : s.log.lh.Nodup
  group : s.group.toFinset = s.log.lh.toFinset
  running : ∀ p l, s.phase p = .running l → ∀ x ∈ l, x.2 = s.txns.length ∧ x.1 ∈ s.log.lh
  finished : ∀ l ∈ s.brackets, (∀ x ∈ l, ∀ y ∈ l, x.2 = y.2) ∧ ∀ x ∈ l, s.InTxn x
  safe : s.panic ≠ some .committing ∧ s.panic ≠ some .outsideTrans

theorem inv_init (start size : ℕ) : Inv (init start size : Ops P) where
  count := ⟨∅, by simp [init], by simp [init]⟩
  sole := by simp [init]
  flag := by simp [init]
  nodup := by simp [init]
  group := by simp [init]
  running := by simp [init]
  finished := by simp [init]
  safe := by simp [init]

variable {pc : CommitPc} {p : P}

variable (h : Inv s) (hp : s.phase p = .commit pc)

include h hp in
theorem Inv.no_running (q : P) (l : List (ℕ × ℕ)) : s.phase q ≠ .running l := by
  intro hq
  obtain ⟨S, hS, hcard⟩ := h.count
  have hmem : q ∈ S := (hS q).mpr ⟨l, hq⟩
  have hpos : 0 < S.card := Finset.card_pos.mpr ⟨q, hmem⟩
  have := (h.sole p pc hp).1
  omega

theorem Inv.of_running (h : Inv s) {l : List (ℕ × ℕ)} (hp : s.phase p = .running l) :
    1 ≤ s.log.outstanding ∧ s.log.committing = false := by
  obtain ⟨S, hS, hcard⟩ := h.count
  have hpos : 0 < S.card := Finset.card_pos.mpr ⟨p, (hS p).mpr ⟨l, hp⟩⟩
  refine ⟨by omega, ?_⟩
  rw [Bool.eq_false_iff]
  intro hc
  obtain ⟨q, pc, hq⟩ := h.flag.mp hc
  exact h.no_running hq p l hp

theorem Inv.no_commit (h : Inv s) (hc : s.log.committing = false) (p : P) (pc : CommitPc) :
    s.phase p ≠ .commit pc := by
  intro hp
  have := h.flag.mpr ⟨p, pc, hp⟩
  rw [hc] at this
  cases this

include h hp in
theorem Inv.committed
    (hhead : pc.headWritten = true) : ∀ l ∈ s.brackets, ∀ x ∈ l, s.Committed x := by
  intro l hl x hx
  rcases (h.finished l hl).2 x hx with hin | ⟨-, -, hopen⟩
  · exact hin
  · have := hopen p pc hp
    rw [hhead] at this
    cases this

theorem Inv.committed_record (h : Inv s) :
    ∀ l ∈ s.brackets, ∀ x ∈ l, { s with txns := s.txns ++ [s.log.lh] }.Committed x := by
  intro l hl x hx
  rcases (h.finished l hl).2 x hx with ⟨t, ht, hin⟩ | ⟨hlen, hmem, -⟩
  · have hlt := (List.getElem?_eq_some_iff.mp ht).1
    exact ⟨t, by simp [List.getElem?_append_left hlt, ht], hin⟩
  · exact ⟨s.log.lh, by simp [hlen], hmem⟩

include h hp in
theorem inv_commit_record : Inv { s with txns := s.txns ++ [s.log.lh] } :=
  ⟨h.count, h.sole, h.flag, h.nodup, h.group, fun q l hq => absurd hq (h.no_running hp q l),
    fun l hl => ⟨(h.finished l hl).1, fun x hx => Or.inl (h.committed_record l hl x hx)⟩, h.safe⟩

include h hp in
theorem inv_commit_clear (hclosed : ∀ l ∈ s.brackets, ∀ x ∈ l, s.Committed x) :
    Inv { s with log := { s.log with lh := [] }, group := [] } :=
  ⟨h.count, h.sole, h.flag, List.nodup_nil, rfl, fun q l hq => absurd hq (h.no_running hp q l),
    fun l hl => ⟨(h.finished l hl).1, fun x hx => Or.inl (hclosed l hl x hx)⟩, h.safe⟩

/-- While no process is in `commit`, a logged block stays in its transaction as the log
grows. -/
theorem InTxn.mono {x : ℕ × ℕ} (h : s.InTxn x) (htx : s'.txns = s.txns)
    (hlh : ∀ b ∈ s.log.lh, b ∈ s'.log.lh)
    (hpc : ∀ p pc, s'.phase p = .commit pc → pc.headWritten = false) : s'.InTxn x := by
  rcases h with ⟨t, ht, hx⟩ | ⟨hlen, hmem, -⟩
  · exact Or.inl ⟨t, by rw [htx, ht], hx⟩
  · exact Or.inr ⟨by rw [htx, hlen], hlh _ hmem, hpc⟩

variable [DecidableEq P] {logged : List (ℕ × ℕ)}

theorem inv_beginOp (h : Inv s) {log : Log} (hp : s.phase p = .idle)
    (hb : s.log.beginOp = some log) : Inv { s.setPhase p (.running []) with log := log } := by
  obtain ⟨hc, -, rfl⟩ := Log.beginOp_some hb
  have hno : ∀ q pc, (s.setPhase p (.running [])).phase q ≠ .commit pc := by
    intro q pc hq
    by_cases hqp : q = p
    · subst hqp
      simp at hq
    · rw [setPhase_of_ne _ _ hqp] at hq
      exact h.no_commit hc q pc hq
  obtain ⟨S, hS, hcard⟩ := h.count
  have hpS : p ∉ S := fun hm => by
    obtain ⟨l, hl⟩ := (hS p).mp hm
    rw [hp] at hl
    cases hl
  refine ⟨⟨insert p S, fun q => ?_, ?_⟩, fun q pc hq => absurd hq (hno q pc), ?_, h.nodup,
    h.group, fun q l hq x hx => ?_, fun l hl => ⟨(h.finished l hl).1, fun x hx => ?_⟩, h.safe⟩
  · rw [Finset.mem_insert]
    by_cases hqp : q = p
    · subst hqp
      simp
    · simp [setPhase_of_ne _ _ hqp, hqp, hS q]
  · rw [Finset.card_insert_of_notMem hpS]
    push_cast
    rw [hcard]
  · simp only [hc, Bool.false_eq_true, false_iff]
    rintro ⟨q, pc, hq⟩
    exact hno q pc hq
  · by_cases hqp : q = p
    · subst hqp
      simp only [setPhase_self, Phase.running.injEq] at hq
      subst hq
      simp at hx
    · simp only [setPhase_of_ne _ _ hqp] at hq
      exact h.running q l hq x hx
  · exact ((h.finished l hl).2 x hx).mono rfl (fun b hb => hb) fun q pc hq => absurd hq (hno q pc)

theorem inv_logWrite (h : Inv s) {log : Log}
    (hp : s.phase p = .running logged) (hb : s.log.logWrite b = .ok log) :
    Inv { s.setPhase p (.running (logged ++ [(b, s.txns.length)])) with
      log := log, group := s.group ++ [b] } := by
  obtain ⟨-, -, -, rfl⟩ := Log.logWrite_ok hb
  have hgrow : ∀ x ∈ s.log.lh, x ∈ Log.absorb s.log.lh b := fun x hx =>
    (Log.mem_absorb _ _ _).mpr (Or.inl hx)
  have hcommit : ∀ q pc, (s.setPhase p (.running (logged ++ [(b, s.txns.length)]))).phase q =
      .commit pc ↔ s.phase q = .commit pc := by
    intro q pc
    by_cases hqp : q = p
    · subst hqp
      simp [hp]
    · rw [setPhase_of_ne _ _ hqp]
  have hno := h.no_commit (h.of_running hp).2
  obtain ⟨S, hS, hcard⟩ := h.count
  refine ⟨⟨S, fun q => ?_, hcard⟩, fun q pc hq => ?_, ?_, Log.nodup_absorb h.nodup b, ?_,
    fun q l hq x hx => ?_, fun l hl => ⟨(h.finished l hl).1, fun x hx => ?_⟩, h.safe⟩
  · rw [hS q]
    by_cases hqp : q = p
    · subst hqp
      simp [hp]
    · simp [setPhase_of_ne _ _ hqp]
  · exact absurd ((hcommit q pc).mp hq) (hno q pc)
  · simp only [hcommit]
    exact h.flag
  · ext x
    have hx := congrArg (x ∈ ·) h.group
    simp only [List.mem_toFinset, eq_iff_iff] at hx
    simp [Log.mem_absorb, hx, or_comm]
  · by_cases hqp : q = p
    · subst hqp
      simp only [setPhase_self, Phase.running.injEq] at hq
      subst hq
      rcases List.mem_append.mp hx with hx | hx
      · obtain ⟨he, hm⟩ := h.running q logged hp x hx
        exact ⟨he, hgrow _ hm⟩
      · rw [List.mem_singleton] at hx
        subst hx
        exact ⟨rfl, (Log.mem_absorb _ _ _).mpr (Or.inr rfl)⟩
    · simp only [setPhase_of_ne _ _ hqp] at hq
      obtain ⟨he, hm⟩ := h.running q l hq x hx
      exact ⟨he, hgrow _ hm⟩
  · exact ((h.finished l hl).2 x hx).mono rfl hgrow
      fun q pc hq => absurd ((hcommit q pc).mp hq) (hno q pc)

theorem inv_endOp (h : Inv s) {log : Log}
    (hp : s.phase p = .running logged) (he : s.log.endOp = .ok (log, doCommit)) :
    Inv { s.setPhase p (if doCommit then .commit .test else .idle) with
      log := log, brackets := s.brackets ++ [logged] } := by
  obtain ⟨hc, hcases⟩ := Log.endOp_ok he
  have hno := h.no_commit hc
  obtain ⟨S, hS, hcard⟩ := h.count
  have hpS : p ∈ S := (hS p).mpr ⟨logged, hp⟩
  -- the only commit phase there can be afterwards is the caller's own
  have hcommit : ∀ q pc, (s.setPhase p (if doCommit then .commit .test else .idle)).phase q =
      .commit pc → q = p ∧ pc = .test ∧ doCommit = true := by
    intro q pc hq
    by_cases hqp : q = p
    · subst hqp
      cases doCommit <;> simp_all
    · rw [setPhase_of_ne _ _ hqp] at hq
      exact absurd hq (hno q pc)
  have hrun : ∀ q l, (s.setPhase p (if doCommit then .commit .test else .idle)).phase q =
      .running l ↔ q ≠ p ∧ s.phase q = .running l := by
    intro q l
    by_cases hqp : q = p
    · subst hqp
      cases doCommit <;> simp
    · simp [setPhase_of_ne _ _ hqp, hqp]
  have hlog : log.lh = s.log.lh ∧ log.outstanding = s.log.outstanding - 1 ∧
      log.committing = doCommit := by
    rcases hcases with ⟨rfl, ho, rfl⟩ | ⟨rfl, -, rfl⟩
    · exact ⟨rfl, by simp [ho], rfl⟩
    · exact ⟨rfl, rfl, hc⟩
  have hout : doCommit = true → log.outstanding = 0 := by
    rintro rfl
    rcases hcases with ⟨-, -, rfl⟩ | ⟨hf, -, -⟩
    · rfl
    · cases hf
  have hkeep : ∀ x, s.InTxn x →
      InTxn { s.setPhase p (if doCommit then .commit .test else .idle) with
        log := log, brackets := s.brackets ++ [logged] } x := fun x hx =>
    hx.mono rfl (fun b hb => by rw [hlog.1]; exact hb) fun q pc hq => by
      rw [(hcommit q pc hq).2.1]
      rfl
  refine ⟨⟨S.erase p, fun q => ?_, ?_⟩, fun q pc hq => ⟨?_, fun q' pc' hq' => ?_⟩, ?_, ?_, ?_,
    fun q l hq x hx => ?_, fun l hl => ?_, h.safe⟩
  · simp only [Finset.mem_erase, hS q, hrun, exists_and_left]
  · have hcp := Finset.card_pos.mpr ⟨p, hpS⟩
    rw [Finset.card_erase_of_mem hpS, hlog.2.1]
    omega
  · exact hout (hcommit q pc hq).2.2
  · rw [(hcommit q pc hq).1, (hcommit q' pc' hq').1]
  · rw [hlog.2.2]
    constructor
    · rintro rfl
      exact ⟨p, .test, by simp⟩
    · rintro ⟨q, pc, hq⟩
      exact (hcommit q pc hq).2.2
  · rw [hlog.1]
    exact h.nodup
  · rw [hlog.1]
    exact h.group
  · rw [hlog.1]
    exact h.running q l ((hrun q l).mp hq).2 x hx
  · rcases List.mem_append.mp hl with hl | hl
    · exact ⟨(h.finished l hl).1, fun x hx => hkeep x ((h.finished l hl).2 x hx)⟩
    · rw [List.mem_singleton] at hl
      subst hl
      refine ⟨fun x hx y hy => ?_, fun x hx => hkeep x ?_⟩
      · rw [(h.running p l hp x hx).1, (h.running p l hp y hy).1]
      · obtain ⟨hlen, hmem⟩ := h.running p l hp x hx
        exact Or.inr ⟨hlen, hmem, fun q pc hq => absurd hq (hno q pc)⟩

include h hp in
theorem inv_commit_move
    (pc' : CommitPc) (hpc : pc'.headWritten = true → ∀ l ∈ s.brackets, ∀ x ∈ l, s.Committed x) :
    Inv (s.setPhase p (.commit pc')) := by
  have hcommit : ∀ q c, (s.setPhase p (.commit pc')).phase q = .commit c → q = p ∧ c = pc' := by
    intro q c hq
    by_cases hqp : q = p
    · subst hqp
      exact ⟨rfl, by simpa using hq.symm⟩
    · rw [setPhase_of_ne _ _ hqp] at hq
      exact absurd ((h.sole p pc hp).2 q c hq) hqp
  have hrun : ∀ q l, (s.setPhase p (.commit pc')).phase q = .running l ↔
      s.phase q = .running l := by
    intro q l
    by_cases hqp : q = p
    · subst hqp
      simp [hp]
    · rw [setPhase_of_ne _ _ hqp]
  refine ⟨?_, fun q c hq => ⟨(h.sole p pc hp).1, fun q' c' hq' => ?_⟩, ?_, h.nodup, h.group,
    fun q l hq => h.running q l ((hrun q l).mp hq),
    fun l hl => ⟨(h.finished l hl).1, fun x hx => ?_⟩, h.safe⟩
  · obtain ⟨S, hS, hcard⟩ := h.count
    exact ⟨S, fun q => by rw [hS q]; simp only [hrun], hcard⟩
  · rw [(hcommit q c hq).1, (hcommit q' c' hq').1]
  · have hset : s.log.committing = true := h.flag.mpr ⟨p, pc, hp⟩
    exact ⟨fun _ => ⟨p, pc', by simp⟩, fun _ => hset⟩
  · rcases (h.finished l hl).2 x hx with hin | ⟨hlen, hmem, -⟩
    · exact Or.inl hin
    · cases hhead : pc'.headWritten with
      | true => exact Or.inl (hpc hhead l hl x hx)
      | false =>
        refine Or.inr ⟨hlen, hmem, fun q c hq => ?_⟩
        rw [(hcommit q c hq).2, hhead]

include h hp in
theorem inv_commit_finish (hhead : pc.headWritten = true) :
    Inv { s.setPhase p .idle with log := { s.log with committing := false } } := by
  have hcommit : ∀ q c, (s.setPhase p .idle).phase q ≠ .commit c := by
    intro q c hq
    by_cases hqp : q = p
    · subst hqp
      simp at hq
    · rw [setPhase_of_ne _ _ hqp] at hq
      exact hqp ((h.sole p pc hp).2 q c hq)
  have hrun : ∀ q l, (s.setPhase p .idle).phase q = .running l ↔ s.phase q = .running l := by
    intro q l
    by_cases hqp : q = p
    · subst hqp
      simp [hp]
    · rw [setPhase_of_ne _ _ hqp]
  refine ⟨?_, fun q c hq => absurd hq (hcommit q c), ?_, h.nodup, h.group,
    fun q l hq => h.running q l ((hrun q l).mp hq),
    fun l hl => ⟨(h.finished l hl).1, fun x hx => Or.inl (h.committed hp hhead l hl x hx)⟩, h.safe⟩
  · obtain ⟨S, hS, hcard⟩ := h.count
    exact ⟨S, fun q => by rw [hS q]; simp only [hrun], hcard⟩
  · simp only [Bool.false_eq_true, false_iff]
    rintro ⟨q, c, hq⟩
    exact hcommit q c hq

include h hp in
theorem inv_commitStep : Inv (s.commitStep p pc) := by
  cases pc with
  | test =>
    simp only [commitStep]
    split
    · exact inv_commit_move h hp _ nofun
    · -- nothing was logged: the empty transaction is closed at once
      rename_i hn
      have hnil : s.log.lh = [] := List.length_eq_zero_iff.mp (by omega)
      have hlog : { s.log with lh := [] } = s.log := by rw [← hnil]
      have hrec := inv_commit_record h hp
      have hclear := inv_commit_clear hrec hp h.committed_record
      have hmove := inv_commit_move hclear hp .finish fun _ => h.committed_record
      simpa only [setPhase, hlog] using hmove
  | writeLog tail =>
    simp only [commitStep]
    split <;> exact inv_commit_move h hp _ nofun
  | writeHead =>
    exact inv_commit_move (inv_commit_record h hp) hp _ fun _ => h.committed_record
  | installTrans tail =>
    simp only [commitStep]
    split <;> exact inv_commit_move h hp _ fun _ => h.committed hp rfl
  | clear =>
    have hclosed := h.committed hp rfl
    exact inv_commit_move (inv_commit_clear h hp hclosed) hp _ fun _ => hclosed
  | eraseHead => exact inv_commit_move h hp _ fun _ => h.committed hp rfl
  | finish => exact inv_commit_finish h hp rfl

theorem inv_step (h : Inv s) {a : OpsAct P} (hstep : s.step a = some s') : Inv s' := by
  obtain ⟨-, hb | hw | hwe | he | hee | hc⟩ := step_cases hstep
  · obtain ⟨p, log, -, hp, hlog, rfl⟩ := hb
    exact inv_beginOp h hp hlog
  · obtain ⟨p, b, logged, log, -, hp, hlog, rfl⟩ := hw
    exact inv_logWrite h hp hlog
  · obtain ⟨p, b, logged, e, -, hp, hlog, rfl⟩ := hwe
    have hout := (h.of_running hp).1
    refine ⟨h.count, h.sole, h.flag, h.nodup, h.group, h.running, h.finished, ?_⟩
    rcases Log.logWrite_error hlog with ⟨rfl, -⟩ | ⟨-, hlt⟩
    · simp
    · omega
  · obtain ⟨p, logged, log, doCommit, -, hp, hlog, rfl⟩ := he
    exact inv_endOp h hp hlog
  · obtain ⟨p, logged, e, -, hp, hlog, rfl⟩ := hee
    have hset := (Log.endOp_error hlog).1
    rw [(h.of_running hp).2] at hset
    cases hset
  · obtain ⟨p, pc, -, hp, rfl⟩ := hc
    exact inv_commitStep h hp

theorem inv_run {C : Ops P → OpsAct P → Prop} {acts : List (OpsAct P)}
    (hrun : Trans.Run step C s acts s') (h : Inv s) : Inv s' :=
  hrun.induct h fun _ _ _ hi _ hstep => inv_step hi hstep

/-- In every state that any number of processes can reach in any order of steps: while
`commit` runs, `outstanding` is 0 and neither `begin_op` nor `log_write` can succeed, nor
is any process inside a bracket; the blocks of a finished bracket all belong to one
transaction, whose header holds them once it is committed; `end_op` does not panic; and no
block is logged twice. -/
theorem group_commit (start size : ℕ) (acts : List (OpsAct P)) (s : Ops P)
    (hrun : Trans.Run step Trans.Any (init start size) acts s) :
    (∀ p pc, s.phase p = .commit pc →
      s.log.outstanding = 0 ∧ s.log.beginOp = none ∧ (∀ b log, s.log.logWrite b ≠ .ok log) ∧
        ∀ q l, s.phase q ≠ .running l) ∧
    (∀ l ∈ s.brackets, ∃ t ≤ s.txns.length,
      ∀ x ∈ l, x.2 = t ∧ x.1 ∈ (s.txns ++ [s.log.lh]).getD t []) ∧
    (s.panic ≠ some .committing ∧
      ∀ p l, s.phase p = .running l → ∀ e, s.log.endOp ≠ .error e) ∧
    s.log.lh.Nodup := by
  have h := inv_run hrun (inv_init start size)
  refine ⟨fun p pc hp => ⟨(h.sole p pc hp).1, ?_, fun b log hlog => ?_, h.no_running hp⟩,
    fun l hl => ?_, ⟨h.safe.1, fun p l hp e he => ?_⟩, h.nodup⟩
  · have hset := h.flag.mpr ⟨p, pc, hp⟩
    simp [Log.beginOp, hset]
  · have := (Log.logWrite_ok hlog).2.2.1
    have := (h.sole p pc hp).1
    omega
  · obtain ⟨hsame, hin⟩ := h.finished l hl
    cases l with
    | nil => exact ⟨0, Nat.zero_le _, by simp⟩
    | cons y l =>
      have hmem : ∀ x ∈ y :: l, x.2 ≤ s.txns.length ∧
          x.1 ∈ (s.txns ++ [s.log.lh]).getD x.2 [] := by
        intro x hx
        rcases hin x hx with ⟨t, ht, hxt⟩ | ⟨hlen, hlh, -⟩
        · have hlt := (List.getElem?_eq_some_iff.mp ht).1
          refine ⟨by omega, ?_⟩
          rw [List.getD_eq_getElem?_getD, List.getElem?_append_left hlt, ht]
          exact hxt
        · exact ⟨by omega, by simpa [hlen] using hlh⟩
      refine ⟨y.2, (hmem y List.mem_cons_self).1, fun x hx => ?_⟩
      have hxy := hsame x hx y List.mem_cons_self
      exact ⟨hxy, hxy ▸ (hmem x hx).2⟩
  · have hset := (Log.endOp_error he).1
    rw [(h.of_running hp).2] at hset
    cases hset

def twoOps : List (OpsAct Bool) :=
  [.beginOp false, .logWrite false 60, .beginOp true, .logWrite true 61, .endOp false,
    .logWrite true 60, .endOp true] ++ List.replicate 9 (.commit true)

theorem group_commit_two_ops : ∃ s : Ops Bool,
    Trans.exec step (fun _ _ => true) (init 2 nlog) twoOps = some s ∧ s.phase true = .idle ∧
      s.txns = [[60, 61]] ∧ s.brackets.length = 2 ∧
      ∀ l ∈ s.brackets, ∃ t ≤ s.txns.length,
        ∀ x ∈ l, x.2 = t ∧ x.1 ∈ (s.txns ++ [s.log.lh]).getD t [] := by
  obtain ⟨s, hs, hp, htxns, hlen⟩ : ∃ s : Ops Bool,
      Trans.exec step (fun _ _ => true) (init 2 nlog) twoOps = some s ∧ s.phase true = .idle ∧
        s.txns = [[60, 61]] ∧ s.brackets.length = 2 := ⟨_, rfl, rfl, rfl, rfl⟩
  have h := group_commit 2 nlog _ s (.of_exec (fun _ _ _ => trivial) hs)
  exact ⟨s, hs, hp, htxns, hlen, h.2.1⟩

end Ops

end Xv6
