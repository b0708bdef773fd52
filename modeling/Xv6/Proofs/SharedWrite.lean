import Xv6.Lib.Run
import Xv6.Proofs.FileWrite

/-! Writes through one `struct file` lose nothing: the offset is read and advanced under the
lock of the inode, so the pieces of all processes end up one after the other. -/

open Function List Finset

namespace Xv6

namespace FsOps

theorem pieces_nil : pieces [] = [] := by
  rw [pieces, if_pos rfl]

theorem pieces_cons {src : List UInt8} (h : src ≠ []) :
    pieces src = src.take maxPiece :: pieces (src.drop maxPiece) := by
  rw [pieces, if_neg h]

theorem length_of_mem_pieces {src a : List UInt8} (h : a ∈ pieces src) : a.length ≤ maxPiece := by
  induction hlen : src.length using Nat.strong_induction_on generalizing src with
  | _ n ih =>
    by_cases hsrc : src = []
    · rw [hsrc, pieces_nil] at h
      exact absurd h not_mem_nil
    rw [pieces_cons hsrc] at h
    rcases mem_cons.mp h with rfl | h
    · exact length_take_le _ _
    · have hpos := length_pos_of_ne_nil hsrc
      have hmax : 0 < maxPiece := by decide
      exact ih _ (by rw [length_drop]; omega) h rfl

end FsOps

namespace Fs

variable {s s' : Fs} {f : Fin NFILE} {c : List UInt8} {off : ℕ}

theorem OpenAt.congr (h : OpenAt s f c off) (ht : s'.toStore = s.toStore)
    (hf : s'.ftable = s.ftable) : OpenAt s' f c off := by
  obtain ⟨h1, h2, h3, h4⟩ := h
  constructor
  · rw [ht, hf]
    exact h1
  · rw [ht, hf]
    exact h2
  · rw [ht, hf]
    exact h3
  · rw [hf]
    exact h4

theorem beginOp_frame {u : Unit} (h : ops.beginOp s = .ok u s') :
    s'.toStore = s.toStore ∧ s'.ftable = s.ftable := by
  change Fs.beginOp s = _ at h
  unfold Fs.beginOp at h
  cases hb : s.log.beginOp with
  | none =>
    rw [hb] at h
    cases h
  | some log =>
    rw [hb] at h
    cases h
    exact ⟨rfl, rfl⟩

theorem endOp_frame {u : Unit} (h : ops.endOp s = .ok u s') :
    s'.toStore = s.toStore ∧ s'.ftable = s.ftable := by
  change Fs.endOp s = _ at h
  unfold Fs.endOp at h
  split at h
  · cases h
    exact ⟨rfl, rfl⟩
  · cases h
    exact ⟨rfl, rfl⟩
  · cases h

end Fs

namespace Writers

open Fs (OpenAt slotsFor)

variable {P : Type} [DecidableEq P] {w w' : Writers P} {f : Fin NFILE} {p q : P}
  {order : List (P × List UInt8)} {src1 : List UInt8}

omit [DecidableEq P] in
theorem bytes_snoc : bytes (order ++ [(p, src1)]) = bytes order ++ src1 := by
  simp [bytes]

theorem piecesOf_snoc : piecesOf (order ++ [(p, src1)]) q =
    if p = q then piecesOf order q ++ [src1] else piecesOf order q := by
  unfold piecesOf
  rw [filter_append, map_append]
  split_ifs with h <;> simp [h]

theorem step_cases {a : WriteAct P} (h : w.step f a = some w') :
    (∃ p s, a = .beginOp p ∧ w.rest p ≠ [] ∧ s.toStore = w.fs.toStore ∧ s.ftable = w.fs.ftable ∧
      w' = { w with fs := s, stage := update w.stage p .begun }) ∨
    (∃ p r s, a = .piece p ∧ w.stage p = .begun ∧
      Fs.ops.writePiece f ((w.rest p).take FsOps.maxPiece) w.fs = .ok r s ∧
      w' = { fs := s
             rest := update w.rest p ((w.rest p).drop FsOps.maxPiece)
             stage := update w.stage p (.wrote r ((w.rest p).take FsOps.maxPiece).length)
             order := w.order ++ [(p, (w.rest p).take FsOps.maxPiece)] }) ∨
    (∃ p r n s, a = .endOp p ∧ w.stage p = .wrote r n ∧ s.toStore = w.fs.toStore ∧
      s.ftable = w.fs.ftable ∧
      ((r < 0 ∧ w' = { w with
          fs := s, rest := update w.rest p [], stage := update w.stage p .start }) ∨
        (r = n ∧ w' = { w with fs := s, stage := update w.stage p .start }))) := by
  cases a with
  | beginOp p =>
    left
    simp only [step] at h
    split_ifs at h with hc
    cases hb : Fs.ops.beginOp w.fs with
    | halt e s =>
      rw [hb] at h
      cases h
    | ok u s =>
      rw [hb] at h
      obtain ⟨ht, hf⟩ := Fs.beginOp_frame hb
      exact ⟨p, s, rfl, hc.2, ht, hf, (Option.some.inj h).symm⟩
  | piece p =>
    right
    left
    simp only [step] at h
    split_ifs at h with hc
    cases hb : Fs.ops.writePiece f ((w.rest p).take FsOps.maxPiece) w.fs with
    | halt e s =>
      rw [hb] at h
      cases h
    | ok r s =>
      rw [hb] at h
      exact ⟨p, r, s, rfl, hc, hb, (Option.some.inj h).symm⟩
  | endOp p =>
    right
    right
    simp only [step] at h
    cases hs : w.stage p with
    | start =>
      rw [hs] at h
      cases h
    | begun =>
      rw [hs] at h
      cases h
    | wrote r n =>
      rw [hs] at h
      cases hb : Fs.ops.endOp w.fs with
      | halt e s =>
        rw [hb] at h
        cases h
      | ok u s =>
        obtain ⟨ht, hf⟩ := Fs.endOp_frame hb
        rw [hb] at h
        refine ⟨p, r, n, s, rfl, hs, ht, hf, ?_⟩
        dsimp only at h
        split_ifs at h with h1 h2
        · exact .inl ⟨h1, (Option.some.inj h).symm⟩
        · exact .inr ⟨not_not.mp h2, (Option.some.inj h).symm⟩

/-- The pieces written so far are one after the other in the file, the offset is past them,
and every process has written its pieces in order up to those of `rest`. -/
structure InOrder [Fintype P] (s : Fs) (f : Fin NFILE) (c : List UInt8) (off : ℕ)
    (src : P → List UInt8) (w : Writers P) : Prop where
  opened : OpenAt w.fs f (splice c off (bytes w.order)) (off + (bytes w.order).length)
  ip : (w.fs.ftable f).ip = (s.ftable f).ip
  inum : (w.fs.icache (s.ftable f).ip).inum = (s.icache (s.ftable f).ip).inum
  pieces : ∀ p, piecesOf w.order p ++ FsOps.pieces (w.rest p) = FsOps.pieces (src p)
  total : (bytes w.order).length + ∑ p, (w.rest p).length = ∑ p, (src p).length
  begun : ∀ p, w.stage p = .begun → w.rest p ≠ []
  wrote : ∀ p r n, w.stage p = .wrote r n → r = n

variable [Fintype P] {s : Fs} {c : List UInt8} {off : ℕ} {src : P → List UInt8}

theorem sum_update (g : P → List UInt8) (p : P) (m : ℕ) :
    ((g p).take m).length + ∑ q, (update g p ((g p).drop m) q).length = ∑ q, (g q).length := by
  rw [← add_sum_erase _ _ (mem_univ p), ← add_sum_erase (a := p) _ _ (mem_univ p),
    update_self, length_take, length_drop]
  have hrest : ∀ q ∈ univ.erase p,
      (update g p ((g p).drop m) q).length = (g q).length := fun q hq => by
    rw [update_of_ne (ne_of_mem_erase hq)]
  rw [sum_congr rfl hrest]
  omega

theorem InOrder.restage {u : Fs} {st : WriteStage} (h : InOrder s f c off src w)
    (ht : u.toStore = w.fs.toStore) (hf : u.ftable = w.fs.ftable)
    (hbegun : st = .begun → w.rest p ≠ []) (hwrote : ∀ r n, st ≠ .wrote r n) :
    InOrder s f c off src { w with fs := u, stage := update w.stage p st } := by
  refine ⟨h.opened.congr ht hf, ?_, ?_, h.pieces, h.total, fun q hq => ?_, fun q r n hq => ?_⟩
  · change (u.ftable f).ip = _
    rw [hf]
    exact h.ip
  · change (u.icache (s.ftable f).ip).inum = _
    rw [ht]
    exact h.inum
  · by_cases hqp : q = p
    · subst hqp
      exact hbegun ((update_self ..).symm.trans hq)
    · exact h.begun q ((update_of_ne hqp _ _).symm.trans hq)
  · by_cases hqp : q = p
    · subst hqp
      exact absurd ((update_self ..).symm.trans hq) (hwrote r n)
    · exact h.wrote q r n ((update_of_ne hqp _ _).symm.trans hq)

theorem InOrder.step {a : WriteAct P} (h : InOrder s f c off src w) (hoff : off ≤ c.length)
    (hfit : off + ∑ p, (src p).length ≤ MAXFILE * BSIZE) (hstep : w.step f a = some w') :
    InOrder s f c off src w' := by
  rcases step_cases hstep with ⟨p, u, -, hrest, ht, hf, rfl⟩ | ⟨p, r, u, -, hst, hrun, rfl⟩ |
    ⟨p, r, n, u, -, hst, ht, hf, hend⟩
  · exact h.restage ht hf (fun _ => hrest) (by simp)
  · have hne := h.begun p hst
    have hsum := sum_update w.rest p FsOps.maxPiece
    have hlen : ((w.rest p).take FsOps.maxPiece).length ≠ 0 := by
      have := length_pos_of_ne_nil hne
      have : 0 < FsOps.maxPiece := by decide
      rw [length_take]
      omega
    have htotal := h.total
    obtain ⟨rfl, ho, hwrote⟩ := Fs.writePiece_inv h.opened (fun e => hlen (by rw [e]; rfl))
      (by rw [length_splice hoff]; exact le_max_right _ _) (by omega) hrun
    rw [splice_splice hoff, Nat.add_assoc, ← length_append] at ho
    have hb : bytes (w.order ++ [(p, (w.rest p).take FsOps.maxPiece)]) =
        bytes w.order ++ (w.rest p).take FsOps.maxPiece := bytes_snoc
    refine ⟨?_, ?_, ?_, fun q => ?_, ?_, fun q hq => ?_, fun q r n hq => ?_⟩
    · change OpenAt u f (splice c off (bytes (w.order ++ [_]))) (off + (bytes (w.order ++ [_])).length)
      rw [hb]
      exact ho
    · change (u.ftable f).ip = _
      rw [hwrote.file]
      exact h.ip
    · change (u.icache (s.ftable f).ip).inum = _
      rw [← h.ip, hwrote.inum, h.ip]
      exact h.inum
    · change piecesOf (w.order ++ [_]) q ++ FsOps.pieces (update w.rest p _ q) = _
      rw [piecesOf_snoc, ← h.pieces q]
      by_cases hpq : p = q
      · subst hpq
        rw [if_pos rfl, update_self, append_assoc, FsOps.pieces_cons hne]
        rfl
      · rw [if_neg hpq, update_of_ne (Ne.symm hpq)]
    · change (bytes (w.order ++ [_])).length +
        ∑ q, (update w.rest p ((w.rest p).drop FsOps.maxPiece) q).length = _
      rw [hb, length_append]
      omega
    · by_cases hqp : q = p
      · subst hqp
        exact absurd ((update_self ..).symm.trans hq) (by simp)
      · change update w.rest p _ q ≠ []
        rw [update_of_ne hqp]
        exact h.begun q ((update_of_ne hqp _ _).symm.trans hq)
    · by_cases hqp : q = p
      · subst hqp
        have := (update_self ..).symm.trans hq
        cases this
        rfl
      · exact h.wrote q r n ((update_of_ne hqp _ _).symm.trans hq)
  · -- no call of `writei` has failed
    have hr := h.wrote p r n hst
    rcases hend with ⟨hneg, -⟩ | ⟨-, rfl⟩
    · omega
    exact h.restage ht hf (by simp) (by simp)

/-- Whatever the order in which the processes take their steps, the pieces written so far are
in the file from the initial offset on, one after the other in the order of their writing, and
the offset is past the last. The pieces of each process are among them once and in order; when
no process has bytes left, they are all there. -/
theorem shared_writes_in_order {P : Type} [DecidableEq P] [Fintype P] {s : Fs} {f : Fin NFILE}
    {c : List UInt8} {off : ℕ} {src : P → List UInt8} {acts : List (WriteAct P)} {w : Writers P}
    (h : OpenAt s f c off) (hoff : off ≤ c.length)
    (hfit : off + ∑ p, (src p).length ≤ MAXFILE * BSIZE)
    (hrun : Trans.Run (step f) Trans.Any (init s src) acts w) :
    w.fs.toStore.content (s.icache (s.ftable f).ip).inum = splice c off (bytes w.order) ∧
      (w.fs.ftable f).off = off + (bytes w.order).length ∧
      (∀ x ∈ w.order, x.2.length ≤ FsOps.maxPiece) ∧
      (∀ p, piecesOf w.order p <+: FsOps.pieces (src p)) ∧
      ((∀ p, w.rest p = []) → (∀ p, piecesOf w.order p = FsOps.pieces (src p)) ∧
        (w.fs.ftable f).off = off + ∑ p, (src p).length) := by
  have hinit : InOrder s f c off src (init s src) := by
    refine ⟨?_, rfl, rfl, fun p => rfl, ?_, fun p hp => ?_, fun p r n hp => ?_⟩
    · change OpenAt s f (splice c off []) (off + 0)
      rwa [splice_nil]
    · exact Nat.zero_add _
    · cases hp
    · cases hp
  have hinv : InOrder s f c off src w :=
    hrun.induct hinit fun _ _ _ hi _ hstep => hi.step hoff hfit hstep
  have hcontent := hinv.opened.content
  rw [hinv.ip, hinv.inum] at hcontent
  refine ⟨hcontent, hinv.opened.off, fun x hx => ?_, fun p => ⟨_, hinv.pieces p⟩, fun hdone => ⟨fun p => ?_, ?_⟩⟩
  · have hmem : x.2 ∈ FsOps.pieces (src x.1) := by
      rw [← hinv.pieces x.1]
      exact mem_append_left _ (mem_map.mpr ⟨x, mem_filter.mpr ⟨hx, by simp⟩, rfl⟩)
    exact FsOps.length_of_mem_pieces hmem
  · have hp := hinv.pieces p
    rwa [hdone p, FsOps.pieces_nil, append_nil] at hp
  · rw [hinv.opened.off, ← hinv.total]
    simp [hdone]

omit [Fintype P] in
theorem exists_round {s : Fs} {f : Fin NFILE} {c : List UInt8} {off : ℕ} {L : Finset ℕ} {p : P}
    {w : Writers P} (hs : w.fs = s) (h : OpenAt s f c off) (hq : s.Quiescent)
    (hstage : w.stage p = .start) (hne : w.rest p ≠ [])
    (hlen : (w.rest p).length ≤ FsOps.maxPiece) (hoff : off ≤ c.length)
    (hmax : off + (w.rest p).length ≤ MAXFILE * BSIZE) (hL : slotsFor off (w.rest p).length ⊆ L)
    (hfree : Store.Supply (s.icache (s.ftable f).ip).inum L s.toStore) :
    ∃ s', Trans.Run (step f) Trans.Any w [.beginOp p, .piece p, .endOp p]
        ⟨s', update w.rest p [], update w.stage p .start,
          w.order ++ [(p, w.rest p)]⟩ ∧
      OpenAt s' f (splice c off (w.rest p)) (off + (w.rest p).length) ∧ s'.Quiescent ∧
      Fs.Wrote True L f (w.rest p) s s' := by
  subst hs
  obtain ⟨s', bs, hpiece, ho, hwrote, hlog⟩ := Fs.writePiece_begun h hq hne hlen hoff hmax hL hfree
  have htake : (w.rest p).take FsOps.maxPiece = w.rest p := take_of_length_le hlen
  have hdrop : (w.rest p).drop FsOps.maxPiece = [] := drop_of_length_le hlen
  refine ⟨{ s' with log := w.fs.log }, ?_, ⟨ho.file, ho.unlocked, ho.content, ho.off⟩,
    hq.of_log hwrote.sb rfl, ⟨hwrote.sb, hwrote.file, hwrote.inum, hwrote.supply⟩⟩
  have h1 : w.step f (.beginOp p) =
      some { w with fs := w.fs.begun, stage := update w.stage p .begun } := by
    simp only [step]
    rw [if_pos ⟨hstage, hne⟩, hq.beginOp]
  have h2 : step f { w with fs := w.fs.begun, stage := update w.stage p .begun } (.piece p) =
      some ⟨s', update w.rest p [], update w.stage p
        (.wrote (w.rest p).length (w.rest p).length), w.order ++ [(p, w.rest p)]⟩ := by
    simp only [step, update_self, if_true, htake, hdrop, hpiece, update_idem]
  have h3 : step f ⟨s', update w.rest p [], update w.stage p
        (.wrote (w.rest p).length (w.rest p).length), w.order ++ [(p, w.rest p)]⟩ (.endOp p) =
      some ⟨{ s' with log := w.fs.log }, update w.rest p [],
        update w.stage p .start, w.order ++ [(p, w.rest p)]⟩ := by
    simp only [step, update_self, hq.endOp hlog, update_idem]
    rw [if_neg (by omega), if_neg (by simp)]
  exact .snoc (.snoc (.snoc (.nil _) trivial h1) trivial h2) trivial h3

/-- Two processes write two bytes and one byte to an empty file. -/
theorem shared_writes_in_order_two : ∃ (acts : List (WriteAct Bool)) (w : Writers Bool),
    Trans.Run (step ⟨0, by decide⟩) Trans.Any
      (init (Fs.fileFs none 0) fun b => if b then [1, 2] else [3]) acts w ∧
    w.fs.toStore.content 2 = [1, 2, 3] ∧ (w.fs.ftable ⟨0, by decide⟩).off = 3 := by
  have hL : ∀ o n, slotsFor o n ⊆ range (MAXFILE + 1) := fun o n k hk => by
    have := (Finset.mem_filter.mp hk).2
    exact Finset.mem_range.mpr (by omega)
  obtain ⟨s1, hr1, ho1, hq1, hw1⟩ := exists_round (f := ⟨0, by decide⟩) (p := true)
    (w := init (Fs.fileFs none 0) fun b => if b then [1, 2] else [3]) rfl Fs.fileFs_openAt
    Fs.fileFs_quiescent rfl (by decide) (by decide) (by decide) (by decide) (hL _ _)
    (Fs.fileFs_supply _ _ _ (by rw [card_range]; decide))
  have hfree : Store.Supply (s1.icache (s1.ftable ⟨0, by decide⟩).ip).inum (range (MAXFILE + 1))
      s1.toStore := by
    rw [hw1.file]
    exact hw1.inum ▸ hw1.supply trivial
  obtain ⟨s2, hr2, -⟩ := exists_round (f := ⟨0, by decide⟩) (p := false)
    (w := ⟨s1, update (fun b => if b then [1, 2] else [3]) true [],
      update (fun _ => .start) true .start, [(true, [1, 2])]⟩)
    rfl ho1 hq1 rfl (show ([3] : List UInt8) ≠ [] by decide) (show 1 ≤ FsOps.maxPiece by decide)
    (by decide) (show 0 + 2 + 1 ≤ MAXFILE * BSIZE by decide) (hL _ _) hfree
  obtain ⟨hc, hoff, -⟩ := shared_writes_in_order Fs.fileFs_openAt (Nat.zero_le _) (by decide)
    (hr1.append hr2)
  exact ⟨_, _, hr1.append hr2, hc, hoff⟩

end Writers

end Xv6
