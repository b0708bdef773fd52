import Xv6.Proofs.Bio

/-! Whole runs of the buffer cache: its structure under any use, and its transparency under
the use that `bio.c` and `log.c` ask for. -/

namespace Xv6.Bio

variable {P : Type} [DecidableEq P] {start size disksize : ℕ} {d : ℕ → Block}
  {acts : List (Sched P BioCall)} {c : Conc P (Bio P) BioPanic}

theorem good_of_run {δ : Prop} {C : Conc P (Bio P) BioPanic → Sched P BioCall → Prop}
    (hC : δ → ∀ c p k, C c (.call p k) → c.shared.Disciplined p k)
    (hrun : Trans.Run step C (Conc.init (binit start size disksize d)) acts c) :
    Halts δ d c.shared := by
  have hinit : (protocol δ d).inv (binit start size disksize d : Bio P) :=
    ⟨wf_binit start size disksize d, fun _ => coherent_binit start size disksize d⟩
  have hgood : Conc.Good (protocol δ d) (fun _ s => Halts δ d s) c :=
    Conc.Good.run hrun (Conc.good_init hinit fun _ => trivial) (fun _ _ _ => trivial)
      fun c p k hI _ _ hc => (run_safe k hI fun hδ => hC hδ c p k hc).mono
        (fun _ _ _ ⟨hinv, hsp⟩ => ⟨hinv, hsp, trivial⟩) fun _ _ _ he => he
  cases hh : c.halted with
  | none =>
    obtain ⟨hw, hcoh⟩ := hgood.inv hh
    exact ⟨hw, fun hδ => (hcoh hδ).transparent⟩
  | some e => exact hgood.halt e hh

/-- In every state reached from `binit` by any calls of any number of processes the links
form one cycle through all buffers, no two buffers carry the same block of the root device,
`refcnt` counts the calls of `bget` not yet undone by `brelse`, and the buffer that `bget`
recycles is the unused one that was released longest ago. -/
theorem bcache_structure
    (hrun : Trans.Run step Trans.Any (Conc.init (binit start size disksize d)) acts c) :
    (∃ order : List (Fin NBUF), order.Nodup ∧ (∀ i, i ∈ order) ∧
      c.shared.ring.Cycle none (order.map some)) ∧
    (∀ i j, (c.shared.buf i).dev = ROOTDEV → (c.shared.buf j).dev = ROOTDEV →
      (c.shared.buf i).blockno = (c.shared.buf j).blockno → i = j) ∧
    (∀ i, (c.shared.buf i).refcnt = (c.shared.holders i).length ∧
      ((c.shared.holders i).Nodup →
        (c.shared.buf i).refcnt = (c.shared.holders i).toFinset.card)) ∧
    (∀ i, c.shared.unused = some i →
      c.shared.Free i ∧ ∀ j, c.shared.Free j → c.shared.released i ≤ c.shared.released j) ∧
    (c.shared.unused = none → ∀ i, ¬c.shared.Free i) := by
  obtain ⟨hw, -⟩ := good_of_run (δ := False) (fun h => h.elim) hrun
  obtain ⟨order, ho⟩ := hw.order
  have hcount : ∀ i, (c.shared.buf i).refcnt = (c.shared.holders i).length := fun i => by
    rw [hw.count, holders, List.length_map, List.countP_eq_length_filter]
  refine ⟨⟨order, ho.nodup, ho.all, ho.cycle⟩, hw.uniq, fun i => ⟨hcount i, fun hnd => ?_⟩,
    fun i hu => hw.unused_some hu, fun hu => hw.unused_none hu⟩
  rw [List.toFinset_card_of_nodup hnd]
  exact hcount i

/-- Two processes want one block: the second waits for the lock until the first has
released it. -/
def twoReaders : List (Sched Bool BioCall) :=
  [.call true (.bget 1 5), .resume true, .call false (.bget 1 5), .call true (.brelse ⟨0, by decide⟩),
    .resume false, .resume true]

theorem bcache_structure_two_readers : ∃ c : Conc Bool (Bio Bool) BioPanic,
    Trans.Run step Trans.Any (Conc.init (binit 2 30 1000 fun _ => .zero)) twoReaders c ∧
    (c.shared.buf ⟨0, by decide⟩).refcnt = 1 ∧
    (c.shared.holders ⟨0, by decide⟩).length = 1 := by
  obtain ⟨c, hrun, hc⟩ : ∃ c : Conc Bool (Bio Bool) BioPanic,
      Trans.Run step Trans.Any (Conc.init (binit 2 30 1000 fun _ => .zero)) twoReaders c ∧
        decide ((c.shared.buf ⟨0, by decide⟩).refcnt = 1) = true :=
    Trans.Run.of_exec_any (c := fun _ _ => true) (fun _ _ _ => trivial) (by decide +kernel)
  have hcnt := of_decide_eq_true hc
  obtain ⟨-, -, hcount, -⟩ := bcache_structure hrun
  exact ⟨c, hrun, hcnt, (hcount _).1.symm.trans hcnt⟩

/-- The buffer cache is transparent in every run of any number of processes that change,
save and release a buffer only under its lock and leave `bwrite` of recorded blocks and of
the log area to `commit`: `bread` and `write_log` get the bytes most recently stored, and no
block is evicted between `log_write` and its installation. -/
theorem bcache_transparent
    (hrun : Trans.Run step (Calls Disciplined) (Conc.init (binit start size disksize d)) acts c) :
    Transparent d c.shared.trace :=
  (good_of_run (fun _ _ _ _ hc => hc) hrun).2 trivial

def logAndRead : List (Sched Unit BioCall) :=
  [.call () .beginOp, .resume (), .call () (.bread 1 100), .resume (),
    .call () (.memmove ⟨0, by decide⟩ fun b => b.setWord 4 0 7), .call () (.logWrite ⟨0, by decide⟩),
    .call () (.brelse ⟨0, by decide⟩), .resume (), .call () .endOp] ++
    List.replicate 13 (.resume ()) ++ [.call () (.bread 1 100), .resume ()]

theorem bcache_transparent_logAndRead : ∃ c : Conc Unit (Bio Unit) BioPanic,
    Trans.Run step (Calls Disciplined) (Conc.init (binit 2 30 1000 fun _ => .zero)) logAndRead c ∧
    Transparent (fun _ => .zero) c.shared.trace ∧ c.shared.trace.length = 16 := by
  obtain ⟨c, hrun, hc⟩ : ∃ c : Conc Unit (Bio Unit) BioPanic,
      Trans.Run step (Calls Disciplined) (Conc.init (binit 2 30 1000 fun _ => .zero)) logAndRead c ∧
        decide (c.shared.trace.length = 16) = true :=
    Trans.Run.of_exec_any (c := fun c a => decide (Calls Disciplined c a))
      (fun _ _ h => of_decide_eq_true h) (by decide +kernel)
  exact ⟨c, hrun, bcache_transparent hrun, of_decide_eq_true hc⟩

/-- A block is logged, then written with `bwrite` as well; then twenty-nine other blocks are
read and one more is asked for, all before the operation ends. -/
def logThenBwrite : List (Sched Unit BioCall) :=
  [.call () .beginOp, .resume (), .call () (.bread 1 100), .resume (),
    .call () (.logWrite ⟨0, by decide⟩), .call () (.brelse ⟨0, by decide⟩), .resume (),
    .call () (.bread 1 100), .resume (), .call () (.bwrite ⟨0, by decide⟩),
    .call () (.brelse ⟨0, by decide⟩), .resume ()] ++
    (List.range 29).flatMap (fun k => [.call () (.bread 1 (200 + k)), .resume ()]) ++
    [.call () (.bread 1 300)]

def evictsPinned (evs : List BioEvent) : Bool :=
  match evs.getLast? with
  | some (.evicted dev b) => dev = ROOTDEV && pinned evs.dropLast b
  | _ => false

/-- Under the locks alone, a recorded block can be evicted before `commit` has installed it:
`bwrite` makes its buffer clean. -/
theorem logThenBwrite_evicts : ∃ c : Conc Unit (Bio Unit) BioPanic,
    Trans.Run step (Calls UnderLock) (Conc.init (binit 2 30 1000 fun _ => .zero)) logThenBwrite c ∧
    ∃ pre b, c.shared.trace = pre ++ [.evicted ROOTDEV b] ∧ pinned pre b = true := by
  obtain ⟨c, hrun, hc⟩ : ∃ c : Conc Unit (Bio Unit) BioPanic,
      Trans.Run step (Calls UnderLock) (Conc.init (binit 2 30 1000 fun _ => .zero)) logThenBwrite c ∧
        evictsPinned c.shared.trace = true :=
    Trans.Run.of_exec_any (c := fun c a => decide (Calls UnderLock c a))
      (fun _ _ h => of_decide_eq_true h) (by decide +kernel)
  refine ⟨c, hrun, ?_⟩
  unfold evictsPinned at hc
  split at hc
  · rename_i dev b hlast
    rw [Bool.and_eq_true, decide_eq_true_eq] at hc
    obtain ⟨rfl, hpin⟩ := hc
    exact ⟨_, b, (List.dropLast_append_getLast? _ hlast).symm, hpin⟩
  · cases hc

end Xv6.Bio
