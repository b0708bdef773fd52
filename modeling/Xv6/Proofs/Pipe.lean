import Xv6.Spec.Pipe

/-! Pipes are first-in first-out streams of bytes under any interleaving, and a process sleeps on
one only while there is nothing for it to do, unless a writer is killed. -/

namespace Xv6

open Trans List

theorem pipesize_dvd : PIPESIZE ∣ 2 ^ 32 := by decide

theorem pipesize_lt : PIPESIZE < 2 ^ 32 := by decide

namespace Pipe

variable {p : Pipe} {r : ℕ} {q : List UInt8}

theorem fill_spec (h : p.Holds r q) (cs : List UInt8) : ∃ bs, cs = bs ++ (p.fill cs).2 ∧
    (p.fill cs).1.Holds r (q ++ bs) ∧ ((p.fill cs).2 ≠ [] → (q ++ bs).length = PIPESIZE) ∧
    (p.fill cs).1.readopen = p.readopen ∧ (p.fill cs).1.writeopen = p.writeopen := by
  induction cs generalizing p q with
  | nil => exact ⟨[], rfl, by simpa [fill] using h, fun hne => absurd rfl hne, rfl, rfl⟩
  | cons c cs ih =>
    by_cases hfull : p.isFull = true
    · have hlen := (h.isFull_iff pipesize_lt).mp hfull
      simp only [fill, hfull, if_true]
      exact ⟨[], rfl, by simpa using h, fun _ => by simpa using hlen, trivial, trivial⟩
    · have hroom : q.length < PIPESIZE :=
        lt_of_le_of_ne h.length_le fun he => hfull ((h.isFull_iff pipesize_lt).mpr he)
      obtain ⟨bs, hcs, hholds, hstop, hr, hw⟩ :=
        ih (p := { p with toRingBuffer := p.put c }) (h.put pipesize_dvd hroom c)
      simp only [fill, hfull, if_false, Bool.false_eq_true]
      refine ⟨c :: bs, ?_, ?_, fun hne => ?_, hr, hw⟩
      · rw [cons_append, ← hcs]
      · rwa [append_assoc] at hholds
      · rw [← hstop hne, append_assoc]
        rfl

theorem drain_spec (h : p.Holds r q) (i : ℕ) : (p.drain i).2 = q.take i ∧
    (p.drain i).1.Holds (r + (q.take i).length) (q.drop i) ∧
    (p.drain i).1.readopen = p.readopen ∧ (p.drain i).1.writeopen = p.writeopen := by
  induction i generalizing p r q with
  | zero => exact ⟨rfl, by simpa [drain] using h, rfl, rfl⟩
  | succ i ih =>
    cases q with
    | nil =>
      have hempty := (h.isEmpty_iff pipesize_lt).mpr rfl
      simp only [drain, hempty, if_true]
      exact ⟨rfl, by simpa using h, trivial, trivial⟩
    | cons a q =>
      have hempty : ¬p.isEmpty = true := fun he => by
        have := (h.isEmpty_iff pipesize_lt).mp he
        cases this
      obtain ⟨hbs, hholds, hr, hw⟩ := ih (p := { p with toRingBuffer := p.tail }) h.tail
      simp only [drain, hempty, if_false, Bool.false_eq_true]
      refine ⟨?_, ?_, hr, hw⟩
      · rw [hbs, h.head pipesize_dvd]
        rfl
      · rw [take_succ_cons, length_cons, drop_succ_cons,
          show r + ((q.take i).length + 1) = r + 1 + (q.take i).length by omega]
        exact hholds

end Pipe

namespace Pipes

variable {P : Type} [DecidableEq P] {s s' : Pipes P} {a : PipeAct P}

/-- What is in the pipe is what has been stored and not been returned, and `piperead` returned 0
only at the end of the stream. -/
structure Fifo (s : Pipes P) (q : List UInt8) : Prop where
  stored : s.stored = s.returned ++ q
  holds : s.pipe.Holds s.returned.length q
  reads : ∀ e ∈ s.reads, 0 < e.n → e.ret = 0 → e.writeopen = false ∧ e.unread = 0

/-- What `pipewrite` does up to the next `release`: it stores some bytes, and then it is done, or
it finds the pipe full and gives up, or it sleeps. -/
theorem writeOn_cases {q : List UInt8} (h : s.Fifo q) (p : P) (n : ℕ) (rest : List UInt8) :
    ∃ pipe bs left, rest = bs ++ left ∧ pipe.readopen = s.pipe.readopen ∧
      pipe.writeopen = s.pipe.writeopen ∧ (left ≠ [] → (q ++ bs).length = PIPESIZE) ∧
      Fifo { s with pipe := pipe, stored := s.stored ++ bs } (q ++ bs) ∧
      ((left = [] ∧ s.writeOn p n rest =
          (wakeReaders { s with pipe := pipe, stored := s.stored ++ bs }).setProc p .idle) ∨
        (left ≠ [] ∧ (s.pipe.readopen = false ∨ s.killed p = true) ∧ s.writeOn p n rest =
          setProc { s with pipe := pipe, stored := s.stored ++ bs } p .idle) ∨
        (left ≠ [] ∧ s.pipe.readopen = true ∧ s.writeOn p n rest =
          (wakeReaders { s with pipe := pipe, stored := s.stored ++ bs }).setProc p
            (.writing n left true))) := by
  obtain ⟨bs, hrest, hholds, hfull, hr, hw⟩ := Pipe.fill_spec h.holds rest
  have htake : rest.take (rest.length - (s.pipe.fill rest).2.length) = bs := by
    have hlen := congrArg length hrest
    rw [length_append] at hlen
    rw [show rest.length - (s.pipe.fill rest).2.length = bs.length by omega]
    conv_lhs => rw [hrest]
    exact take_left
  refine ⟨(s.pipe.fill rest).1, bs, (s.pipe.fill rest).2, hrest, hr, hw, hfull, ⟨?_, hholds, h.reads⟩, ?_⟩
  · change s.stored ++ bs = s.returned ++ (q ++ bs)
    rw [h.stored, append_assoc]
  · unfold writeOn
    dsimp only
    rw [htake, hr]
    by_cases hleft : (s.pipe.fill rest).2 = []
    · exact .inl ⟨hleft, by rw [hleft]; rfl⟩
    · rw [if_neg (by simpa using hleft)]
      by_cases hgive : (!s.pipe.readopen || s.killed p) = true
      · refine .inr (.inl ⟨hleft, by simpa using hgive, ?_⟩)
        rw [if_pos hgive]
      · refine .inr (.inr ⟨hleft, ?_, ?_⟩)
        · rw [Bool.or_eq_true, not_or] at hgive
          simpa using hgive.1
        · rw [if_neg hgive]

/-- What `piperead` does up to the next `release`: the pipe is empty and it gives up or sleeps, or
it takes the oldest bytes. -/
theorem readOn_cases {q : List UInt8} (h : s.Fifo q) (p : P) (n : ℤ) :
    (q = [] ∧ s.pipe.writeopen = true ∧ ((∃ e, s.readOn p n = { s.setProc p .idle with
        reads := e :: s.reads } ∧ e.ret = -1) ∨ s.readOn p n = s.setProc p (.reading n true))) ∨
      ((q ≠ [] ∨ s.pipe.writeopen = false) ∧ ∃ pipe, pipe.readopen = s.pipe.readopen ∧
        pipe.writeopen = s.pipe.writeopen ∧
        pipe.Holds (s.returned ++ q.take n.toNat).length (q.drop n.toNat) ∧
        s.readOn p n = { s.wakeWriters.setProc p .idle with
          pipe := pipe
          returned := s.returned ++ q.take n.toNat
          reads := ⟨n, (q.take n.toNat).length, s.pipe.writeopen,
            s.stored.length - (s.returned ++ q.take n.toNat).length⟩ :: s.reads }) := by
  unfold readOn
  have hempty := h.holds.isEmpty_iff pipesize_lt
  by_cases hwait : (s.pipe.isEmpty && s.pipe.writeopen) = true
  · obtain ⟨hq, hopen⟩ : q = [] ∧ s.pipe.writeopen = true := by
      rw [Bool.and_eq_true, hempty] at hwait
      exact hwait
    refine .inl ⟨hq, hopen, ?_⟩
    rw [if_pos hwait]
    split_ifs
    · exact .inl ⟨_, rfl, rfl⟩
    · exact .inr rfl
  · refine .inr ⟨?_, ?_⟩
    · by_contra hcon
      push Not at hcon
      exact hwait (by rw [Bool.and_eq_true, hempty]; exact ⟨hcon.1, by simpa using hcon.2⟩)
    · obtain ⟨hbs, hholds, hr, hw⟩ := Pipe.drain_spec h.holds n.toNat
      refine ⟨(s.pipe.drain n.toNat).1, hr, hw, ?_, ?_⟩
      · rwa [length_append]
      · rw [if_neg hwait]
        dsimp only
        rw [hbs]

/-! ### First in, first out -/

theorem Fifo.writeOn {q : List UInt8} (h : s.Fifo q) (p : P) (n : ℕ) (rest : List UInt8) :
    ∃ q', (s.writeOn p n rest).Fifo q' := by
  obtain ⟨pipe, bs, left, -, -, -, -, hf, hcase⟩ := writeOn_cases h p n rest
  refine ⟨q ++ bs, ?_⟩
  obtain ⟨-, heq⟩ | ⟨-, -, heq⟩ | ⟨-, -, heq⟩ := hcase
  all_goals
    rw [heq]
    exact ⟨hf.stored, hf.holds, hf.reads⟩

theorem Fifo.readOn {q : List UInt8} (h : s.Fifo q) (p : P) (n : ℤ) : ∃ q', (s.readOn p n).Fifo q' := by
  obtain ⟨-, -, ⟨e, heq, hret⟩ | heq⟩ | ⟨hne, pipe, -, -, hholds, heq⟩ := readOn_cases h p n
  · refine ⟨q, ?_⟩
    rw [heq]
    refine ⟨h.stored, h.holds, fun x hx hn h0 => ?_⟩
    obtain rfl | hx := mem_cons.mp hx
    · omega
    · exact h.reads x hx hn h0
  · refine ⟨q, ?_⟩
    rw [heq]
    exact ⟨h.stored, h.holds, h.reads⟩
  · refine ⟨q.drop n.toNat, ?_⟩
    rw [heq]
    refine ⟨?_, hholds, fun x hx hn h0 => ?_⟩
    · change s.stored = (s.returned ++ q.take n.toNat) ++ q.drop n.toNat
      rw [append_assoc, take_append_drop, h.stored]
    · obtain rfl | hx := mem_cons.mp hx
      · -- nothing was taken although at least one byte was asked for
        have hq : q = [] := by
          have hlen : (q.take n.toNat).length = 0 := Int.ofNat_eq_zero.mp h0
          rw [length_take] at hlen
          rw [← length_eq_zero_iff]
          simp only at hn
          omega
        refine ⟨hne.resolve_left fun hcon => hcon hq, ?_⟩
        simp [h.stored, hq]
      · exact h.reads x hx hn h0

theorem Fifo.step {q : List UInt8} (h : s.Fifo q) (hstep : s.step a = some s') :
    ∃ q', s'.Fifo q' := by
  cases a with
  | piperead p n =>
    simp only [Pipes.step] at hstep
    split_ifs at hstep
    obtain rfl := Option.some.inj hstep
    exact h.readOn p n
  | pipewrite p src =>
    simp only [Pipes.step] at hstep
    split_ifs at hstep
    obtain rfl := Option.some.inj hstep
    exact h.writeOn p _ src
  | resume p =>
    simp only [Pipes.step] at hstep
    split_ifs at hstep
    split at hstep
    · obtain rfl := Option.some.inj hstep
      exact h.readOn p _
    · obtain rfl := Option.some.inj hstep
      exact h.writeOn p _ _
    · cases hstep
  | pipeclose writable =>
    simp only [Pipes.step] at hstep
    split_ifs at hstep
    obtain rfl := Option.some.inj hstep
    refine ⟨q, ?_⟩
    cases writable <;> exact ⟨h.stored, h.holds, h.reads⟩
  | kill p =>
    obtain rfl := Option.some.inj hstep
    exact ⟨q, h.stored, h.holds, h.reads⟩

omit [DecidableEq P] in
theorem fifo_init (data : Fin PIPESIZE → UInt8) (killed : P → Bool) : (init data killed).Fifo [] :=
  ⟨rfl, RingBuffer.holds_nil data, fun _ h => by simp [init] at h⟩

/-- Under any interleaving of `pipewrite`, `piperead` and `pipeclose` by any number of processes,
however long the run, the bytes returned are a prefix of the bytes stored, the counters differ
by the number of bytes in the pipe, which is at most `PIPESIZE`, and `piperead` returns 0 for
`n > 0` only when the write end is closed and everything stored has been read. -/
theorem pipe_fifo {data : Fin PIPESIZE → UInt8} {killed : P → Bool} {acts : List (PipeAct P)}
    (hrun : Run step Any (init data killed) acts s) : s.returned <+: s.stored ∧
      (s.pipe.nwrite - s.pipe.nread).toNat = s.stored.length - s.returned.length ∧
      s.stored.length - s.returned.length ≤ PIPESIZE ∧
      ∀ e ∈ s.reads, 0 < e.n → e.ret = 0 → e.writeopen = false ∧ e.unread = 0 := by
  obtain ⟨q, hq⟩ : ∃ q, s.Fifo q :=
    hrun.induct (I := fun s => ∃ q, s.Fifo q) ⟨[], fifo_init data killed⟩
      fun s a s' ⟨q, hq⟩ _ hstep => hq.step hstep
  have hlen : s.stored.length - s.returned.length = q.length := by
    rw [hq.stored, length_append]
    omega
  refine ⟨⟨q, hq.stored.symm⟩, ?_, ?_, hq.reads⟩
  · rw [hlen]
    exact hq.holds.toNat_sub pipesize_lt
  · rw [hlen]
    exact hq.holds.length_le

/-- One process stores two bytes and another takes one of them. -/
theorem pipe_fifo_two : ∃ s : Pipes Bool, s.returned = [1] ∧ s.returned <+: s.stored ∧
    (s.pipe.nwrite - s.pipe.nread).toNat = s.stored.length - s.returned.length ∧
    s.stored.length - s.returned.length ≤ PIPESIZE ∧
    ∀ e ∈ s.reads, 0 < e.n → e.ret = 0 → e.writeopen = false ∧ e.unread = 0 := by
  obtain ⟨s, hrun, hs⟩ := Run.of_exec_any (C := Any) (c := fun _ _ => true)
    (q := fun s : Pipes Bool => s.returned == [1]) (fun _ _ _ => trivial)
    (show (exec step (fun _ _ => true) (init (fun _ => 0) fun _ => false)
      [.pipewrite true [1, 2], .piperead false 1]).any _ = true by decide +kernel)
  exact ⟨s, by simpa using hs, pipe_fifo hrun⟩

/-! ### Sleepers -/

/-- Who sleeps has reason to: a reader while the pipe is empty and can still be written, a writer
while it is full and can still be read. Nobody reads from a closed read end. -/
structure Waits (s : Pipes P) (q : List UInt8) : Prop where
  fifo : s.Fifo q
  reader : ∀ p n, s.proc p = .reading n true → q = [] ∧ s.pipe.writeopen = true
  writer : ∀ p n rest, s.proc p = .writing n rest true →
    q.length = PIPESIZE ∧ s.pipe.readopen = true
  readopen : s.pipe.readopen = false → ∀ p n b, s.proc p ≠ .reading n b

omit [DecidableEq P] in
@[simp] theorem wakeReaders_proc (p : P) : s.wakeReaders.proc p = (s.proc p).wakeReader := rfl

omit [DecidableEq P] in
@[simp] theorem wakeWriters_proc (p : P) : s.wakeWriters.proc p = (s.proc p).wakeWriter := rfl

theorem setProc_cases {p p' : P} {pr x : PipeProc} (h : (s.setProc p pr).proc p' = x) :
    (p' = p ∧ pr = x) ∨ (p' ≠ p ∧ s.proc p' = x) := by
  by_cases hp : p' = p
  · subst hp
    exact .inl ⟨rfl, (Function.update_self ..).symm.trans h⟩
  · exact .inr ⟨hp, (Function.update_of_ne hp ..).symm.trans h⟩

variable {pr : PipeProc} {n : ℤ}

theorem wakeReader_asleep : pr.wakeReader ≠ .reading n true := by
  cases pr <;> simp [PipeProc.wakeReader]

variable {b : Bool} {rest : List UInt8}

theorem wakeReader_writing {n : ℕ} :
    pr.wakeReader = .writing n rest b ↔ pr = .writing n rest b := by
  cases pr <;> simp [PipeProc.wakeReader]

theorem wakeReader_reading (h : pr.wakeReader = .reading n b) : ∃ b', pr = .reading n b' := by
  cases pr <;> simp_all [PipeProc.wakeReader]

theorem wakeWriter_asleep {n : ℕ} : pr.wakeWriter ≠ .writing n rest true := by
  cases pr <;> simp [PipeProc.wakeWriter]

theorem wakeWriter_reading : pr.wakeWriter = .reading n b ↔ pr = .reading n b := by
  cases pr <;> simp [PipeProc.wakeWriter]

theorem Waits.writeOn {q : List UInt8} (h : s.Waits q) {p : P} (hk : s.killed p = false) (n : ℕ)
    (rest : List UInt8) : ∃ q', (s.writeOn p n rest).Waits q' := by
  obtain ⟨pipe, bs, left, hrest, hr, hw, hfull, hf, hcase⟩ := writeOn_cases h.fifo p n rest
  have hle := hf.holds.length_le
  rw [length_append] at hle
  -- a sleeping writer has found the pipe full, and nothing fits
  have hwriter : ∀ p' n' rest', s.proc p' = .writing n' rest' true →
      (q ++ bs).length = PIPESIZE ∧ pipe.readopen = true := by
    intro p' n' rest' hp'
    obtain ⟨hlen, hopen⟩ := h.writer p' n' rest' hp'
    rw [length_append]
    exact ⟨by omega, hr.trans hopen⟩
  refine ⟨q ++ bs, ?_⟩
  obtain ⟨-, heq⟩ | ⟨hne, hgive, heq⟩ | ⟨hne, hopen, heq⟩ := hcase
  · rw [heq]
    refine ⟨⟨hf.stored, hf.holds, hf.reads⟩, fun p' m hp' => ?_, fun p' m l hp' => ?_, fun hro p' m b hp' => ?_⟩
    · obtain ⟨-, hx⟩ | ⟨-, hx⟩ := setProc_cases hp'
      · cases hx
      · exact absurd hx wakeReader_asleep
    · obtain ⟨-, hx⟩ | ⟨-, hx⟩ := setProc_cases hp'
      · cases hx
      · exact hwriter p' m l (wakeReader_writing.mp hx)
    · obtain ⟨-, hx⟩ | ⟨-, hx⟩ := setProc_cases hp'
      · cases hx
      · obtain ⟨b', hb'⟩ := wakeReader_reading hx
        exact h.readopen (hr.symm.trans hro) p' m b' hb'
  · -- the read end is closed, so nobody waits for the bytes stored
    have hclosed : s.pipe.readopen = false := hgive.resolve_right (by simp [hk])
    rw [heq]
    refine ⟨⟨hf.stored, hf.holds, hf.reads⟩, fun p' m hp' => ?_, fun p' m l hp' => ?_, fun hro p' m b hp' => ?_⟩
    · obtain ⟨-, hx⟩ | ⟨-, hx⟩ := setProc_cases hp'
      · cases hx
      · exact absurd hx (h.readopen hclosed p' m true)
    · obtain ⟨-, hx⟩ | ⟨-, hx⟩ := setProc_cases hp'
      · cases hx
      · exact hwriter p' m l hx
    · obtain ⟨-, hx⟩ | ⟨-, hx⟩ := setProc_cases hp'
      · cases hx
      · exact h.readopen hclosed p' m b hx
  · rw [heq]
    refine ⟨⟨hf.stored, hf.holds, hf.reads⟩, fun p' m hp' => ?_, fun p' m l hp' => ?_, fun hro p' m b hp' => ?_⟩
    · obtain ⟨-, hx⟩ | ⟨-, hx⟩ := setProc_cases hp'
      · cases hx
      · exact absurd hx wakeReader_asleep
    · obtain ⟨-, -⟩ | ⟨-, hx⟩ := setProc_cases hp'
      · exact ⟨hfull hne, hr.trans hopen⟩
      · exact hwriter p' m l (wakeReader_writing.mp hx)
    · exact absurd (hr.symm.trans hro) (by simp [hopen])

theorem Waits.readOn {q : List UInt8} (h : s.Waits q) {p : P} (hopen : s.pipe.readopen = true) (n : ℤ) :
    ∃ q', (s.readOn p n).Waits q' := by
  obtain ⟨q', hf'⟩ := h.fifo.readOn p n
  have hno : ∀ {x : Pipes P}, x.pipe.readopen = s.pipe.readopen →
      x.pipe.readopen = false → ∀ p n b, x.proc p ≠ .reading n b := fun hx hro =>
    absurd (hx.symm.trans hro) (by simp [hopen])
  obtain ⟨hq, hw, hstay⟩ | ⟨hne, pipe, hr, hw, hholds, heq⟩ := readOn_cases h.fifo p n
  · -- nothing is taken
    have hpipe : (s.readOn p n).pipe = s.pipe ∧ (s.readOn p n).stored = s.stored ∧
        (s.readOn p n).returned = s.returned := by
      obtain ⟨e, heq, -⟩ | heq := hstay <;> rw [heq] <;> exact ⟨rfl, rfl, rfl⟩
    have hf : (s.readOn p n).Fifo q :=
      ⟨by rw [hpipe.2.1, hpipe.2.2]; exact h.fifo.stored, by rw [hpipe.1, hpipe.2.2]; exact h.fifo.holds,
        hf'.reads⟩
    refine ⟨q, hf, fun p' m hp' => ?_, fun p' m l hp' => ?_, hno (congrArg Pipe.readopen hpipe.1)⟩
    · exact ⟨hq, by rw [hpipe.1]; exact hw⟩
    · rw [hpipe.1]
      refine h.writer p' m l ?_
      obtain ⟨e, heq, -⟩ | heq := hstay
      · rw [heq] at hp'
        obtain ⟨-, hx⟩ | ⟨-, hx⟩ := setProc_cases hp'
        · cases hx
        · exact hx
      · rw [heq] at hp'
        obtain ⟨-, hx⟩ | ⟨-, hx⟩ := setProc_cases hp'
        · cases hx
        · exact hx
  · refine ⟨q', hf', fun p' m hp' => ?_, fun p' m l hp' => ?_, ?_⟩
    · -- a sleeping reader would have found the pipe empty and open
      rw [heq] at hp'
      obtain ⟨-, hx⟩ | ⟨-, hx⟩ := setProc_cases (s := s.wakeWriters) hp'
      · cases hx
      · obtain ⟨hq, hwo⟩ := h.reader p' m (wakeWriter_reading.mp hx)
        exact (hne.elim (fun hc => hc hq) fun hc => absurd hwo (by simp [hc])).elim
    · rw [heq] at hp'
      obtain ⟨-, hx⟩ | ⟨-, hx⟩ := setProc_cases (s := s.wakeWriters) hp'
      · cases hx
      · exact absurd hx wakeWriter_asleep
    · refine hno ?_
      rw [heq]
      exact hr

omit [DecidableEq P] in
theorem Waits.close {q : List UInt8} (h : s.Waits q) {writable : Bool}
    (hc : writable = false → ∀ p n b, s.proc p ≠ .reading n b) : (s.close writable).Waits q := by
  cases writable with
  | true =>
    refine ⟨⟨h.fifo.stored, h.fifo.holds, h.fifo.reads⟩, fun p n hp => ?_, fun p n rest hp => ?_,
      fun hro p n b hp => ?_⟩
    · exact absurd hp wakeReader_asleep
    · exact h.writer p n rest (wakeReader_writing.mp hp)
    · obtain ⟨b', hb'⟩ := wakeReader_reading hp
      exact h.readopen hro p n b' hb'
  | false =>
    refine ⟨⟨h.fifo.stored, h.fifo.holds, h.fifo.reads⟩, fun p n hp => ?_, fun p n rest hp => ?_,
      fun _ p n b hp => ?_⟩
    · exact absurd (wakeWriter_reading.mp hp) (hc rfl p n true)
    · exact absurd hp wakeWriter_asleep
    · exact hc rfl p n b (wakeWriter_reading.mp hp)

theorem Waits.kill {q : List UInt8} (h : s.Waits q) (p : P) :
    Waits { s.setProc p (s.proc p).wake with killed := Function.update s.killed p true } q := by
  have hwake : ∀ {x : PipeProc}, (s.proc p).wake = x → x = .idle ∨ (∃ n, x = .reading n false ∧
      ∃ b, s.proc p = .reading n b) ∨ ∃ n rest, x = .writing n rest false := by
    rintro x rfl
    cases hp : s.proc p with
    | idle => exact .inl rfl
    | reading n b => exact .inr (.inl ⟨n, rfl, b, rfl⟩)
    | writing n rest b => exact .inr (.inr ⟨n, rest, rfl⟩)
  refine ⟨⟨h.fifo.stored, h.fifo.holds, h.fifo.reads⟩, fun p' n hp' => ?_, fun p' n rest hp' => ?_,
    fun hro p' n b hp' => ?_⟩
  · obtain ⟨-, hx⟩ | ⟨-, hx⟩ := setProc_cases hp'
    · obtain hx | ⟨m, hx, -⟩ | ⟨m, l, hx⟩ := hwake hx <;> cases hx
    · exact h.reader p' n hx
  · obtain ⟨-, hx⟩ | ⟨-, hx⟩ := setProc_cases hp'
    · obtain hx | ⟨m, hx, -⟩ | ⟨m, l, hx⟩ := hwake hx <;> cases hx
    · exact h.writer p' n rest hx
  · obtain ⟨-, hx⟩ | ⟨-, hx⟩ := setProc_cases hp'
    · obtain hx | ⟨m, -, b', hb'⟩ | ⟨m, l, hx⟩ := hwake hx
      · cases hx
      · exact h.readopen hro p m b' hb'
      · cases hx
    · exact h.readopen hro p' n b hx

theorem Waits.step {q : List UInt8} (h : s.Waits q) (hc : s.Unkilled a)
    (hstep : s.step a = some s') : ∃ q', s'.Waits q' := by
  cases a with
  | piperead p n =>
    simp only [Pipes.step] at hstep
    split_ifs at hstep
    obtain rfl := Option.some.inj hstep
    exact h.readOn hc n
  | pipewrite p src =>
    simp only [Pipes.step] at hstep
    split_ifs at hstep
    obtain rfl := Option.some.inj hstep
    exact h.writeOn hc _ src
  | resume p =>
    simp only [Pipes.step] at hstep
    split_ifs at hstep
    split at hstep
    · rename_i n hp
      obtain rfl := Option.some.inj hstep
      refine h.readOn ?_ n
      by_contra hro
      exact h.readopen (by simpa using hro) p n false hp
    · rename_i n rest hp
      obtain rfl := Option.some.inj hstep
      exact h.writeOn (hc ⟨n, rest, false, hp⟩) n rest
    · cases hstep
  | pipeclose writable =>
    simp only [Pipes.step] at hstep
    split_ifs at hstep
    obtain rfl := Option.some.inj hstep
    exact ⟨q, h.close hc⟩
  | kill p =>
    obtain rfl := Option.some.inj hstep
    exact ⟨q, h.kill p⟩

/-- In every run in which no killed process writes and the ends are closed as the reference counts
of the files allow, a process sleeps on `&p->nread` only while the pipe is empty and its write
end open, and on `&p->nwrite` only while the pipe is full and its read end open. -/
theorem pipe_sleepers {data : Fin PIPESIZE → UInt8} {killed : P → Bool} {acts : List (PipeAct P)}
    (hrun : Run step Unkilled (init data killed) acts s) :
    (∀ p, s.SleepsOnRead p → s.pipe.nread = s.pipe.nwrite ∧ s.pipe.writeopen = true) ∧
      (∀ p, s.SleepsOnWrite p → s.pipe.nwrite = s.pipe.nread + BitVec.ofNat 32 PIPESIZE) ∧
      (s.pipe.readopen = false → ∀ p, ¬s.SleepsOnWrite p) := by
  have hinit : (init data killed).Waits [] :=
    ⟨fifo_init data killed, fun _ _ h => (by cases h), fun _ _ _ h => (by cases h),
      fun h => (by cases h)⟩
  obtain ⟨q, h⟩ : ∃ q, s.Waits q :=
    hrun.induct (I := fun s => ∃ q, s.Waits q) ⟨[], hinit⟩ fun s a s' ⟨q, hq⟩ hc hstep => hq.step hc hstep
  refine ⟨?_, ?_, ?_⟩
  · rintro p ⟨n, hp⟩
    obtain ⟨hq, hw⟩ := h.reader p n hp
    exact ⟨by simpa [RingBuffer.isEmpty] using (h.fifo.holds.isEmpty_iff pipesize_lt).mpr hq, hw⟩
  · rintro p ⟨n, rest, hp⟩
    have hfull := (h.fifo.holds.isFull_iff pipesize_lt).mpr (h.writer p n rest hp).1
    simpa [RingBuffer.isFull] using hfull
  · rintro hro p ⟨n, rest, hp⟩
    exact absurd (h.writer p n rest hp).2 (by simp [hro])

/-- A reader goes to sleep, a process writes into the pipe and wakes it up. -/
theorem pipe_sleepers_woken : ∃ s : Pipes Bool, s.stored = [7] ∧
    (∀ p, s.SleepsOnRead p → s.pipe.nread = s.pipe.nwrite ∧ s.pipe.writeopen = true) ∧
    (∀ p, s.SleepsOnWrite p → s.pipe.nwrite = s.pipe.nread + BitVec.ofNat 32 PIPESIZE) ∧
    (s.pipe.readopen = false → ∀ p, ¬s.SleepsOnWrite p) := by
  obtain ⟨s, hrun, hs⟩ := Run.of_exec_any (C := Unkilled)
    (c := fun s a => match a with
      | .piperead _ _ => s.pipe.readopen
      | .pipewrite p _ => !s.killed p
      | _ => false)
    (q := fun s : Pipes Bool => s.stored == [7])
    (fun s a ha => by cases a <;> simp_all [Unkilled])
    (show (exec step _ (init (fun _ => 0) fun _ => false)
      [.piperead false 1, .pipewrite true [7]]).any _ = true by decide +kernel)
  exact ⟨s, by simpa using hs, pipe_sleepers hrun⟩

/-- A reader sleeps on the empty pipe. A writer that has been killed fills the pipe and returns
without waking it up. -/
theorem killed_writer_strands_reader : ∃ (acts : List (PipeAct Bool)) (s : Pipes Bool),
    Run step Any (init (fun _ => 0) fun _ => false) acts s ∧ s.SleepsOnRead false ∧
      s.pipe.nread ≠ s.pipe.nwrite := by
  obtain ⟨s, hrun, hs⟩ := Run.of_exec_any (C := Any) (c := fun _ _ => true)
    (q := fun s : Pipes Bool =>
      decide (s.proc false = .reading 1 true) && decide (s.pipe.nread ≠ s.pipe.nwrite))
    (fun _ _ _ => trivial)
    (show (exec step (fun _ _ => true) (init (fun _ => 0) fun _ => false)
      [.piperead false 1, .kill true, .pipewrite true (replicate 513 1)]).any _ = true by
      decide +kernel)
  rw [Bool.and_eq_true, decide_eq_true_eq, decide_eq_true_eq] at hs
  exact ⟨_, s, hrun, ⟨1, hs.1⟩, hs.2⟩

end Pipes

end Xv6
