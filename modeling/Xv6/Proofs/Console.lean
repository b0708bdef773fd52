import Xv6.Spec.Console

/-! The console keeps lines. The buffer between the read and the write index holds the committed input
that has not been taken, and the buffer between the write and the edit index the current line. -/

open Function List Trans Nat

namespace Xv6.Console

variable {x : Input} {taken k : ℕ} {q line got : List UInt8} {c : UInt8}

theorem dvd_INPUT_BUF : INPUT_BUF ∣ 2 ^ 32 := by decide

theorem INPUT_BUF_lt : INPUT_BUF < 2 ^ 32 := by decide

/-- The committed input `q` and the current `line` are in the buffer, after `taken` bytes. -/
structure Rep (x : Input) (taken : ℕ) (q line : List UInt8) : Prop where
  ring : (⟨x.buf, x.r, x.e⟩ : RingBuffer UInt8 INPUT_BUF 32).Holds taken (q ++ line)
  w : x.w = BitVec.ofNat 32 (taken + q.length)
  line : newline ∉ line

namespace Rep

section

variable (h : Rep x taken q line)
include h

theorem length_le : q.length + line.length ≤ INPUT_BUF := by
  simpa using h.ring.length_le

theorem r_eq_w : x.r = x.w ↔ q = [] := by
  have hle := h.length_le
  have hlt := INPUT_BUF_lt
  have hr : x.r = BitVec.ofNat 32 (taken + 0) := h.ring.nread
  rw [hr, h.w, RingBuffer.ofNat_add_inj taken (by omega) (by omega), eq_comm,
    length_eq_zero_iff]

theorem e_eq_w : x.e = x.w ↔ line = [] := by
  have hle := h.length_le
  have hlt := INPUT_BUF_lt
  have he : x.e = BitVec.ofNat 32 (taken + (q ++ line).length) := h.ring.nwrite
  rw [he, h.w, RingBuffer.ofNat_add_inj taken (by simp; omega) (by omega), length_append,
    add_eq_left, length_eq_zero_iff]

theorem e_sub_r : (x.e - x.r).toNat = q.length + line.length := by
  simpa using h.ring.toNat_sub INPUT_BUF_lt

theorem w_sub_r : (x.w - x.r).toNat = q.length := by
  have hle := h.length_le
  have hlt := INPUT_BUF_lt
  have hr : x.r = BitVec.ofNat 32 taken := h.ring.nread
  rw [h.w, hr]
  exact RingBuffer.toNat_ofNat_add_sub taken (by omega)

end

theorem backspace (h : Rep x taken q (line ++ [c])) : Rep { x with e := x.e - 1 } taken q line where
  ring := by
    have := h.ring
    rw [← append_assoc] at this
    exact this.unput
  w := h.w
  line := fun hmem => h.line (mem_append_left _ hmem)

theorem get_last (h : Rep x taken q (line ++ [c])) : x.get (x.e - 1) = c := by
  have := h.ring
  rw [← append_assoc] at this
  exact this.last dvd_INPUT_BUF

theorem killLine (h : Rep x taken q line) (hk : line.length ≤ k) :
    Rep (Input.killLine k x) taken q [] := by
  induction k generalizing x line with
  | zero =>
    obtain rfl := length_eq_zero_iff.mp (le_zero.mp hk)
    exact h
  | succ k ih =>
    unfold Input.killLine
    obtain rfl | ⟨line, c, rfl⟩ := eq_nil_or_concat' line
    · rw [if_neg fun hne => hne.1 (h.e_eq_w.mpr rfl)]
      exact h
    · have hne : x.e ≠ x.w := fun he => by simpa using h.e_eq_w.mp he
      have hlast : x.get (x.e - 1) ≠ newline := by
        rw [h.get_last]
        rintro rfl
        exact h.line (by simp)
      rw [if_pos ⟨hne, hlast⟩]
      apply ih h.backspace
      simpa using hk

theorem store (h : Rep x taken q line) (hroom : q.length + line.length < INPUT_BUF) (c : UInt8) :
    (⟨update x.buf (RingBuffer.slot x.e) c, x.r, x.e + 1⟩ :
      RingBuffer UInt8 INPUT_BUF 32).Holds taken (q ++ (line ++ [c])) := by
  rw [← append_assoc]
  exact h.ring.put dvd_INPUT_BUF (by simpa using hroom) c

end Rep

/-! ### Characters -/

variable {P : Type} {t : Tty P}

theorem queue_append (h : t.io.taken ≤ t.committed.length) (l : List UInt8) :
    (t.committed ++ l).drop t.io.taken = t.queue ++ l :=
  drop_append_of_le_length h

theorem consoleintr_spec (h : Rep x t.io.taken t.queue t.line) (hle : t.io.taken ≤ t.committed.length)
    (c : UInt8) : Rep (x.consoleintr c) (t.key c).io.taken (t.key c).queue (t.key c).line := by
  unfold Input.consoleintr Tty.key
  by_cases hP : c = ctrlP
  · rw [if_pos hP, if_pos (.inl hP)]
    exact h
  by_cases h0 : c = 0
  · subst h0
    exact h
  rw [if_neg hP, if_neg (not_or.mpr ⟨hP, h0⟩)]
  by_cases hU : c = ctrlU
  · rw [if_pos hU, if_pos hU]
    have hlen := h.length_le
    exact h.killLine (by omega)
  rw [if_neg hU, if_neg hU]
  by_cases hH : c = ctrlH ∨ c = del
  · rw [if_pos hH, if_pos hH]
    obtain hnil | ⟨line, d, hline⟩ := eq_nil_or_concat' t.line
    · rw [if_neg fun hne => hne (h.e_eq_w.mpr hnil)]
      rw [hnil] at h
      change Rep x t.io.taken t.queue t.line.dropLast
      rw [hnil]
      exact h
    · rw [hline] at h
      rw [if_pos fun he => by simpa using h.e_eq_w.mp he]
      change Rep _ t.io.taken t.queue t.line.dropLast
      rw [hline, dropLast_concat]
      exact h.backspace
  rw [if_neg hH, if_neg hH]
  have hheld : (x.e - x.r).toNat = t.held := h.e_sub_r
  by_cases hroom : t.held < INPUT_BUF
  · rw [if_pos ⟨h0, hheld ▸ hroom⟩, if_pos hroom]
    dsimp only
    generalize (if c = cr then newline else c) = d
    have hring := h.store hroom d
    have hfull : x.e + 1 = x.r + BitVec.ofNat 32 INPUT_BUF ↔ t.held + 1 = INPUT_BUF := by
      have := hring.isFull_iff INPUT_BUF_lt
      simp only [RingBuffer.isFull, beq_iff_eq, length_append, length_singleton] at this
      exact this
    by_cases hcommit : d = newline ∨ d = ctrlD ∨ t.held + 1 = INPUT_BUF
    · rw [if_pos (hcommit.imp_right (.imp_right hfull.mpr)), if_pos hcommit]
      refine ⟨?_, ?_, not_mem_nil⟩
      · change RingBuffer.Holds _ t.io.taken ((t.committed ++ (t.line ++ [d])).drop t.io.taken ++ [])
        rw [append_nil, queue_append hle]
        exact hring
      · change x.e + 1 = BitVec.ofNat 32 (t.io.taken + ((t.committed ++ (t.line ++ [d])).drop
          t.io.taken).length)
        rw [queue_append hle]
        exact hring.nwrite
    · rw [if_neg fun hc => hcommit (hc.imp_right (.imp_right hfull.mp)), if_neg hcommit]
      refine ⟨hring, h.w, fun hmem => ?_⟩
      obtain hmem | hmem := mem_append.mp hmem
      · exact h.line hmem
      · exact hcommit (.inl (mem_singleton.mp hmem).symm)
  · rw [if_neg fun hc => hroom (hheld ▸ hc.2), if_neg hroom]
    exact h

/-! ### Reads -/

namespace Rep

theorem get_r (h : Rep x taken (c :: q) line) : x.get x.r = c := h.ring.head dvd_INPUT_BUF

theorem advance (h : Rep x taken (c :: q) line) : Rep { x with r := x.r + 1 } (taken + 1) q line where
  ring := h.ring.tail
  w := by
    rw [h.w, length_cons]
    congr 1
    omega
  line := h.line

end Rep

theorem take_zero (q got : List UInt8) : Tty.take 0 q got = (.returns got, 0) := by
  simp [Tty.take, Tty.chunk]

theorem take_nil (k : ℕ) (got : List UInt8) :
    Tty.take (k + 1) [] got = (.sleeps (k + 1) got, 0) := by
  simp [Tty.take, Tty.chunk]

theorem take_ctrlD (k : ℕ) (q got : List UInt8) :
    Tty.take (k + 1) (ctrlD :: q) got = (.returns got, if got = [] then 1 else 0) := by
  simp [Tty.take, Tty.chunk]

theorem take_newline (k : ℕ) (q got : List UInt8) :
    Tty.take (k + 1) (newline :: q) got = (.returns (got ++ [newline]), 1) := by
  simp [Tty.take, Tty.chunk, show newline ≠ ctrlD by decide]

theorem take_cons (hD : c ≠ ctrlD) (hn : c ≠ newline) : Tty.take (k + 1) (c :: q) got =
      ((Tty.take k q (got ++ [c])).1, (Tty.take k q (got ++ [c])).2 + 1) := by
  have hchunk : Tty.chunk (k + 1) (c :: q) = c :: Tty.chunk k q := by
    rw [Tty.chunk, if_neg hD, if_neg hn]
  have hlast : (c :: Tty.chunk k q).getLast? = some newline ↔
      (Tty.chunk k q).getLast? = some newline := by
    cases hq : Tty.chunk k q with
    | nil => simpa using hn
    | cons d l => rw [getLast?_cons_cons]
  unfold Tty.take
  dsimp only
  rw [hchunk]
  simp only [hlast, length_cons, Nat.add_right_cancel_iff, append_assoc,
    singleton_append, Nat.add_sub_add_right]
  split_ifs with h1 h2 h3 <;> first | rfl | simp_all

theorem readLoop_spec (target k : ℕ) : ∀ {x : Input} {taken : ℕ} {q got : List UInt8},
    Rep x taken q line → got.length + k = target →
      (readLoop target k x got).1 = (Tty.take k q got).1 ∧
      Rep (readLoop target k x got).2 (taken + (Tty.take k q got).2) (q.drop (Tty.take k q got).2)
        line := by
  induction k with
  | zero =>
    intro x taken q got h _
    rw [take_zero]
    exact ⟨rfl, h⟩
  | succ k ih =>
    intro x taken q got h hk
    unfold readLoop
    cases q with
    | nil =>
      rw [if_pos (h.r_eq_w.mpr rfl), take_nil]
      exact ⟨rfl, h⟩
    | cons c q =>
      rw [if_neg fun he => cons_ne_nil c q (h.r_eq_w.mp he)]
      dsimp only
      rw [h.get_r]
      by_cases hD : c = ctrlD
      · subst hD
        rw [if_pos rfl, take_ctrlD]
        refine ⟨rfl, ?_⟩
        dsimp only
        cases got with
        | nil =>
          rw [length_nil] at hk
          rw [if_neg (by omega), if_pos rfl]
          exact h.advance
        | cons d got =>
          rw [length_cons] at hk
          rw [if_pos (by omega), if_neg (cons_ne_nil d got), BitVec.add_sub_cancel]
          exact h
      · rw [if_neg hD]
        by_cases hn : c = newline
        · subst hn
          rw [if_pos rfl, take_newline]
          exact ⟨rfl, h.advance⟩
        · rw [if_neg hn, take_cons hD hn]
          obtain ⟨hout, hrep⟩ := @ih _ _ q (got ++ [c]) h.advance (by simp; omega)
          refine ⟨hout, ?_⟩
          rw [add_assoc, add_comm 1] at hrep
          exact hrep

/-! ### What reads get -/

def Stops (k : ℕ) (q got : List UInt8) (m : ℕ) : ReadOut → Prop
  | .sleeps k' got' => got'.length + k' = got.length + k ∧ (q.take m).count ctrlD = 0
  | .returns got' => got'.length ≤ got.length + k ∧
      (q.take m).count ctrlD = (if 0 < got.length + k ∧ got' = [] then 1 else 0) ∧
      (got' = [] ∨ got'.length = got.length + k ∨ got'.getLast? = some newline ∨
        q[m]? = some ctrlD)

theorem data_cons (hD : c ≠ ctrlD) (l : List UInt8) : Tty.data (c :: l) = c :: Tty.data l := by
  simp [Tty.data, hD]

theorem take_spec (k : ℕ) : ∀ q got : List UInt8, (Tty.take k q got).2 ≤ q.length ∧
      (Tty.take k q got).1.bytes = got ++ Tty.data (q.take (Tty.take k q got).2) ∧
      Stops k q got (Tty.take k q got).2 (Tty.take k q got).1 := by
  induction k with
  | zero =>
    intro q got
    rw [take_zero]
    refine ⟨zero_le _, (append_nil _).symm, le_rfl, ?_, .inr (.inl rfl)⟩
    rw [if_neg fun hc => by simp [hc.2] at hc]
    rfl
  | succ k ih =>
    intro q got
    cases q with
    | nil =>
      rw [take_nil]
      exact ⟨le_rfl, (append_nil _).symm, rfl, rfl⟩
    | cons c q =>
      by_cases hD : c = ctrlD
      · subst hD
        rw [take_ctrlD]
        by_cases hgot : got = []
        · subst hgot
          exact ⟨succ_le_succ (zero_le _), rfl, zero_le _, rfl, .inl rfl⟩
        · rw [if_neg hgot]
          refine ⟨Nat.zero_le _, (append_nil _).symm, Nat.le_add_right .., ?_,
            .inr (.inr (.inr rfl))⟩
          rw [if_neg fun hc => hgot hc.2]
          rfl
      · by_cases hn : c = newline
        · subst hn
          rw [take_newline]
          refine ⟨succ_le_succ (zero_le _), rfl, by simp, ?_, .inr (.inr (.inl (by simp)))⟩
          rw [if_neg fun hc => by simp at hc]
          rfl
        · rw [take_cons hD hn]
          obtain ⟨hle, hbytes, hstops⟩ := ih q (got ++ [c])
          refine ⟨succ_le_succ hle, ?_, ?_⟩
          · rw [hbytes, take_succ_cons, data_cons hD, append_assoc]
            rfl
          · have hlen : (got ++ [c]).length + k = got.length + (k + 1) := by
              rw [length_append, length_singleton]
              omega
            have hcount : ∀ m, ((c :: q).take (m + 1)).count ctrlD = (q.take m).count ctrlD := by
              intro m
              rw [take_succ_cons, count_cons_of_ne (by simpa using hD)]
            dsimp only
            cases hout : (Tty.take k q (got ++ [c])).1 with
            | sleeps k' got' =>
              rw [hout] at hstops
              exact ⟨hstops.1.trans hlen, (hcount _).trans hstops.2⟩
            | returns got' =>
              rw [hout] at hstops
              unfold Stops at hstops ⊢
              rw [hlen] at hstops
              rw [hcount]
              exact hstops

/-! ### The input as lines -/

/-- What a read has returned: no ^D, and no more than it asked for. If it is something, but less and
without a newline, a ^D follows. -/
structure ResultOk (committed : List UInt8) (r : Result P) : Prop where
  noCtrlD : ctrlD ∉ r.bytes
  length_le : r.bytes.length ≤ r.size
  stop : r.bytes = [] ∨ r.bytes.length = r.size ∨ r.bytes.getLast? = some newline ∨
    committed[r.mark]? = some ctrlD

/-- The readers have had the committed input in order, and each ^D in it has been one read of no
bytes. -/
structure Sound (t : Tty P) : Prop where
  le : t.io.taken ≤ t.committed.length
  delivered : t.io.delivered = Tty.data (t.committed.take t.io.taken)
  eof : (t.committed.take t.io.taken).count ctrlD = t.io.results.countP (fun r => decide r.AtEof)
  results : ∀ r ∈ t.io.results, ResultOk t.committed r
  asleep : ∀ p rd, t.io.asleep p = some rd → rd.got.length + rd.k = rd.target ∧ ctrlD ∉ rd.got

theorem sound_empty : Sound (Tty.empty : Tty P) where
  le := le_rfl
  delivered := rfl
  eof := rfl
  results := nofun
  asleep := nofun

theorem ResultOk.append {l : List UInt8} {r : Result P} (h : ResultOk l r) (l' : List UInt8) :
    ResultOk (l ++ l') r where
  noCtrlD := h.noCtrlD
  length_le := h.length_le
  stop := by
    obtain h' | h' | h' | h' := h.stop
    · exact .inl h'
    · exact .inr (.inl h')
    · exact .inr (.inr (.inl h'))
    · refine .inr (.inr (.inr ?_))
      rw [List.getElem?_append_left (List.getElem?_eq_some_iff.mp h').1]
      exact h'

theorem key_cases (t : Tty P) (c : UInt8) :
    (t.key c).io = t.io ∧ ∃ l, (t.key c).committed = t.committed ++ l := by
  unfold Tty.key
  dsimp only
  split_ifs
  any_goals exact ⟨rfl, [], (append_nil _).symm⟩
  all_goals exact ⟨rfl, _, rfl⟩

theorem Sound.key (h : Sound t) (c : UInt8) : Sound (t.key c) := by
  obtain ⟨hio, l, hl⟩ := key_cases t c
  have htake : (t.committed ++ l).take t.io.taken = t.committed.take t.io.taken :=
    take_append_of_le_length h.le
  refine ⟨?_, ?_, ?_, ?_, ?_⟩
  · rw [hio, hl, length_append]
    exact h.le.trans (Nat.le_add_right ..)
  · rw [hio, hl, htake]
    exact h.delivered
  · rw [hio, hl, htake]
    exact h.eof
  · rw [hio, hl]
    exact fun r hr => (h.results r hr).append l
  · rw [hio]
    exact h.asleep

structure Refines (s : System P) (t : Tty P) : Prop where
  rep : Rep s.input t.io.taken t.queue t.line
  io : s.io = t.io
  sound : Sound t

theorem refines_init (buf : Fin INPUT_BUF → UInt8) : Refines (System.init buf : System P) Tty.empty :=
  ⟨⟨RingBuffer.holds_nil buf, rfl, not_mem_nil⟩, rfl, sound_empty⟩

variable [DecidableEq P] {p : P} {rd : Reader}

theorem not_mem_data (l : List UInt8) : ctrlD ∉ Tty.data l := by
  simp [Tty.data]

theorem asleep_update {asleep : P → Option Reader} {o : Option Reader} {q : P}
    (h : update asleep p o q = some rd) : q = p ∧ o = some rd ∨ asleep q = some rd := by
  by_cases hq : q = p
  · subst hq
    rw [update_self] at h
    exact .inl ⟨rfl, h⟩
  · rw [update_of_ne hq] at h
    exact .inr h

theorem Sound.read (h : Sound t) (hrd : rd.got.length + rd.k = rd.target) (hgot : ctrlD ∉ rd.got) :
    Sound (t.read p rd) := by
  obtain ⟨hm, hbytes, hstops⟩ := take_spec rd.k t.queue rd.got
  unfold Tty.read
  dsimp only
  generalize Tty.take rd.k t.queue rd.got = om at hm hbytes hstops ⊢
  obtain ⟨o, m⟩ := om
  dsimp only at hm hbytes hstops ⊢
  have hle : t.io.taken + m ≤ t.committed.length := by
    have := h.le
    rw [Tty.queue, length_drop] at hm
    omega
  have htake : t.committed.take (t.io.taken + m) = t.committed.take t.io.taken ++ t.queue.take m :=
    take_add
  have hnew : ctrlD ∉ o.bytes := by
    rw [hbytes]
    exact fun hmem => (mem_append.mp hmem).elim hgot (not_mem_data _)
  have hdelivered : t.io.delivered ++ o.bytes.drop rd.got.length =
      Tty.data (t.committed.take (t.io.taken + m)) := by
    rw [htake, hbytes, drop_left, h.delivered, Tty.data, Tty.data, Tty.data, filter_append]
  have hnext : t.committed[t.io.taken + m]? = t.queue[m]? := by
    rw [Tty.queue, getElem?_drop]
  cases o with
  | sleeps k got =>
    obtain ⟨hlen, hcount⟩ := hstops
    refine ⟨hle, hdelivered, ?_, h.results, fun q rd' hq => ?_⟩
    · change (t.committed.take (t.io.taken + m)).count ctrlD = _
      rw [htake, count_append, hcount, add_zero]
      exact h.eof
    · obtain ⟨-, hsome⟩ | hq := asleep_update hq
      · cases hsome
        exact ⟨hlen.trans hrd, hnew⟩
      · exact h.asleep q rd' hq
  | returns got =>
    obtain ⟨hlen, hcount, hstop⟩ := hstops
    rw [hrd] at hlen hcount hstop
    refine ⟨hle, hdelivered, ?_, fun r hr => ?_, fun q rd' hq => ?_⟩
    · change (t.committed.take (t.io.taken + m)).count ctrlD = (t.io.results ++ [_]).countP _
      rw [htake, count_append, countP_append, h.eof, hcount, countP_singleton]
      congr 1
      exact if_congr decide_eq_true_iff.symm rfl rfl
    · obtain hr | hr := mem_append.mp hr
      · exact h.results r hr
      · obtain rfl := mem_singleton.mp hr
        refine ⟨hnew, hlen, ?_⟩
        dsimp only
        rw [hnext]
        exact hstop
    · obtain ⟨-, hnone⟩ | hq := asleep_update hq
      · cases hnone
      · exact h.asleep q rd' hq

/-! ### Whole runs -/

theorem Refines.read {s : System P} (h : Refines s t) (hrd : rd.got.length + rd.k = rd.target)
    (hgot : ctrlD ∉ rd.got) : Refines (s.read p rd) (t.read p rd) := by
  obtain ⟨hout, hrep⟩ := readLoop_spec rd.target rd.k h.rep hrd
  obtain ⟨hm, -, -⟩ := take_spec rd.k t.queue rd.got
  have hio : (s.read p rd).io = (t.read p rd).io := by
    have hdist : ((readLoop rd.target rd.k s.input rd.got).2.r - s.input.r).toNat =
        (Tty.take rd.k t.queue rd.got).2 := by
      have hle := h.rep.length_le
      have hlt := INPUT_BUF_lt
      have hr : s.input.r = BitVec.ofNat 32 t.io.taken := h.rep.ring.nread
      have hr' : (readLoop rd.target rd.k s.input rd.got).2.r =
          BitVec.ofNat 32 (t.io.taken + (Tty.take rd.k t.queue rd.got).2) := hrep.ring.nread
      rw [hr, hr']
      exact RingBuffer.toNat_ofNat_add_sub _ (by omega)
    change s.io.record p rd _ _ = t.io.record p rd _ _
    rw [hdist, hout, h.io]
  refine ⟨?_, hio, h.sound.read hrd hgot⟩
  have htaken : (t.read p rd).io.taken = t.io.taken + (Tty.take rd.k t.queue rd.got).2 := by
    change (t.io.record p rd _ _).taken = _
    unfold Readers.record
    split <;> rfl
  rw [Tty.queue, htaken]
  rw [Tty.queue, drop_drop] at hrep
  exact hrep

theorem Refines.step {s s' : System P} {a : Act P} (h : Refines s t)
    (hstep : s.step a = some s') : ∃ t', t.step a = some t' ∧ Refines s' t' := by
  cases a with
  | key c =>
    obtain rfl := Option.some.inj hstep
    exact ⟨t.key c, rfl, consoleintr_spec h.rep h.sound.le c, h.io.trans (key_cases t c).1.symm,
      h.sound.key c⟩
  | call p n =>
    simp only [System.step] at hstep
    split_ifs at hstep with hnone
    obtain rfl := Option.some.inj hstep
    rw [h.io] at hnone
    refine ⟨t.read p ⟨n.toNat, n.toNat, []⟩, if_pos hnone, h.read ?_ not_mem_nil⟩
    exact zero_add _
  | wake p =>
    obtain ⟨rd, hrd, rfl⟩ := Option.map_eq_some_iff.mp hstep
    rw [h.io] at hrd
    obtain ⟨hlen, hgot⟩ := h.sound.asleep p rd hrd
    exact ⟨t.read p rd, congrArg (Option.map (t.read p)) hrd, h.read hlen hgot⟩

theorem Refines.run {s s' : System P} {acts : List (Act P)} {C : System P → Act P → Prop}
    (hrun : Run System.step C s acts s') (h : Refines s t) :
    ∃ t', Run Tty.step Any t acts t' ∧ Refines s' t' := by
  induction hrun with
  | nil => exact ⟨t, .nil t, h⟩
  | snoc _ _ hstep ih =>
    obtain ⟨t1, hrun1, h₁⟩ := ih
    obtain ⟨t2, hstep2, h₂⟩ := h₁.step hstep
    exact ⟨t2, .snoc hrun1 trivial hstep2, h₂⟩

def Serial (io : Readers P) : Prop :=
  (∀ q, io.asleep q = none) ∧ io.results.flatMap (·.bytes) = io.delivered ∨
    ∃ p rd, io.asleep p = some rd ∧ (∀ q, q ≠ p → io.asleep q = none) ∧
      io.results.flatMap (·.bytes) ++ rd.got = io.delivered

theorem Serial.record {io : Readers P} {o : ReadOut} {m : ℕ} (hgot : rd.got <+: o.bytes)
    (hdel : io.results.flatMap (·.bytes) ++ rd.got = io.delivered)
    (hothers : ∀ q, q ≠ p → io.asleep q = none) : Serial (io.record p rd o m) := by
  obtain ⟨new, hnew⟩ := hgot
  have hdrop : io.delivered ++ o.bytes.drop rd.got.length =
      io.results.flatMap (·.bytes) ++ o.bytes := by
    rw [← hnew, drop_left, ← hdel, append_assoc]
  cases o with
  | sleeps k got =>
    refine .inr ⟨p, ⟨rd.target, k, got⟩, update_self .., fun q hq => ?_, hdrop.symm⟩
    exact (update_of_ne hq ..).trans (hothers q hq)
  | returns got =>
    refine .inl ⟨fun q => ?_, ?_⟩
    · by_cases hq : q = p
      · subst hq
        exact update_self ..
      · exact (update_of_ne hq ..).trans (hothers q hq)
    · change (io.results ++ [_]).flatMap Result.bytes = _
      rw [flatMap_append, flatMap_singleton]
      exact hdrop.symm

theorem Serial.step {s s' : System P} {a : Act P} (h : Serial s.io) (hr : Refines s t)
    (halone : s.Alone a) (hstep : s.step a = some s') : Serial s'.io := by
  have prefixed : ∀ rd : Reader, rd.got.length + rd.k = rd.target →
      rd.got <+: (readLoop rd.target rd.k s.input rd.got).1.bytes := by
    intro rd hrd
    rw [(readLoop_spec rd.target rd.k hr.rep hrd).1, (take_spec rd.k t.queue rd.got).2.1]
    exact prefix_append ..
  cases a with
  | key c =>
    obtain rfl := Option.some.inj hstep
    exact h
  | call p n =>
    simp only [System.step] at hstep
    split_ifs at hstep
    obtain rfl := Option.some.inj hstep
    have hnone : ∀ q, s.io.asleep q = none := halone
    obtain ⟨-, hdel⟩ | ⟨q, rd, hq, -⟩ := h
    · exact Serial.record (prefixed _ (zero_add _)) ((append_nil _).trans hdel)
        fun q _ => hnone q
    · rw [hnone q] at hq
      cases hq
  | wake p =>
    obtain ⟨rd, hrd, rfl⟩ := Option.map_eq_some_iff.mp hstep
    obtain ⟨hnone, -⟩ | ⟨q, rd', hq, hothers, hdel⟩ := h
    · rw [hnone p] at hrd
      cases hrd
    · have hqp : p = q := by
        by_contra hne
        rw [hothers p hne] at hrd
        cases hrd
      subst hqp
      obtain rfl : rd = rd' := Option.some.inj (hrd.symm.trans hq)
      have hlen := (hr.sound.asleep p rd (hr.io ▸ hrd)).1
      exact Serial.record (prefixed rd hlen) hdel hothers

/-- Console input, for any characters and any reads. The indices keep their order. The bytes that the
readers get, in the order in which they are taken from the buffer, are those of the committed input
without the ^D's, as far as it has been taken. A ^D is never among them: each one that has been taken
made one read return no bytes, and a read that stops short of its size and of a newline stops before a
^D. If no two reads overlap, what they return one after the other is a first part of the committed
input. -/
theorem console_lines (buf : Fin INPUT_BUF → UInt8) {acts : List (Act P)} {s : System P}
    (hrun : Trans.Run System.step Trans.Any (System.init buf) acts s) :
    (s.input.w - s.input.r).toNat ≤ (s.input.e - s.input.r).toNat ∧
    (s.input.e - s.input.r).toNat ≤ INPUT_BUF ∧
    ∃ t : Tty P, Trans.Run Tty.step Trans.Any Tty.empty acts t ∧ s.io = t.io ∧
      t.io.taken ≤ t.committed.length ∧
      s.io.delivered = Tty.data (t.committed.take t.io.taken) ∧
      (t.committed.take t.io.taken).count ctrlD = s.io.results.countP (fun r => decide r.AtEof) ∧
      (∀ r ∈ s.io.results, ctrlD ∉ r.bytes ∧ r.bytes.length ≤ r.size ∧
        (r.bytes = [] ∨ r.bytes.length = r.size ∨ r.bytes.getLast? = some newline ∨
          t.committed[r.mark]? = some ctrlD)) ∧
      (Trans.Run System.step System.Alone (System.init buf) acts s →
        s.io.results.flatMap (·.bytes) <+: Tty.data t.committed) := by
  obtain ⟨t, htty, href⟩ := Refines.run hrun (refines_init buf)
  have hsound := href.sound
  have hio := href.io
  refine ⟨?_, ?_, t, htty, hio, hsound.le, hio ▸ hsound.delivered, hio ▸ hsound.eof, ?_, ?_⟩
  · rw [href.rep.w_sub_r, href.rep.e_sub_r]
    exact Nat.le_add_right ..
  · rw [href.rep.e_sub_r]
    exact href.rep.length_le
  · intro r hr
    obtain ⟨hno, hlen, hstop⟩ := hsound.results r (hio ▸ hr)
    exact ⟨hno, hlen, hstop⟩
  · intro halone
    have hserial : ∃ t, Refines s t ∧ Serial s.io := by
      refine halone.induct (I := fun s => ∃ t, Refines s t ∧ Serial s.io)
        ⟨_, refines_init buf, .inl ⟨fun _ => rfl, rfl⟩⟩ fun s a s' hs hC hstep => ?_
      obtain ⟨t, ht, hser⟩ := hs
      obtain ⟨t', -, ht'⟩ := ht.step hstep
      exact ⟨t', ht', hser.step ht hC hstep⟩
    obtain ⟨-, -, hser⟩ := hserial
    have hdata : s.io.delivered <+: Tty.data t.committed := by
      rw [hio, hsound.delivered]
      exact ( take_prefix ..).filter _
    obtain ⟨-, hdel⟩ | ⟨p, rd, -, -, hdel⟩ := hser
    · rw [hdel]
      exact hdata
    · rw [← hdel] at hdata
      exact (prefix_append ..).trans hdata

def lineAndEof : List (Act Unit) :=
  [.key 104, .key 105, .key ctrlH, .key cr, .key ctrlD, .call () 10, .call () 10]

theorem console_lines_lineAndEof : ∃ s : System Unit,
    Trans.Run System.step Trans.Any (System.init fun _ => 0) lineAndEof s ∧
    s.io.results.map (·.bytes) = [[104, newline], []] ∧ (s.input.e - s.input.r).toNat ≤ INPUT_BUF := by
  obtain ⟨s, hrun, hs⟩ : ∃ s : System Unit,
      Run System.step Any (System.init fun _ => 0) lineAndEof s ∧
        decide (s.io.results.map (·.bytes) = [[104, newline], []]) = true :=
    Run.of_exec_any (c := fun _ _ => true) (fun _ _ _ => trivial) (by decide +kernel)
  exact ⟨s, hrun, of_decide_eq_true hs, (console_lines _ hrun).2.1⟩

/-- One process has taken a full buffer without a newline and waits for more; another one reads the
line that comes next. -/
def twoReaders : List (Act Bool) :=
  replicate 128 (.key 97) ++
    [.call true 200, .key 98, .key newline, .call false 10, .key 99, .key newline, .wake true]

/-- What two overlapping reads return is not a first part of the input, in neither order. -/
theorem overlapping_reads : ∃ (s : System Bool) (t : Tty Bool),
    Trans.Run System.step Trans.Any (System.init fun _ => 0) twoReaders s ∧
    Trans.Run Tty.step Trans.Any Tty.empty twoReaders t ∧
    ¬s.io.results.flatMap (·.bytes) <+: Tty.data t.committed ∧
    ¬s.io.results.reverse.flatMap (·.bytes) <+: Tty.data t.committed := by
  obtain ⟨s, hrun, hs⟩ : ∃ s : System Bool,
      Run System.step Any (System.init fun _ => 0) twoReaders s ∧
        decide (s.io.results.map (·.bytes) =
          [[98, newline], replicate 128 97 ++ [99, newline]]) = true :=
    Run.of_exec_any (c := fun _ _ => true) (fun _ _ _ => trivial) (by decide +kernel)
  obtain ⟨t, htty, ht⟩ : ∃ t : Tty Bool,
      Run Tty.step Any Tty.empty twoReaders t ∧
        decide (t.committed = replicate 128 97 ++ [98, newline, 99, newline]) = true :=
    Run.of_exec_any (c := fun _ _ => true) (fun _ _ _ => trivial) (by decide +kernel)
  refine ⟨s, t, hrun, htty, ?_, ?_⟩
  · rw [flatMap_def, of_decide_eq_true hs, of_decide_eq_true ht]
    decide +kernel
  · rw [flatMap_def, map_reverse, of_decide_eq_true hs, of_decide_eq_true ht]
    decide +kernel

end Xv6.Console
