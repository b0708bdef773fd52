import Xv6.Spec.Mp

/-! When the scan of the configuration table ends. -/

namespace Xv6.Mp

variable {mem : Memory} {mp : Floating} {conf : ℕ} {s : Scan}

def known : List UInt8 := [MPPROC, MPBUS, MPIOAPIC, MPIOINTR, MPLINTR]

def next (mem : Memory) (p : ℕ) : ℕ := (entry mem ⟨p, true, [], 0⟩).p

def EntryAt (mem : Memory) (conf p : ℕ) : Prop := ∃ j, (next mem)^[j] (conf + MPCONFSIZE) = p

theorem entry_p (mem : Memory) (s : Scan) : (entry mem s).p = next mem s.p := by
  unfold next entry
  split_ifs <;> rfl

theorem entry_known (h : mem s.p ∈ known) :
    s.p < (entry mem s).p ∧ (entry mem s).ismp = s.ismp := by
  simp only [known, List.mem_cons, List.not_mem_nil, or_false] at h
  rcases h with h | h | h | h | h <;> simp [entry, h, MPPROC, MPBUS, MPIOAPIC, MPIOINTR, MPLINTR,
    MPPROCSIZE, MPIOAPICSIZE]

theorem entry_unknown (h : mem s.p ∉ known) : (entry mem s).p = s.p := by
  simp only [known, List.mem_cons, List.not_mem_nil, or_false, not_or] at h
  obtain ⟨h1, h2, h3, h4, h5⟩ := h
  simp [entry, h1, h2, h3, h4, h5]

theorem le_next_iterate (mem : Memory) (p j : ℕ) : p ≤ (next mem)^[j] p := by
  induction j generalizing p with
  | zero => exact le_rfl
  | succ j ih =>
    refine le_trans ?_ (ih (next mem p))
    by_cases hk : mem p ∈ known
    · exact (entry_known (s := ⟨p, true, [], 0⟩) hk).1.le
    · exact (entry_unknown (s := ⟨p, true, [], 0⟩) hk).ge

theorem EntryAt.le {p : ℕ} (h : EntryAt mem conf p) : conf + MPCONFSIZE ≤ p := by
  obtain ⟨j, rfl⟩ := h
  exact le_next_iterate mem _ j

/-- A scan that reaches an entry of another type before the end of the table stays there. -/
theorem run_stuck {e p : ℕ} (hp : p < e) (hunknown : mem p ∉ known) (k : ℕ) (s : Scan)
    (hs : ∃ j, (next mem)^[j] s.p = p) :
    While.run (fun s => s.p < e) (fun s => some (entry mem s)) k s = none := by
  refine While.run_diverges (I := fun s : Scan => ∃ j, (next mem)^[j] s.p = p) ?_ ?_ k hs
  · rintro s ⟨j, hj⟩
    exact decide_eq_true ((le_next_iterate mem s.p j).trans_lt (hj ▸ hp))
  · rintro s s' ⟨j, hj⟩ hs'
    obtain rfl := Option.some.inj hs'
    cases j with
    | zero =>
      obtain rfl : s.p = p := hj
      exact ⟨0, entry_unknown hunknown⟩
    | succ j => exact ⟨j, by rwa [entry_p]⟩

/-- The scan ends, with the table consumed or in the panic for an unsuitable machine. -/
def ScanEnds (mem : Memory) (mp : Floating) (conf : ℕ) : Prop := ∃ k,
  (∃ s imcr, mpinit k mem (some mp) = some (.ok (s, imcr)) ∧ conf + confLength mem conf ≤ s.p) ∨
    mpinit k mem (some mp) = some (.error .notSuitable)

/-- The loop of `mpinit` ends exactly when the type of every entry up to the end of the table is one
of the five. -/
theorem mpinit_ends (hconf : mpconfig mem (some mp) = some conf) : ScanEnds mem mp conf ↔
    ∀ p, EntryAt mem conf p → p < conf + confLength mem conf → mem p ∈ known := by
  set e := conf + confLength mem conf with he
  constructor
  · rintro ⟨k, hk⟩ p hp hlt
    by_contra hunknown
    have hrun := run_stuck hlt hunknown k ⟨conf + MPCONFSIZE, true, [], 0⟩ hp
    have hnone : mpinit k mem (some mp) = none := by
      simp only [mpinit, hconf, ← he, hrun, Option.bind_eq_bind, Option.bind_none]
    rw [hnone] at hk
    simp at hk
  · intro hknown
    have hround : ∀ s : Scan, (EntryAt mem conf s.p ∧ s.ismp = true) → decide (s.p < e) = true →
        ∃ s', some (entry mem s) = some s' ∧ (EntryAt mem conf s'.p ∧ s'.ismp = true) ∧
          e - s'.p < e - s.p := by
      rintro s ⟨⟨j, hj⟩, hs⟩ hc
      have hlt : s.p < e := of_decide_eq_true hc
      obtain ⟨hp, hm⟩ := entry_known (hknown s.p ⟨j, hj⟩ hlt)
      refine ⟨_, rfl, ⟨⟨j + 1, ?_⟩, hm.trans hs⟩, by omega⟩
      rw [Function.iterate_succ_apply', hj, entry_p]
    obtain ⟨s, hrun, -, hismp⟩ := While.run_ends (fun s : Scan => e - s.p) hround
      (s := ⟨conf + MPCONFSIZE, true, [], 0⟩) ⟨⟨0, rfl⟩, rfl⟩ le_rfl
    obtain ⟨-, hend⟩ :=
      While.run_invariant (I := fun _ => True) (fun _ _ _ _ _ => trivial) hrun trivial
    refine ⟨e - (conf + MPCONFSIZE), .inl ⟨s, mp.imcrp ≠ 0, ?_, not_lt.mp (of_decide_eq_false hend)⟩⟩
    simp only [mpinit, hconf, ← he, hrun, Option.bind_eq_bind, Option.bind_some, hismp, if_true]

def oneEntry (t : UInt8) : Memory := fun a =>
  match a with
  | 4096 => 80 | 4097 => 67 | 4098 => 77 | 4099 => 80
  | 4100 => 45
  | 4102 => 4
  | 4103 => 159 - t
  | 4140 => t
  | _ => 0

theorem mpinit_ends_oneEntry : ScanEnds (oneEntry MPBUS) ⟨4096, 0⟩ 4096 := by
  have hconf : mpconfig (oneEntry MPBUS) (some ⟨4096, 0⟩) = some 4096 := by decide +kernel
  have hlen : confLength (oneEntry MPBUS) 4096 = 45 := by decide +kernel
  refine (mpinit_ends hconf).mpr fun p hp hlt => ?_
  have hle : 4140 ≤ p := hp.le
  obtain rfl : p = 4140 := by omega
  decide +kernel

/-- An entry of type 5 stops the cursor, and the loop does not end. -/
theorem mpinit_unknown_entry : mpconfig (oneEntry 5) (some ⟨4096, 0⟩) = some 4096 ∧
    ∀ k, mpinit k (oneEntry 5) (some ⟨4096, 0⟩) = none := by
  have hconf : mpconfig (oneEntry 5) (some ⟨4096, 0⟩) = some 4096 := by decide +kernel
  have hlen : confLength (oneEntry 5) 4096 = 45 := by decide +kernel
  have hunknown : oneEntry 5 4140 ∉ known := by decide +kernel
  refine ⟨hconf, fun k => ?_⟩
  have hrun := run_stuck (e := 4096 + 45) (by decide) hunknown k
    ⟨4096 + MPCONFSIZE, true, [], 0⟩ ⟨0, rfl⟩
  simp only [mpinit, hconf, hlen, hrun]
  rfl

end Xv6.Mp
