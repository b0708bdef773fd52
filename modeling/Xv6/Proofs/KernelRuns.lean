import Xv6.Proofs.BlockStorage
import Xv6.Proofs.ProcessCalls

/-! Whole runs of the kernel: any number of processes, any system calls, any interleaving. -/

open Function

namespace Xv6

open Kernel

variable {T : Type} {n : ℕ} {r : Rules T n} {p : Fin n} {S : Storage T} {k : Kernel T n} {c : Call n}
  {x : Option (Call n)}

/-! ### The start and the end of a call -/

theorem view_setCall_ne {q : Fin n} (hq : q ≠ p) (x : Option (Call n)) :
    (k.setCall p x).view q = k.view q := by
  simp only [view, View.mk.injEq]
  exact ⟨update_of_ne hq .., rfl, rfl, rfl, rfl, rfl, rfl⟩

theorem call_setCall_ne {q : Fin n} (hq : q ≠ p) :
    (k.setCall p x).call q = k.call q := update_of_ne hq ..

theorem rest_setCall (h : (k.view p).Rest r) (x : Option (Call n)) : ((k.setCall p x).view p).Rest r :=
  ⟨h.depth, h.locked, h.fref, h.typed, h.iref⟩

theorem Kernel.Ok.setCall (h : Ok r k) (hrest : x = none → (k.view p).Rest r) :
    Ok r (k.setCall p x) := by
  have hself : (k.setCall p x).call p = x := update_self ..
  constructor
  case ref => exact h.ref
  case file_ref => exact h.file_ref
  case fref => exact h.fref
  case closed => exact h.closed
  case fresh => exact h.fresh
  case outstanding => exact h.outstanding
  case committing => exact h.committing
  case rest =>
    intro q hq
    by_cases hqp : q = p
    · subst hqp
      exact rest_setCall (hrest (hself.symm.trans hq)) x
    · rw [call_setCall_ne hqp] at hq
      rw [view_setCall_ne hqp]
      exact h.rest q hq
  case inOp => exact h.inOp
  case locked => exact h.locked

theorem safe_serve (hS : S.Tame) (hback : r.inOp → r.Backed S) (h : Ok r k) (hidle : k.call p = none)
    (hadm : c.Admitted r) :
    Prog.Safe (protocol r) p (serve S p c) (Conc.Ends (protocol r) p) (fun e _ s => Halts r e s) k k := by
  have hself : (k.setCall p (some c)).call p = some c := update_self ..
  have hbody := obeys_body (p := p) hS hback (rest_setCall (h.rest p hidle) (some c)) hself hadm k
    (k.setCall p (some c)) (h.setCall nofun) (spares_of_view fun q hq => view_setCall_ne hq _) rfl
    (by
      change (k.setCall p (some c)).call p ≠ none
      rw [hself]
      exact nofun)
  change Prog.Safe (protocol r) p (body S p c >>= fun _ => Prog.modify fun k => k.setCall p none) _ _ k
    (k.setCall p (some c))
  refine Prog.Safe.bind hbody fun _ k1 k' hk' => ?_
  obtain ⟨hok, hsp, -, hrest⟩ := hk'
  exact ⟨hok.setCall fun _ => hrest, hsp.trans (spares_of_view fun q hq => view_setCall_ne hq _),
    update_self ..⟩

/-! ### Runs -/

theorem cwds_eq_sum (k : Kernel T n) (ip : Ptr) :
    (k.cwds ip : ℤ) = ∑ p, if (k.proc p).cwd = some ip then 1 else 0 :=
  (Finset.sum_boole ..).symm

theorem Kernel.Start.ok (h : Start k) : Ok r k := by
  constructor
  case ref =>
    intro ip
    rw [h.ref, cwds_eq_sum]
    simp only [h.iref]
  case file_ref =>
    intro f
    rw [h.file_ref]
    simp only [h.fref]
  case fref =>
    intro p f
    rw [h.fref]
    exact Int.natCast_nonneg _
  case closed => exact fun f hf => (h.closed f).mpr hf
  case fresh =>
    intro f hf
    rw [(h.closed f).mp hf]
    exact zero_le_one
  case outstanding => simp [h.outstanding, h.depth]
  case committing => exact h.committing
  case rest =>
    intro p _
    refine ⟨h.depth p, fun ip => ?_, h.fref p, fun fd f hfd => ?_, fun _ => h.iref p⟩
    · simp [view, h.lock ip]
    · have hpos : 0 < k.fref p f := by
        rw [h.fref]
        exact_mod_cast fds_pos hfd
      refine ⟨_, _, view_file hpos, fun htype => ?_⟩
      -- a file with a descriptor has a reference
      have hzero := (h.closed f).mp htype
      have hle := Finset.single_le_sum (f := fun q => ((k.proc q).fds f : ℤ))
        (fun q _ => Int.natCast_nonneg _) (Finset.mem_univ p)
      rw [h.fref] at hpos
      rw [h.file_ref] at hzero
      omega
  case inOp =>
    intro _ e he
    rw [h.events] at he
    cases he
  case locked =>
    intro _ e he
    rw [h.events] at he
    cases he

variable {C : Conc (Fin n) (Kernel T n) Stop → Sched (Fin n) (Call n) → Prop}
  {acts : List (Sched (Fin n) (Call n))} {s : Conc (Fin n) (Kernel T n) Stop}

theorem Kernel.Start.run (h : Start k) (hrun : Runs S C k acts s) (hS : S.Tame)
    (hback : r.inOp → r.Backed S) (hgiven : ∀ s a, C s a → r.given s.shared)
    (hadm : ∀ s p c, C s (.call p c) → c.Admitted r) :
    Conc.Good (protocol r) (fun e k => Halts r e k) s := by
  refine Conc.Good.run hrun (Conc.good_init h.ok h.call) hgiven fun s p c hinv hidle _ hC => ?_
  exact safe_serve hS hback hinv hidle (hadm s p c hC)

theorem Kernel.Start.run_ok (hg : Conc.Good (protocol r) (fun e k => Halts r e k) s) :
    Ok r s.shared := by
  cases hh : s.halted with
  | none => exact hg.inv hh
  | some e => exact (hg.halt e hh).1

end Xv6
