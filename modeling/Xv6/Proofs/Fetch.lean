import Xv6.Spec.Fetch

/-! The arguments of a system call are in the memory of the process. -/

namespace Xv6.Fetch

variable {p : Proc} {n size : Word} {α : Type} {P : α → Prop}

def Within (p : Proc) (P : α → Prop) (r : Fetched α) : Prop :=
  (∀ x ∈ r.2, x < p.sz.toNat) ∧ ∀ v, r.1 = some v → P v

structure StringAt (p : Proc) (a k : ℕ) : Prop where
  below : a + k + 1 ≤ p.sz.toNat
  nonzero : ∀ i < k, p.mem (a + i) ≠ 0
  nul : p.mem (a + k) = 0

theorem fetchint_within (hsz : p.sz.toNat < KERNBASE) (addr : Word) :
    Within p (fun _ => addr.toNat + 4 ≤ p.sz.toNat) (fetchint p addr) := by
  unfold KERNBASE at hsz
  unfold fetchint
  split_ifs with hc
  · exact ⟨nofun, nofun⟩
  · have hle : addr.toNat + 4 ≤ p.sz.toNat := by bv_omega
    refine ⟨fun x hx => ?_, fun _ _ => hle⟩
    obtain ⟨i, hi, rfl⟩ := List.mem_map.mp hx
    have := List.mem_range.mp hi
    omega

theorem scan_within (pp m s : ℕ) (reads : List ℕ) (hs : pp ≤ s) (hm : s + m = p.sz.toNat)
    (hreads : ∀ x ∈ reads, x < p.sz.toNat) (hbefore : ∀ i, pp + i < s → p.mem (pp + i) ≠ 0) :
    Within p (StringAt p pp) (scan p pp m s reads) := by
  induction m generalizing s reads with
  | zero => exact ⟨hreads, nofun⟩
  | succ m ih =>
    have hreads' : ∀ x ∈ reads ++ [s], x < p.sz.toNat := by
      intro x hx
      rcases List.mem_append.mp hx with hx | hx
      · exact hreads x hx
      · rw [List.mem_singleton.mp hx]
        omega
    unfold scan
    by_cases h0 : p.mem s = 0
    · rw [if_pos h0]
      refine ⟨hreads', fun k hk => ?_⟩
      obtain rfl := Option.some.inj hk
      have hsum : pp + (s - pp) = s := by omega
      exact ⟨by omega, fun i hi => hbefore i (by omega), by rw [hsum, h0]⟩
    · rw [if_neg h0]
      refine ih (s + 1) _ (by omega) (by omega) hreads' fun i hi => ?_
      rcases Nat.lt_succ_iff_lt_or_eq.mp hi with hi | hi
      · exact hbefore i hi
      · rwa [hi]

theorem fetchstr_within (p : Proc) (addr : Word) :
    Within p (fun r => StringAt p r.1.toNat r.2) (fetchstr p addr) := by
  unfold fetchstr
  split_ifs with hc
  · exact ⟨nofun, nofun⟩
  · have hsum : addr.toNat + (p.sz.toNat - addr.toNat) = p.sz.toNat := by bv_omega
    obtain ⟨hreads, hstr⟩ := scan_within addr.toNat _ addr.toNat [] le_rfl hsum nofun
      fun i hi => by omega
    refine ⟨hreads, fun r hr => ?_⟩
    obtain ⟨k, hk, rfl⟩ := Option.map_eq_some_iff.mp hr
    exact hstr k hk

/-- Whatever the stack pointer, the index and the size are, nothing at or above `sz` is read, and
what is returned lies below `sz`: the four bytes of an `int`, the block at a pointer, and a string
with its NUL. -/
theorem arguments_confined {p : Proc} (hsz : p.sz.toNat < KERNBASE) (n size addr : Word) :
    Within p (fun _ => addr.toNat + 4 ≤ p.sz.toNat) (fetchint p addr) ∧
      Within p (fun _ => (p.esp + 4 + 4 * n).toNat + 4 ≤ p.sz.toNat) (argint p n) ∧
      Within p (fun a => 0 ≤ size.toInt ∧ a.toNat + size.toNat ≤ p.sz.toNat) (argptr p n size) ∧
      Within p (fun r => StringAt p r.1.toNat r.2) (fetchstr p addr) ∧
      Within p (fun r => StringAt p r.1.toNat r.2) (argstr p n) := by
  have hint : Within p (fun _ => (p.esp + 4 + 4 * n).toNat + 4 ≤ p.sz.toNat) (argint p n) :=
    fetchint_within hsz _
  refine ⟨fetchint_within hsz addr, hint, ?_, fetchstr_within p addr, ?_⟩
  · unfold argptr
    rcases hargint : argint p n with ⟨_ | i, reads⟩
    · exact ⟨(hargint ▸ hint).1, nofun⟩
    · dsimp only
      split_ifs with hc
      · exact ⟨(hargint ▸ hint).1, nofun⟩
      · refine ⟨(hargint ▸ hint).1, fun a ha => ?_⟩
        obtain rfl := Option.some.inj ha
        obtain ⟨hsigned, hlt, hle⟩ := not_or.mp hc |>.imp_right not_or.mp
        have hnonneg : 0 ≤ size.toInt := by simpa [BitVec.slt] using hsigned
        -- both are below 2^31, so their sum does not wrap around
        have hsize : size.toNat < 2 ^ 31 := by
          rw [BitVec.toInt_eq_toNat_cond] at hnonneg
          split_ifs at hnonneg <;> omega
        unfold KERNBASE at hsz
        exact ⟨hnonneg, by bv_omega⟩
  · unfold argstr
    rcases hargint : argint p n with ⟨_ | a, reads⟩
    · exact ⟨(hargint ▸ hint).1, nofun⟩
    · obtain ⟨hreads, hstr⟩ := fetchstr_within p a
      refine ⟨fun x hx => ?_, hstr⟩
      rcases List.mem_append.mp hx with hx | hx
      · exact (hargint ▸ hint).1 x hx
      · exact hreads x hx

/-- `argptr` of 8 bytes, with all arguments 16. -/
theorem arguments_confined_onePage :
    (argptr ⟨fun a => if a % 4 = 0 then 16 else 0, 4096, 4000⟩ 0 8).1 = some 16 ∧ 16 + 8 ≤ 4096 := by
  have hrun : (argptr ⟨fun a => if a % 4 = 0 then 16 else 0, 4096, 4000⟩ 0 8).1 = some 16 := by
    decide +kernel
  exact ⟨hrun, ((arguments_confined (by decide) 0 8 0).2.2.1.2 16 hrun).2⟩

end Xv6.Fetch
