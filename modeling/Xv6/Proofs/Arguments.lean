import Xv6.Proofs.Execute

/-! Where `exec` copies its arguments, and the argument that is too long for it. -/

open Function List

namespace Xv6

open Kmem Exec

variable {L : Layout} {s : Kmem} {own : ℕ → Role} {c : Caller} {k m : ℕ} {path : List UInt8}
  {argv : List (List UInt8)}

theorem Caller.Accepts.length_lt (h : c.Accepts argv) (hsz : c.sz ≤ KERNBASE) :
    ∀ arg ∈ argv, arg.length < 2 ^ 31 := by
  intro arg ha
  obtain ⟨uva, hlt, -⟩ := h.2 arg ha
  rw [KERNBASE] at hsz
  omega

/-- `exec` returns, and what it copies is in the stack page, exactly when no string of the arguments
gets to an address without a page table; if there is no new image, no string is pushed. -/
theorem exec_copies_in_stack {file : Option (List UInt8)} (h : Owned L c.kmem own)
    (hno : NoHeld own) (hdir : own c.pgdir = .dir) (hlock : c.locked = false)
    (hsz : c.sz ≤ KERNBASE) (hacc : c.Accepts argv) :
    (∃ r c', Caller.exec L file path argv c = .ok r c' ∧
      (r = 0 → ∃ l, l ≠ [] ∧ c'.kmem.copied = c.kmem.copied ++ l ∧
        ∀ x ∈ l, c'.sz - PGSIZE ≤ x.1 ∧ x.1 + x.2 ≤ c'.sz)) ↔
    ∀ bytes x c1, file = some bytes → Caller.newImage L file c = .ok (some x) c1 →
      Lands (imageSize bytes) (imageSize bytes) argv := by
  have hargs := hacc.length_lt hsz
  constructor
  · rintro ⟨r, c', hrun, -⟩ bytes x c1 he hsome
    refine wp.of_ok (Q := fun _ _ => Lands (imageSize bytes) (imageSize bytes) argv)
      (E := fun _ _ => True) ?_ hrun
    refine wp_exec h hno hdir hlock hargs (fun _ _ _ _ _ _ _ _ => trivial)
      (fun k _ hwhy => (hwhy bytes he hacc.1.le).1 x c1 hsome)
      fun bytes' _ _ _ _ _ he' _ _ _ hlands => ?_
    obtain rfl := Option.some.inj (he.symm.trans he')
    exact hlands
  · intro hlands
    refine (wp_exec h hno hdir hlock hargs
      (fun _ bytes x c1 he hsome _ hnot => hnot (hlands bytes x c1 he hsome))
      (fun k _ _ hr => absurd hr (by decide))
      fun bytes entry d k sp l _ hl hne hin _ _ => ⟨l, hne, hl, fun x hx => ?_⟩).exists_ok
    exact ⟨(hin x hx).1, (hin x hx).2.2⟩

theorem exec_runs {bytes : List UInt8} {top : ℕ} {r : ℤ} {c' : Caller} (h : Owned L c.kmem own)
    (hno : NoHeld own) (hdir : own c.pgdir = .dir) (hlock : c.locked = false)
    (hargs : ∀ arg ∈ argv, arg.length < 2 ^ 31) (hf : ProgramFits c.kmem bytes top)
    (hargc : argv.length ≤ MAXARG) (hbytes : stackBytes argv ≤ PGSIZE)
    (hrun : Caller.exec L (some bytes) path argv c = .ok r c') : r = 0 := by
  refine wp.of_ok (Q := fun r _ => r = 0) (E := fun _ _ => True) ?_ hrun
  exact wp_exec h hno hdir hlock hargs (fun _ _ _ _ _ _ _ _ => trivial)
    (fun k _ hwhy => absurd ((hwhy bytes rfl hargc).2 top hf).2 (not_lt.mpr hbytes))
    fun _ _ _ _ _ _ _ _ _ _ _ => rfl

/-! A process with a long string in its memory. -/

namespace Roomy

def written (k : ℕ) (s : Kmem) (own : ℕ → Role) : Kmem :=
  { s with
    mem := fun p =>
      match own p with
      | .user _ v => if v < k then Buffer.ofFn fun _ => 97 else s.mem p
      | _ => s.mem p }

def caller (k : ℕ) (s : Kmem) (own : ℕ → Role) : Caller :=
  ⟨written k s own, 257, (k + 1) * PGSIZE, 0, 0, [], 0, 0, false⟩

theorem fill_written (h : Roomy (k + 1) s own) : Fill 257 own s (written k s own) := by
  refine ⟨fun p hp => ?_, rfl, rfl⟩
  rcases h.roles p with e | e | rfl | ⟨i, e⟩ | ⟨v, e, -⟩
  · simp [written, e]
  · simp [written, e]
  · simp [written, h.dir]
  · simp [written, e]
  · exact absurd e (hp v)

theorem owned_caller (h : Roomy (k + 1) s own) : Owned wideLayout (caller k s own).kmem own :=
  h.fill_written.owned h.owned

theorem hasString_written (h : Roomy (k + 1) s own) (hk : k < 2 ^ 15) (hm : m ≤ k * PGSIZE) :
    (written k s own).HasString 257 (k * PGSIZE - m) (replicate m 97) := by
  have hmapped : ∀ v < 2 ^ 20, (written k s own).mapped 257 v = s.mapped 257 v := fun v hv =>
    h.fill_written.mapped h.owned h.dir hv
  constructor
  · intro i hi
    rw [length_replicate] at hi
    generalize ha : k * PGSIZE - m + i = a
    have hv : a / PGSIZE < k := by
      simp only [PGSIZE] at *
      omega
    obtain ⟨w, hw, -⟩ := h.zero (a / PGSIZE) (by omega)
    have hu := (h.owned.user_of_mapped h.dir (by omega) hw).2
    refine ⟨by simp, ?_⟩
    rw [getElem_replicate, byteAt, hmapped _ (by omega), hw, Option.map_some]
    have hmod : a % PGSIZE < PGSIZE := Nat.mod_lt _ (by decide)
    simp [written, hu, hv, hmod]
  · obtain ⟨w, hw, hz⟩ := h.zero k (by omega)
    have hu := (h.owned.user_of_mapped h.dir (by omega) hw).2
    have hdiv : k * PGSIZE / PGSIZE = k := Nat.mul_div_cancel _ (by decide)
    rw [length_replicate, Nat.sub_add_cancel hm, byteAt, hdiv, hmapped _ (by omega), hw,
      Option.map_some]
    simp [written, hu, hz, Buffer.zero]

theorem accepts_caller (h : Roomy (k + 1) s own) (hk : k < 2 ^ 15) (hm : m ≤ k * PGSIZE) :
    (caller k s own).Accepts [replicate m 97] := by
  refine ⟨Nat.one_lt_two.trans (by decide), fun arg harg => ?_⟩
  rw [mem_singleton] at harg
  subst harg
  refine ⟨k * PGSIZE - m, ?_, h.hasString_written hk hm⟩
  rw [length_replicate, Nat.sub_add_cancel hm, caller]
  exact Nat.mul_lt_mul_of_pos_right (Nat.lt_succ_self k) (by decide)

end Roomy

theorem exec_copies_in_stack_smallElf : ∃ (c c' : Caller) (l : List (ℕ × ℕ)),
    c.Accepts [[97, 97]] ∧
      Caller.exec wideLayout (some smallElf) [47, 97] [[97, 97]] c = .ok 0 c' ∧ l ≠ [] ∧
      c'.kmem.copied = c.kmem.copied ++ l ∧ ∀ x ∈ l, c'.sz - PGSIZE ≤ x.1 ∧ x.1 + x.2 ≤ c'.sz := by
  obtain ⟨s, own, h⟩ := exists_roomy (n := 2) (by decide)
  have ho := h.owned_caller
  have hacc : (Roomy.caller 1 s own).Accepts [[97, 97]] :=
    h.accepts_caller (m := 2) (by decide) (by decide)
  obtain ⟨r, c', hrun, hin⟩ := (@exec_copies_in_stack _ _ _ [47, 97] _ (some smallElf) ho
    h.noHeld h.dir rfl (show 2 * PGSIZE ≤ KERNBASE by decide) hacc).mpr fun bytes x c1 he _ => by
      obtain rfl := Option.some.inj he
      exact lands_of_short (by simp) (by decide) le_rfl
  obtain rfl := exec_runs ho h.noHeld h.dir rfl (by simp) (h.programFits rfl rfl) (by decide)
    (by decide) hrun
  obtain ⟨l, hl⟩ := hin rfl
  exact ⟨_, c', l, hacc, hrun, hl⟩

/-! An argument that is too long. -/

def bareElf : List UInt8 := [127, 69, 76, 70] ++ replicate 48 0

theorem programFits_bareElf (hfails : s.fails = []) (hlen : 1028 < s.freelist.length) :
    ProgramFits s bareElf 0 where
  header := by decide
  magic := by decide
  length := by decide
  segments := by
    have hnum : fieldAt 2 bareElf 44 = 0 := by decide
    rw [hnum]
    trivial
  below := by decide
  fails := hfails
  pages := hlen

theorem not_lands_long {arg : List UInt8} (hlen : arg.length = 0x2003000) :
    ¬Lands (imageSize bareElf) (imageSize bareElf) [arg] := by
  have himage : imageSize bareElf = 8192 := by decide
  rw [himage]
  intro hlands
  have hsp : pushed 8192 (arg.length + 1) = 0xFDFFEFFC := by
    rw [hlen]
    rfl
  refine hlands.1 ?_
  rw [hsp]
  exact ⟨by decide, by decide⟩

/-- `exec` faults on an argument that the memory of the process holds. -/
theorem exec_long_argument : ∃ (c c' : Caller) (own : ℕ → Role) (arg : List UInt8),
    Owned wideLayout c.kmem own ∧ NoHeld own ∧ own c.pgdir = .dir ∧ c.locked = false ∧
      c.kmem.UserPages c.pgdir c.sz ∧ c.Accepts [arg] ∧
      Caller.exec wideLayout (some bareElf) [97] [arg] c = .halt .fault c' := by
  obtain ⟨s, own, h⟩ := exists_roomy (n := 8195 + 1) (by decide)
  have ho := h.owned_caller
  have hpages := h.fill_written.userPages h.owned h.dir h.pages
  have hacc := h.accepts_caller (m := 8195 * PGSIZE) (by decide) le_rfl
  have hlen : (replicate (8195 * PGSIZE) (97 : UInt8)).length = 0x2003000 := length_replicate
  have hfits : ProgramFits (Roomy.caller 8195 s own).kmem bareElf 0 :=
    programFits_bareElf h.fails (show 1028 < s.freelist.length by have := h.length_freelist; omega)
  generalize replicate (8195 * PGSIZE) (97 : UInt8) = arg at hacc hlen
  have hnot := not_lands_long hlen
  have hrun : wp (Caller.exec wideLayout (some bareElf) [97] [arg]) (fun _ _ => False)
      (fun e _ => e = .fault) (Roomy.caller 8195 s own) :=
    wp_exec ho h.noHeld h.dir rfl (hacc.length_lt (show 8196 * PGSIZE ≤ KERNBASE by decide)) (fun _ _ _ _ _ _ _ _ => rfl)
      (fun k _ hwhy => hnot ((hwhy bareElf rfl hacc.1.le).2 0 hfits).1)
      fun bytes _ _ _ _ _ he _ _ _ hlands => hnot (Option.some.inj he ▸ hlands)
  unfold wp at hrun
  split at hrun
  · exact hrun.elim
  · next e c' heq =>
    subst hrun
    exact ⟨_, c', own, arg, ho, h.noHeld, h.dir, rfl, hpages, hacc, heq⟩

end Xv6
