import Xv6.Proofs.UserImage

/-! The stack `exec` sets up: its guard page, and the arguments copied to it. -/

namespace Xv6

open Kmem Exec Nat

variable {L : Layout} {s0 s s' : Kmem} {own0 own own' : ℕ → Role} {d sz v w g : ℕ}

theorem cleared_entry (hw : w < 2 ^ 32) (hpr : present w) :
    w &&& (2 ^ 32 - 1 - PTE_U) < 2 ^ 32 ∧ present (w &&& (2 ^ 32 - 1 - PTE_U)) ∧
      (w &&& (2 ^ 32 - 1 - PTE_U)) / PGSIZE = w / PGSIZE ∧
      (w &&& (2 ^ 32 - 1 - PTE_U)) &&& PTE_U = 0 := by
  refine ⟨and_le_left.trans_lt hw, ?_, ?_, ?_⟩
  · unfold present at *
    rwa [Nat.and_assoc]
  · rw [show PGSIZE = 2 ^ 12 from rfl, Nat.and_div_two_pow,
      show (2 ^ 32 - 1 - PTE_U) / 2 ^ 12 = 2 ^ 20 - 1 from rfl, Nat.and_two_pow_sub_one_eq_mod]
    exact Nat.mod_eq_of_lt (by omega)
  · rw [Nat.and_assoc]
    exact Nat.and_zero w

section Rules

variable {E : KmemStop → Kmem → Prop} {Q : Option ℕ → Kmem → Prop} {argv : List (List UInt8)}
  {buf : List UInt8}

/-- `clearpteu` on a mapped user page takes `PTE_U` from its entry, and changes nothing else. -/
theorem wp_clearpteu {Q : Unit → Kmem → Prop} (h : Building L s0 own0 d s own) (hg : g < 2 ^ 19)
    (hm : s.mapped d g ≠ none) (hQ : ∀ s', Building L s0 own0 d s' own →
      (∀ v < 2 ^ 20, v ≠ g → s'.mapped d v = s.mapped d v) → s'.mapped d g ≠ none →
      (∀ w, s'.mapped d g = some w → w &&& PTE_U = 0) → s'.copied = s.copied →
      (∀ i, s'.word d i = s.word d i) → Q () s') : wp (clearpteu d (g * PGSIZE)) Q E s := by
  have hpdx := PDX_page (v := g) (by omega)
  have hptx := PTX_page g
  obtain ⟨w, hw⟩ := Option.ne_none_iff_exists'.mp hm
  obtain ⟨hpde, hpr, hpte⟩ := mapped_eq_some.mp hw
  unfold clearpteu
  rw [wp_bind, wp_lookup, hpdx, hptx, if_pos hpde]
  dsimp only
  rw [wp_bind, wp_load, hpte, wp_store]
  have ht := h.owned.pde d _ h.dir (by omega) hpde
  set t := s.word d (g / 1024) / PGSIZE
  have hlt : w < 2 ^ 32 := hpte ▸ word_lt
  obtain ⟨hlt', hpr', hdiv, hu⟩ := cleared_entry hlt hpr
  set x := w &&& (2 ^ 32 - 1 - PTE_U)
  have hj : g % 1024 < 1024 := mod_lt _ (by decide)
  have hmapped : ∀ v < 2 ^ 20, (s.setWord t (g % 1024) x).mapped d v =
      if v = g then some x else s.mapped d v := by
    intro v hv
    rw [h.owned.mapped_setPte h.dir ht hj hlt' hv, if_pos hpr',
      show g / 1024 * 1024 + g % 1024 = g by omega]
  have hgrow : Grow d s (s.setWord t (g % 1024) x) own own := by
    refine ⟨fun _ _ _ => rfl, fun _ => .inl rfl, fun p _ _ _ hpt => Function.update_of_ne ?_ _ _⟩
    rintro rfl
    exact hpt _ ht
  refine hQ _ (h.step (h.owned.reflag ht (by omega) hj (hpte ▸ hpr) hlt' hpr' (hpte ▸ hdiv))
    h.noHeld hgrow fun v hv hv' => ?_) (fun v hv hne => ?_) ?_ (fun y hy => ?_) rfl
    fun i => word_setWord_ne (Owned.dir_ne_table h.dir ht)
  · rw [hmapped v hv', if_neg (by omega)]
  · rw [hmapped v hv, if_neg hne]
  · simp [hmapped g (by omega)]
  · rw [hmapped g (by omega), if_pos rfl, Option.some.injEq] at hy
    exact hy ▸ hu

theorem wp_uva2ka (hv : v < 2 ^ 20) (hpde : present (s.word d (v / 1024)))
    (hnone : (∀ w, s.mapped d v = some w → w &&& PTE_U = 0) → Q none s)
    (hsome : ∀ w, s.mapped d v = some w → w &&& PTE_U ≠ 0 → Q (some (w / PGSIZE)) s) :
    wp (uva2ka d (v * PGSIZE)) Q E s := by
  have hpdx := PDX_page (v := v) (by omega)
  have hptx := PTX_page v
  unfold uva2ka
  rw [wp_bind, wp_lookup, hpdx, hptx, if_pos hpde]
  dsimp only
  rw [wp_bind, wp_load]
  by_cases hpr : present (s.word (s.word d (v / 1024) / PGSIZE) (v % 1024))
  · have hm : s.mapped d v = some _ := mapped_eq_some.mpr ⟨hpde, hpr, rfl⟩
    rw [if_neg (not_not_intro hpr)]
    by_cases hu : s.word (s.word d (v / 1024) / PGSIZE) (v % 1024) &&& PTE_U = 0
    · rw [if_pos hu]
      refine hnone fun w hw => ?_
      rw [hm, Option.some.injEq] at hw
      exact hw ▸ hu
    · rw [if_neg hu]
      exact hsome _ hm hu
  · rw [if_pos hpr]
    refine hnone fun w hw => ?_
    rw [mapped_eq, if_neg fun e => hpr e.2] at hw
    cases hw

def AllUser (s : Kmem) (d va n : ℕ) : Prop :=
  ∀ a, va ≤ a → a < va + n → ∃ w, s.mapped d (a / PGSIZE) = some w ∧ w &&& PTE_U ≠ 0

def Within (l : List (ℕ × ℕ)) (lo hi : ℕ) : Prop := ∀ x ∈ l, lo ≤ x.1 ∧ 0 < x.2 ∧ x.1 + x.2 ≤ hi

/-- The new image before its arguments are pushed: `sz` bytes, the last page for the stack and a page
below it that is not for the user. -/
structure StackReady (L : Layout) (s0 : Kmem) (own0 : ℕ → Role) (d : ℕ) (s : Kmem) (own : ℕ → Role)
    (sz : ℕ) : Prop extends Building L s0 own0 d s own where
  old : Owned L s0 own0
  size : sz ≤ KERNBASE
  round : sz % PGSIZE = 0
  room : 2 * PGSIZE ≤ sz
  pages : s.UserPages d sz
  guard : ∀ w, s.mapped d (sz / PGSIZE - 2) = some w → w &&& PTE_U = 0
  stack : ∃ w, s.mapped d (sz / PGSIZE - 1) = some w ∧ w &&& PTE_U ≠ 0
  gap : ∀ i, 568 ≤ i → i < 1016 → ¬Xv6.present (s.word d i)

theorem StackReady.fill (h : StackReady L s0 own0 d s own sz) (hf : Fill d own s s') :
    StackReady L s0 own0 d s' own sz := by
  have hmapped : ∀ v < 2 ^ 19, s'.mapped d v = s.mapped d v := fun v hv =>
    hf.mapped h.owned h.dir (by omega)
  have hlt : sz / PGSIZE - 2 < 2 ^ 19 ∧ sz / PGSIZE - 1 < 2 ^ 19 := by
    have := h.size
    simp only [KERNBASE, PGSIZE] at this ⊢
    omega
  refine ⟨h.toBuilding.fill h.old hf, h.old, h.size, h.round, h.room,
    hf.userPages h.owned h.dir h.pages, ?_, ?_, fun i hi hi' => ?_⟩
  · rw [hmapped _ hlt.1]
    exact h.guard
  · rw [hmapped _ hlt.2]
    exact h.stack
  · rw [hf.word h.dir]
    exact h.gap i hi hi'

/-- The loop of `copyout` below the size of the program: it stops at the first page that is not
the user's. -/
theorem wp_copyoutFrom {k va : ℕ} {Q : Bool → Kmem → Prop} (h : StackReady L s0 own0 d s own sz)
    (hva : va + buf.length ≤ sz) (hk : buf.length ≤ k)
    (hfail : ∀ s', Fill d own s s' → ¬AllUser s d va buf.length → Q false s')
    (hok : ∀ s' l, Fill d own s s' → s'.copied = s.copied ++ l →
      (0 < buf.length → l ≠ []) → Within l va (va + buf.length) → AllUser s d va buf.length →
      Q true s') :
    wp (copyoutFrom d k va buf) Q E s := by
  induction k generalizing s va buf with
  | zero =>
    exact hok s [] (.refl d own s) (List.append_nil _).symm (fun hpos => absurd hpos (by omega))
      (by simp [Within]) fun a ha ha' => absurd ha' (by omega)
  | succ k ih =>
    have hsz := h.size
    unfold copyoutFrom
    by_cases hlen : buf.length > 0
    · obtain ⟨v, hdown, hlo, hhi⟩ : ∃ v, PGROUNDDOWN va = v * PGSIZE ∧ v * PGSIZE ≤ va ∧
          va < (v + 1) * PGSIZE := ⟨va / PGSIZE, rfl, div_mul_le_self ..,
            lt_mul_of_div_lt (lt_succ_self _) (by decide)⟩
      have hv19 : v < 2 ^ 19 := by
        simp only [PGSIZE, KERNBASE] at hsz hlo
        omega
      have hvpage : va / PGSIZE = v := Nat.div_eq_of_lt_le hlo hhi
      have hup : (v + 1) * PGSIZE ≤ sz := by
        obtain ⟨m, hm⟩ := dvd_of_mod_eq_zero h.round
        rw [mul_comm] at hm
        have hlt : v * PGSIZE < m * PGSIZE := by omega
        rw [hm]
        exact Nat.mul_le_mul_right _ (Nat.lt_of_mul_lt_mul_right hlt)
      obtain ⟨x, hx⟩ := Option.ne_none_iff_exists'.mp ((h.pages v hv19).mpr (by omega))
      rw [if_pos hlen]
      dsimp only
      rw [hdown, wp_bind]
      refine wp_uva2ka (by omega) (mapped_eq_some.mp hx).1
        (fun hnot => hfail s (.refl d own s) fun hall => ?_) fun w hw huser => ?_
      · obtain ⟨w, hw, hu⟩ := hall va le_rfl (by omega)
        exact hu (hnot w (hvpage ▸ hw))
      set n := min (PGSIZE - (va - v * PGSIZE)) buf.length with hn
      have hnpos : 0 < n := by
        rw [add_mul, one_mul] at hhi
        omega
      have hnext : (v * PGSIZE + PGSIZE) % 2 ^ 32 = (v + 1) * PGSIZE := by
        simp only [PGSIZE]
        omega
      dsimp only
      rw [wp_bind, wp_modify, hnext]
      set s1 := { s.setPage (w / PGSIZE) ((s.mem (w / PGSIZE)).patch (va - v * PGSIZE) (buf.take n))
        with copied := s.copied ++ [(va, n)] } with hs1
      have hf : Fill d own s s1 :=
        .setPage h.owned h.dir hv19 hw rfl rfl fun p hp => Function.update_of_ne hp _ _
      have hlen' : (buf.drop n).length = buf.length - n := List.length_drop
      have hmul : (v + 1) * PGSIZE = v * PGSIZE + PGSIZE := by ring
      -- either this was the last round, or the next one starts at the page boundary
      have hcases : n = buf.length ∨ va + n = (v + 1) * PGSIZE := by omega
      have hmapped : ∀ a, a < sz → s1.mapped d (a / PGSIZE) = s.mapped d (a / PGSIZE) := by
        intro a ha
        refine hf.mapped h.owned h.dir ?_
        simp only [PGSIZE, KERNBASE] at hsz ⊢
        omega
      refine ih (h.fill hf) (by omega) (by omega)
        (fun s' hf' hnot => hfail s' (hf.trans hf') fun hall => hnot fun a ha ha' => ?_)
        fun s' l hf' hl _ hin hall => ?_
      · rw [hmapped a (by omega)]
        exact hall a (by omega) (by omega)
      · refine hok s' ((va, n) :: l) (hf.trans hf') ?_ (fun _ => List.cons_ne_nil _ _) (fun y hy => ?_)
          fun a ha ha' => ?_
        · rw [hl, hs1, List.append_assoc]
          rfl
        · rcases List.mem_cons.mp hy with rfl | hy
          · exact ⟨le_rfl, hnpos, by dsimp only; omega⟩
          · obtain ⟨hy1, hy2, hy3⟩ := hin y hy
            omega
        · by_cases hfirst : a < va + n
          · have hpage : a / PGSIZE = v := Nat.div_eq_of_lt_le (by omega) (by omega)
            rw [hpage]
            exact ⟨w, hw, huser⟩
          · obtain ⟨y, hy, hyu⟩ := hall a (by omega) (by omega)
            rw [hmapped a (by omega)] at hy
            exact ⟨y, hy, hyu⟩
    · rw [if_neg hlen]
      exact hok s [] (.refl d own s) (List.append_nil _).symm (fun hpos => absurd hpos hlen)
        (by simp [Within]) fun a ha ha' => absurd ha' (by omega)

/-- `copyout` above user memory: to the kernel and the devices it fails at once, and where there is
no page table `uva2ka` uses a null pointer. -/
theorem wp_copyout_kernel {va : ℕ} {Q : Bool → Kmem → Prop} (h : StackReady L s0 own0 d s own sz)
    (hva : KERNBASE ≤ va) (hlt : va < 2 ^ 32) (hpos : 0 < buf.length)
    (hfail : ¬NoTable va → Q false s) (hfault : NoTable va → E .fault s) :
    wp (copyout d va buf) Q E s := by
  obtain ⟨k, hk⟩ := Nat.exists_eq_add_of_lt hpos
  rw [Nat.zero_add] at hk
  have hv : va / PGSIZE < 2 ^ 20 ∧ 2 ^ 19 ≤ va / PGSIZE := by
    simp only [PGSIZE, KERNBASE] at *
    omega
  unfold copyout
  rw [hk]
  unfold copyoutFrom
  rw [if_pos hpos]
  dsimp only
  rw [wp_bind]
  by_cases hno : NoTable va
  · have hpdx : PDX (PGROUNDDOWN va) = va / PGSIZE / 1024 := PDX_page (by omega)
    have hgap := h.gap (va / PGSIZE / 1024)
      (by simp only [NoTable, KERNBASE, PHYSTOP, DEVSPACE, PGSIZE] at *; omega)
      (by simp only [NoTable, KERNBASE, PHYSTOP, DEVSPACE, PGSIZE] at *; omega)
    unfold uva2ka
    rw [wp_bind, wp_lookup, hpdx, if_neg hgap]
    exact hfault hno
  · have hpage : ¬NoTable (va / PGSIZE * PGSIZE) := by
      simp only [NoTable, KERNBASE, PHYSTOP, DEVSPACE, PGSIZE] at *
      omega
    obtain ⟨x, hx⟩ := Option.ne_none_iff_exists'.mp (h.present _ hv.2 hv.1 hpage)
    exact wp_uva2ka hv.1 (mapped_eq_some.mp hx).1 (fun _ => hfail hno)
      fun w hw hu => absurd (h.kernel _ w hv.2 hv.1 hw) hu

theorem push_cases {sp n : ℕ} (hsp : sp ≤ KERNBASE) (hn : 0 < n) (hn' : n ≤ 2 ^ 31) :
    pushed sp n + n ≤ sp ∧ sp < pushed sp n + n + 4 ∨
      KERNBASE ≤ pushed sp n ∧ pushed sp n < 2 ^ 32 ∧ sp < n := by
  simp only [pushed, KERNBASE] at *
  omega

section

variable (h : StackReady L s0 own0 d s own sz)
include h

/-- A range that ends in the stack page or just below it does not reach the guard page, if all of it
is the user's. -/
theorem above_guard {sp n : ℕ} (hsp : sp % 4 = 0) (hn : 0 < n) (hend : sz - PGSIZE < sp + n + 4)
    (hall : AllUser s d sp n) : sz - PGSIZE ≤ sp := by
  have hround := h.round
  have hroom := h.room
  by_contra hlt
  obtain ⟨w, hw, hu⟩ := hall (max sp (sz - 2 * PGSIZE)) (le_max_left ..) (by
    simp only [PGSIZE] at *
    omega)
  have hpage : max sp (sz - 2 * PGSIZE) / PGSIZE = sz / PGSIZE - 2 := by
    simp only [PGSIZE] at *
    omega
  rw [hpage] at hw
  exact hu (h.guard w hw)

theorem allUser_stack {sp n : ℕ} (hsp : sz - PGSIZE ≤ sp) (hend : sp + n ≤ sz) :
    AllUser s d sp n := by
  intro a ha ha'
  have hround := h.round
  have hpage : a / PGSIZE = sz / PGSIZE - 1 := by
    simp only [PGSIZE] at *
    omega
  rw [hpage]
  exact h.stack

theorem wp_pushStrings {argc sp : ℕ} {ustack : List ℕ}
    {Q : Option (ℕ × ℕ × List ℕ) → Kmem → Prop} (hargs : ∀ arg ∈ argv, arg.length < 2 ^ 31)
    (hlo : sz - PGSIZE ≤ sp) (hhi : sp ≤ sz) (halign : sp % 4 = 0) (hargc : argc ≤ MAXARG)
    (hlen : ustack.length = argc)
    (hfault : ∀ s', ¬Lands sz sp argv → E .fault s')
    (hfail : ∀ s', Fill d own s s' → (argc + argv.length ≤ MAXARG →
      Lands sz sp argv ∧ sp < sz - PGSIZE + stringBytes argv) → Q none s')
    (hok : ∀ s' l argc' sp' ustack', Fill d own s s' → s'.copied = s.copied ++ l →
      Within l (sz - PGSIZE) sz → sz - PGSIZE ≤ sp' → sp' ≤ sz → sp' % 4 = 0 → argc' ≤ MAXARG →
      ustack'.length = argc' → Lands sz sp argv → argc' = argc + argv.length →
      sp' + stringBytes argv = sp → Q (some (argc', sp', ustack')) s') :
    wp (pushStrings d argv argc sp ustack) Q E s := by
  induction argv generalizing s argc sp ustack with
  | nil =>
    exact hok s [] argc sp ustack (.refl d own s) (List.append_nil _).symm (by simp [Within]) hlo hhi
      halign hargc hlen trivial rfl rfl
  | cons arg argv ih =>
    unfold pushStrings
    by_cases hmax : argc ≥ MAXARG
    · rw [if_pos hmax]
      refine hfail s (.refl d own s) fun hle => ?_
      rw [List.length_cons] at hle
      omega
    · rw [if_neg hmax]
      dsimp only
      have hsz := h.size
      have hn : (arg ++ [0]).length = arg.length + 1 := by simp
      have hcases := push_cases (hhi.trans hsz) (succ_pos arg.length) (hargs arg (by simp))
      have hbytes : stringBytes (arg :: argv) = (arg.length + 4) / 4 * 4 + stringBytes argv :=
        List.sum_cons
      rw [hbytes, List.length_cons] at hfail hok
      unfold Lands at hfault hfail hok
      have halign1 : pushed sp (arg.length + 1) % 4 = 0 := mul_mod_left ..
      generalize pushed sp (arg.length + 1) = sp1 at hcases hfault hfail hok halign1 ⊢
      rw [wp_bind]
      rcases hcases with ⟨hdown, hnear⟩ | ⟨hup, hlt, hneg⟩
      · have htab : ¬NoTable sp1 := by
          simp only [NoTable, KERNBASE] at *
          omega
        refine wp_copyoutFrom h (by omega) le_rfl (fun s1 hf hnot => ?_)
          fun s1 l hf hl _ hin hall => ?_
        · have hlow : sp1 < sz - PGSIZE := by
            by_contra hge
            exact hnot (allUser_stack h (not_lt.mp hge) (by omega))
          exact hfail s1 hf fun _ => ⟨⟨htab, fun hge _ => absurd hge (by omega)⟩, by omega⟩
        · rw [hn] at hin hall
          have hlo1 : sz - PGSIZE ≤ sp1 := above_guard h halign1 (succ_pos _) (by omega) hall
          simp only [if_true]
          refine ih (h.fill hf) (fun a ha => hargs a (by simp [ha])) hlo1 (by omega)
            halign1 (by omega) (by simp [hlen])
            (fun s2 hnot => hfault s2 fun hl => hnot (hl.2 hlo1 (by omega)))
            (fun s2 hf2 hl => hfail s2 (hf.trans hf2) fun hle => ?_)
            fun s2 l2 argc2 sp2 ustack2 hf2 hl2 hin2 h1 h2 h3 h4 h5 hlands hc hsp => hok s2 (l ++ l2)
              argc2 sp2 ustack2 (hf.trans hf2) (by rw [hl2, hl, List.append_assoc]) (fun x hx => ?_) h1
              h2 h3 h4 h5 ⟨htab, fun _ _ => hlands⟩ (by omega) (by omega)
          · obtain ⟨hlands, hlow⟩ := hl (by omega)
            exact ⟨⟨htab, fun _ _ => hlands⟩, by omega⟩
          rcases List.mem_append.mp hx with hx | hx
          · obtain ⟨hx1, hx2, hx3⟩ := hin x hx
            omega
          · exact hin2 x hx
      · refine wp_copyout_kernel h hup hlt (by simp) (fun hno => ?_)
          fun hno => hfault s fun hl => hl.1 hno
        exact hfail s (.refl d own s) fun _ =>
          ⟨⟨hno, fun _ hlt => absurd hlt (by omega)⟩, by omega⟩

/-- The stack of the new program is built, or it does not fit and `copyout` fails; a null pointer is
used exactly when a string gets to an address without a page table. -/
theorem wp_pushArgs (hargs : ∀ arg ∈ argv, arg.length < 2 ^ 31)
    (hfault : ∀ s', ¬Lands sz sz argv → E .fault s')
    (hfail : ∀ s', Fill d own s s' → (argv.length ≤ MAXARG →
      Lands sz sz argv ∧ PGSIZE < stackBytes argv) → Q none s')
    (hok : ∀ s' l sp, Fill d own s s' → s'.copied = s.copied ++ l → l ≠ [] →
      Within l (sz - PGSIZE) sz → Lands sz sz argv → Q (some sp) s') : wp (pushArgs d sz argv) Q E s := by
  have hsz := h.size
  have hroom := h.room
  have halign : sz % 4 = 0 := by
    have := h.round
    simp only [PGSIZE] at this
    omega
  unfold pushArgs
  rw [wp_bind]
  refine wp_pushStrings h hargs (sub_le ..) le_rfl halign (zero_le _) rfl hfault
    (fun s1 hf hl => hfail s1 hf fun hle => ?_)
    fun s1 l argc sp ustack hf hl hin hlo hhi hsp hargc hlen hlands hc hbytes => ?_
  · obtain ⟨hlands, hlow⟩ := hl (by omega)
    simp only [stackBytes, PGSIZE] at *
    exact ⟨hlands, by omega⟩
  have hwords : (([0xffffffff, argc, (sp + 2 ^ 32 - (argc + 1) * 4) % 2 ^ 32] ++ ustack ++
      [0]).flatMap (Bytes.le 4)).length = (3 + argc + 1) * 4 := by
    rw [List.length_flatMap]
    simp [hlen]
    ring
  have hdown : (sp + 2 ^ 32 - (3 + argc + 1) * 4) % 2 ^ 32 = sp - (3 + argc + 1) * 4 ∧
      (3 + argc + 1) * 4 ≤ sp := by
    simp only [PGSIZE, KERNBASE, MAXARG] at *
    omega
  dsimp only
  rw [hdown.1, wp_bind]
  have h1 := h.fill hf
  refine wp_copyoutFrom h1 (by rw [hwords]; omega) le_rfl
    (fun s2 hf2 hnot => hfail s2 (hf.trans hf2) fun _ => ⟨hlands, ?_⟩)
    fun s2 l2 hf2 hl2 hne hin2 hall => ?_
  · by_contra hfits
    refine hnot (allUser_stack h1 ?_ (by rw [hwords]; omega))
    simp only [stackBytes, PGSIZE] at *
    omega
  rw [hwords] at hne hin2 hall
  have hlo2 : sz - PGSIZE ≤ sp - (3 + argc + 1) * 4 :=
    above_guard h1 (by omega) (by omega) (by omega) hall
  simp only [if_true]
  refine hok s2 (l ++ l2) _ (hf.trans hf2) (by rw [hl2, hl, List.append_assoc])
    (by simp [hne (by omega)]) (fun x hx => ?_) hlands
  rcases List.mem_append.mp hx with hx | hx
  · exact hin x hx
  · obtain ⟨hx1, hx2, hx3⟩ := hin2 x hx
    omega

end

theorem lands_of_short {sp : ℕ} (hargs : ∀ arg ∈ argv, arg.length < 2 ^ 25) (hsz : sz ≤ KERNBASE)
    (hsp : sp ≤ sz) : Lands sz sp argv := by
  induction argv generalizing sp with
  | nil => trivial
  | cons arg argv ih =>
    have hlen := hargs arg (by simp)
    refine ⟨?_, fun _ hlt => ih (fun a ha => hargs a (by simp [ha])) hlt.le⟩
    simp only [NoTable, pushed, KERNBASE, PHYSTOP, DEVSPACE] at *
    omega

end Rules

end Xv6
