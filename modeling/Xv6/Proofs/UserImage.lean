import Xv6.Spec.UserImage
import Xv6.Proofs.Fork

/-! The memory `exec` builds: a new page directory, filled from the file. What was there before is
not touched until the old image is freed. -/

namespace Xv6

open Kmem

variable {L : Layout} {s₀ s s' s'' : Kmem} {own₀ own own' : ℕ → Role} {d p sz v w : ℕ}

structure Fill (d : ℕ) (own : ℕ → Role) (s s' : Kmem) : Prop where
  mem : ∀ p, (∀ v, own p ≠ .user d v) → s'.mem p = s.mem p
  freelist : s'.freelist = s.freelist
  fails : s'.fails = s.fails

namespace Fill

theorem refl (d : ℕ) (own : ℕ → Role) (s : Kmem) : Fill d own s s := ⟨fun _ _ => rfl, rfl, rfl⟩

theorem trans (h : Fill d own s s') (h' : Fill d own s' s'') : Fill d own s s'' :=
  ⟨fun p hp => (h'.mem p hp).trans (h.mem p hp), h'.freelist.trans h.freelist,
    h'.fails.trans h.fails⟩

section

variable (h : Fill d own s s') (ho : Owned L s own)
include h ho

theorem owned : Owned L s' own := by
  refine ho.congr h.freelist fun p hp => h.mem p fun v hv => ?_
  rw [hv] at hp
  simp at hp

theorem mapped (hd : own d = .dir) (hv : v < 2 ^ 20) : s'.mapped d v = s.mapped d v :=
  ho.mapped_congr hd hv (h.mem d (by simp [hd])) fun t i ht => h.mem t (by simp [ht])

theorem userPages (hd : own d = .dir) (hpages : s.UserPages d sz) : s'.UserPages d sz := by
  intro v hv
  rw [h.mapped ho hd (by omega)]
  exact hpages v hv

end

theorem word (h : Fill d own s s') (hd : own d = .dir) (i : ℕ) : s'.word d i = s.word d i :=
  word_of_mem (h.mem d (by simp [hd]))

theorem setPage (ho : Owned L s own) (hd : own d = .dir) (hv : v < 2 ^ 19)
    (hw : s.mapped d v = some w) (hf : s'.freelist = s.freelist) (hs : s'.fails = s.fails)
    (hmem : ∀ p, p ≠ w / PGSIZE → s'.mem p = s.mem p) : Fill d own s s' := by
  refine ⟨fun p hp => hmem p ?_, hf, hs⟩
  rintro rfl
  exact hp v (ho.user_of_mapped hd hv hw).2

end Fill

/-- `exec` is building the page directory `d`, from free pages only. Above user memory there are the
kernel's memory and the devices, which are not for the user. -/
structure Building (L : Layout) (s₀ : Kmem) (own₀ : ℕ → Role) (d : ℕ) (s : Kmem) (own : ℕ → Role) :
    Prop where
  free : own₀ d = .free
  owned : Owned L s own
  noHeld : NoHeld own
  dir : own d = .dir
  grow : Grow d s₀ s (Function.update own₀ d .dir) own
  kernel : ∀ v w, 2 ^ 19 ≤ v → v < 2 ^ 20 → s.mapped d v = some w → w &&& PTE_U = 0
  present : ∀ v, 2 ^ 19 ≤ v → v < 2 ^ 20 → ¬NoTable (v * PGSIZE) → s.mapped d v ≠ none

variable (h : Building L s₀ own₀ d s own)

namespace Building

include h in
theorem step (ho : Owned L s' own') (hno : NoHeld own')
    (hg : Grow d s s' own own') (hm : ∀ v, 2 ^ 19 ≤ v → v < 2 ^ 20 → s'.mapped d v = s.mapped d v) :
    Building L s₀ own₀ d s' own' where
  free := h.free
  owned := ho
  noHeld := hno
  dir := hg.dir h.dir
  grow := h.grow.trans hg
  kernel v w hv hv' hw := h.kernel v w hv hv' (by rwa [hm v hv hv'] at hw)
  present v hv hv' := by
    rw [hm v hv hv']
    exact h.present v hv hv'

include h in
theorem fresh (h0 : Owned L s₀ own₀) (p v : ℕ) : Function.update own₀ d .dir p ≠ .user d v := by
  intro hp
  by_cases hpd : p = d
  · simp [hpd] at hp
  · rw [Function.update_of_ne hpd] at hp
    obtain ⟨-, t, ht, -⟩ := h0.user p d v hp
    have hdir := (h0.table t d _ ht).2.1
    simp [h.free] at hdir

include h in
theorem fill (h0 : Owned L s₀ own₀) (hf : Fill d own s s') : Building L s₀ own₀ d s' own where
  free := h.free
  owned := hf.owned h.owned
  noHeld := h.noHeld
  dir := h.dir
  grow := by
    refine ⟨h.grow.old, h.grow.new, fun p hp hp' hpd hpt => ?_⟩
    rw [hf.mem p ?_, h.grow.mem p hp hp' hpd hpt]
    rw [h.grow.old p hp hp']
    exact h.fresh h0 p
  kernel v w hv hv' hw := h.kernel v w hv hv' (by rwa [hf.mapped h.owned h.dir hv'] at hw)
  present v hv hv' := by
    rw [hf.mapped h.owned h.dir hv']
    exact h.present v hv hv'

end Building

theorem user_entry (f : ℕ) : (f * PGSIZE ||| 7) &&& PTE_U ≠ 0 := by
  rw [Nat.and_or_distrib_right]
  exact fun h => absurd (Nat.or_eq_zero_iff.mp h).2 (by decide)

theorem Undone.grow {R : ℕ → Prop} (h : Undone d R s s' own own')
    (hR : ∀ p v, R v → own p ≠ .user d v) : Grow d s s' own own' where
  old p hf _ := h.kept p hf fun v hv => hR p v hv
  new p := by
    by_cases hf : own p = .free
    · rcases h.free p hf with hp | ⟨i, hp⟩
      · exact .inl (hp.trans hf.symm)
      · exact .inr ⟨.inl hf, .inr (.inr (.inl ⟨i, hp⟩))⟩
    · exact .inl (h.kept p hf fun v hv => hR p v hv)
  mem p hf _ hpd hpt := h.mem p hf (fun v hv => hR p v hv) hpd hpt

variable {file : List UInt8}

section Rules

variable {E : KmemStop → Kmem → Prop}

include h in
theorem wp_allocuvm_building {newsz : ℕ} {Q : ℕ → Kmem → Prop}
    (hsz : sz ≤ KERNBASE) (hpages : s.UserPages d sz)
    (hfail : ∀ s' own', Building L s₀ own₀ d s' own' → (s.fails = [] → newsz < KERNBASE →
      Exhausted L d (fun v => sz ≤ v * PGSIZE ∧ v * PGSIZE < newsz) s own) → Q 0 s')
    (hok : ∀ s' own' sz', Building L s₀ own₀ d s' own' → s'.UserPages d sz' → sz' ≤ KERNBASE →
      newsz < KERNBASE → sz' = max sz newsz →
      (∀ i, 512 ≤ i → s'.word d i = s.word d i) → (s.fails = [] → s'.fails = []) →
      (∀ v, sz ≤ v * PGSIZE → v * PGSIZE < sz' → ∃ w, s'.mapped d v = some w ∧ w &&& PTE_U ≠ 0) →
      Q sz' s') :
    Exec.wp (allocuvm L d sz newsz) Q E s := by
  have hnot : ∀ v < 2 ^ 19, sz ≤ v * PGSIZE → s.mapped d v = none := by
    intro v hv hle
    by_contra hm
    exact absurd ((hpages v hv).mp hm) (not_lt.mpr hle)
  refine wp_allocuvm h.owned h.dir h.noHeld hnot
    (fun hge => hfail s own h fun _ hlt => absurd hge (not_le.mpr hlt)) (fun hlt hlt' => ?_)
    (fun s' own' hlt hle ho hu hexh => ?_) fun s' own' hlt hle ho ha => ?_
  · exact hok s own sz h hpages hsz hlt (max_eq_left hlt'.le).symm (fun _ _ => rfl) id
      fun v hv hv' => absurd hv' (not_lt.mpr hv)
  · refine hfail s' own' (h.step ho (hu.noHeld h.noHeld) (hu.grow fun p v hv hp => ?_)
      fun v hv hv' => hu.mapped v hv' fun hR => ?_) fun hnil _ => hexh hnil
    · obtain ⟨hv', w, hw, -⟩ := h.owned.mapped_of_user hp
      rw [hnot v hv' hv.1] at hw
      cases hw
    · have := hR.2
      simp only [PGSIZE, KERNBASE] at *
      omega
  · have hgrown := grown_of_added (n := (newsz : ℤ) - sz) h.owned h.dir hle hlt hpages ha (by ring)
    refine hok s' own' newsz (h.step ho ha.noHeld ha.toGrow fun v hv hv' => ha.mapped v hv' ?_)
      hgrown.pages hlt.le hlt (max_eq_right hle).symm ha.dirs ha.fails fun v hv hv' => ?_
    · simp only [PGSIZE, KERNBASE] at *
      omega
    · obtain ⟨f, hf, -⟩ := ha.fresh v (by simp only [PGSIZE] at *; omega)
        (by simp only [PGSIZE] at *; omega)
      exact ⟨_, hf, user_entry f⟩

theorem wp_loadFrom {a offset n k j : ℕ} {Q : Bool → Kmem → Prop}
    (h : Owned L s own) (hd : own d = .dir) (hsz : sz ≤ KERNBASE) (hpages : s.UserPages d sz)
    (hn : a * PGSIZE + n ≤ sz)
    (hQ : ∀ r s', Fill d own s s' → (offset + n ≤ file.length → file.length < 2 ^ 31 → r = true) →
      Q r s') :
    Exec.wp (loadFrom file d (a * PGSIZE) offset n k (j * PGSIZE)) Q E s := by
  induction k generalizing s j with
  | zero => exact hQ true s (.refl d own s) fun _ _ => rfl
  | succ k ih =>
    unfold loadFrom
    by_cases hj : j * PGSIZE < n
    · have hv : (a + j) * PGSIZE < sz := by
        rw [Nat.add_mul]
        omega
      have hv19 : a + j < 2 ^ 19 := by
        simp only [PGSIZE, KERNBASE] at *
        omega
      have hva : (a * PGSIZE + j * PGSIZE) % 2 ^ 32 = (a + j) * PGSIZE := by
        simp only [PGSIZE] at *
        omega
      have hpdx := PDX_page (v := a + j) (by omega)
      have hptx := PTX_page (a + j)
      obtain ⟨w, hw⟩ := Option.ne_none_iff_exists'.mp ((hpages _ hv19).mpr hv)
      obtain ⟨hpde, hpr, hpte⟩ := mapped_eq_some.mp hw
      rw [if_pos hj, hva, Exec.wp_bind, wp_lookup, hpdx, hptx, if_pos hpde]
      dsimp only
      rw [Exec.wp_bind, wp_load, hpte]
      have hm : (if n - j * PGSIZE < PGSIZE then n - j * PGSIZE else PGSIZE) ≤ n - j * PGSIZE := by
        split_ifs <;> omega
      generalize (if n - j * PGSIZE < PGSIZE then n - j * PGSIZE else PGSIZE) = m at hm ⊢
      have hread : offset + n ≤ file.length → file.length < 2 ^ 31 →
          ∃ bs, readFile file ((offset + j * PGSIZE) % 2 ^ 32) m = some bs ∧ bs.length = m := by
        intro hle hlt
        rw [Nat.mod_eq_of_lt (by omega), readFile, if_neg (by omega)]
        exact ⟨_, rfl, by rw [List.length_take, List.length_drop]; omega⟩
      rcases hr : readFile file _ _ with - | bs
      · refine hQ false s (.refl d own s) fun hle hlt => ?_
        obtain ⟨bs, hbs, -⟩ := hread hle hlt
        rw [hr] at hbs
        cases hbs
      · dsimp only
        rw [Exec.wp_bind, Exec.wp_modify]
        set s1 := s.setPage (w / PGSIZE) ((s.mem (w / PGSIZE)).patch 0 bs) with hs1
        have hf : Fill d own s s1 :=
          .setPage h hd hv19 hw rfl rfl fun p hp => Function.update_of_ne hp _ _
        by_cases hlen : bs.length ≠ m
        · rw [if_pos hlen]
          refine hQ false s1 hf fun hle hlt => ?_
          obtain ⟨bs', hbs, hl⟩ := hread hle hlt
          rw [hr, Option.some.injEq] at hbs
          exact absurd (hbs ▸ hl) hlen
        · have hnext : (j * PGSIZE + PGSIZE) % 2 ^ 32 = (j + 1) * PGSIZE := by
            simp only [PGSIZE]
            omega
          rw [if_neg hlen, hnext]
          exact ih (hf.owned h) (hf.userPages h hd hpages) fun r s' hf' => hQ r s' (hf.trans hf')
    · rw [if_neg hj]
      exact hQ true s (.refl d own s) fun _ _ => rfl

theorem wp_loaduvm {vaddr offset n : ℕ} {Q : Bool → Kmem → Prop}
    (h : Owned L s own) (hd : own d = .dir) (hsz : sz ≤ KERNBASE) (hpages : s.UserPages d sz)
    (halign : vaddr % PGSIZE = 0) (hn : vaddr + n ≤ sz)
    (hQ : ∀ r s', Fill d own s s' → (offset + n ≤ file.length → file.length < 2 ^ 31 → r = true) →
      Q r s') :
    Exec.wp (Kmem.loaduvm file d vaddr offset n) Q E s := by
  obtain ⟨a, rfl⟩ : ∃ a, vaddr = a * PGSIZE := ⟨vaddr / PGSIZE, by simp only [PGSIZE] at *; omega⟩
  unfold Kmem.loaduvm
  rw [if_neg (not_not_intro halign), ← Nat.zero_mul PGSIZE]
  exact wp_loadFrom h hd hsz hpages hn hQ

theorem fieldAt_lt (n : ℕ) (bs : List UInt8) (k : ℕ) : fieldAt n bs k < 256 ^ n := by
  refine (Bytes.leVal_lt _).trans_le (Nat.pow_le_pow_right (by decide) ?_)
  rw [List.length_take]
  exact min_le_left ..

theorem programSize_succ {k off : ℕ} {ph : List UInt8}
    (h : readFile file off PROGHDRSIZE = some ph) : programSize file (k + 1) off sz =
      programSize file k ((off + PROGHDRSIZE) % 2 ^ 32) (if fieldAt 4 ph 0 ≠ ELF_PROG_LOAD then sz
        else max sz ((fieldAt 4 ph 8 + fieldAt 4 ph 20) % 2 ^ 32)) := by
  rw [programSize, h]

/-- The loop over the program headers: whatever they say, the pages below the size are mapped. For a
program that is well formed it fails only when there is no memory. -/
theorem wp_loadSegments {k off : ℕ} {Q : Option ℕ → Kmem → Prop}
    (h0 : Owned L s₀ own₀) (h : Building L s₀ own₀ d s own) (hsz : sz ≤ KERNBASE)
    (hpages : s.UserPages d sz) (hfail : ∀ s' own', Building L s₀ own₀ d s' own' →
      (∀ top, WellFormed file top k off → top < KERNBASE → sz ≤ top → file.length < 2 ^ 31 →
        s.fails = [] → Exhausted L d (fun v => v * PGSIZE < top) s₀ (Function.update own₀ d .dir)) →
      Q none s')
    (hok : ∀ s' own' sz', Building L s₀ own₀ d s' own' → s'.UserPages d sz' → sz' ≤ KERNBASE →
      sz' = programSize file k off sz → (∀ i, 512 ≤ i → s'.word d i = s.word d i) →
      (s.fails = [] → s'.fails = []) → Q (some sz') s') :
    Exec.wp (loadSegments L file d k off sz) Q E s := by
  induction k generalizing s own off sz with
  | zero => exact hok s own sz h hpages hsz rfl (fun _ _ => rfl) id
  | succ k ih =>
    unfold loadSegments
    unfold WellFormed at hfail
    rcases hread : readFile file off PROGHDRSIZE with - | ph
    · refine hfail s own h fun top ⟨ph, hph, _⟩ => ?_
      rw [hread] at hph
      cases hph
    · rw [programSize_succ hread] at hok
      dsimp only
      -- a header that is refused is not well formed
      have hbad : ∀ s' own', Building L s₀ own₀ d s' own' →
          (∀ top, ¬(ph.length = PROGHDRSIZE ∧ (fieldAt 4 ph 0 = ELF_PROG_LOAD →
            fieldAt 4 ph 16 ≤ fieldAt 4 ph 20 ∧ 0 < fieldAt 4 ph 8 + fieldAt 4 ph 20 ∧
            fieldAt 4 ph 8 + fieldAt 4 ph 20 ≤ top ∧ fieldAt 4 ph 8 % PGSIZE = 0 ∧
            fieldAt 4 ph 4 + fieldAt 4 ph 16 ≤ file.length) ∧ top < KERNBASE ∧
            file.length < 2 ^ 31)) → Q none s' := by
        intro s' own' h' hnot
        refine hfail s' own' h' fun top ⟨ph', hph, hlen, hseg, _⟩ htop _ hfile => ?_
        rw [hread, Option.some.injEq] at hph
        subst hph
        exact absurd ⟨hlen, hseg, htop, hfile⟩ (hnot top)
      have hrest : ∀ {s1 : Kmem} {sz1 : ℕ}, (s.fails = [] → s1.fails = []) → (∀ top, sz ≤ top →
            WellFormed file top (k + 1) off → sz1 ≤ top) → ∀ s' own', Building L s₀ own₀ d s' own' →
          (∀ top, WellFormed file top k ((off + PROGHDRSIZE) % 2 ^ 32) → top < KERNBASE →
            sz1 ≤ top → file.length < 2 ^ 31 → s1.fails = [] →
            Exhausted L d (fun v => v * PGSIZE < top) s₀ (Function.update own₀ d .dir)) →
          Q none s' := by
        intro s1 sz1 hfails hle s' own' h' hexh
        refine hfail s' own' h' fun top hwf htop hsz' hfile hnil => ?_
        exact hexh top hwf.choose_spec.2.2.2 htop (hle top hsz' hwf) hfile (hfails hnil)
      have hseg : ∀ {top}, WellFormed file top (k + 1) off → fieldAt 4 ph 0 = ELF_PROG_LOAD →
          fieldAt 4 ph 8 + fieldAt 4 ph 20 ≤ top := by
        rintro top ⟨ph', hph, -, hseg, -⟩ htype
        rw [hread, Option.some.injEq] at hph
        subst hph
        exact (hseg htype).2.2.1
      set vaddr := fieldAt 4 ph 8
      set filesz := fieldAt 4 ph 16
      set memsz := fieldAt 4 ph 20
      by_cases hlen : ph.length ≠ PROGHDRSIZE
      · rw [if_pos hlen]
        exact hbad s own h fun _ hwf => hlen hwf.1
      · rw [if_neg hlen]
        by_cases htype : fieldAt 4 ph 0 ≠ ELF_PROG_LOAD
        · rw [if_pos htype] at hok ⊢
          exact ih h hsz hpages (hrest id fun _ hle _ => hle) hok
        · rw [if_neg htype] at hok ⊢
          rw [not_not] at htype
          by_cases hmem : memsz < filesz
          · rw [if_pos hmem]
            exact hbad s own h fun _ hwf => absurd (hwf.2.1 htype).1 (not_le.mpr hmem)
          · have hv := fieldAt_lt 4 ph 8
            have hm := fieldAt_lt 4 ph 20
            rw [if_neg hmem]
            by_cases hwrap : (vaddr + memsz) % 2 ^ 32 < vaddr
            · rw [if_pos hwrap]
              refine hbad s own h fun top hwf => ?_
              have := (hwf.2.1 htype).2.2.1
              have := hwf.2.2.1
              simp only [KERNBASE] at this
              omega
            · rw [if_neg hwrap, Exec.wp_bind]
              have hnew : (vaddr + memsz) % 2 ^ 32 = vaddr + memsz := by omega
              rw [hnew] at hok ⊢
              refine wp_allocuvm_building h hsz hpages (fun s1 own1 h1 hexh => ?_)
                fun s1 own1 sz1 h1 hpages1 hsz1 hlt hmax hdirs hfails _ => ?_
              · rw [if_pos rfl]
                refine hfail s1 own1 h1 fun top hwf htop hsz' _ hnil => ?_
                have hle := hseg hwf htype
                refine .of_grow h.grow (fun q v hq => .inr ?_)
                  ((hexh hnil (by omega)).mono fun v hv => by omega)
                obtain ⟨hv, w, hw, -⟩ := h.owned.mapped_of_user hq
                exact lt_of_lt_of_le ((hpages v hv).mp (by simp [hw])) hsz'
              · by_cases hzero : sz1 = 0
                · rw [if_pos hzero]
                  refine hbad s1 own1 h1 fun _ hwf => ?_
                  have := (hwf.2.1 htype).2.1
                  have : vaddr + memsz ≤ sz1 := hmax ▸ le_max_right ..
                  omega
                · rw [if_neg hzero]
                  by_cases halign : vaddr % PGSIZE ≠ 0
                  · rw [if_pos halign]
                    exact hbad s1 own1 h1 fun _ hwf => halign (hwf.2.1 htype).2.2.2.1
                  · -- the segment ends at or below the size, so its pages are there
                    have hend : vaddr + filesz ≤ sz1 := by
                      have : vaddr + memsz ≤ sz1 := hmax ▸ le_max_right ..
                      omega
                    rw [if_neg halign, Exec.wp_bind]
                    refine wp_loaduvm h1.owned h1.dir hsz1 hpages1 (not_not.mp halign) hend
                      fun r s2 hf hread' => ?_
                    have h2 := h1.fill h0 hf
                    cases r with
                    | false =>
                      refine hbad s2 own1 h2 fun _ hwf => ?_
                      exact absurd (hread' (hwf.2.1 htype).2.2.2.2 hwf.2.2.2) Bool.false_ne_true
                    | true =>
                      have hfails2 : s.fails = [] → s2.fails = [] := fun hnil =>
                        hf.fails.trans (hfails hnil)
                      refine ih h2 hsz1 (hf.userPages h1.owned h1.dir hpages1)
                        (hrest hfails2 fun _ hle hwf => hmax ▸ max_le hle (hseg hwf htype))
                        fun s3 own3 sz3 h3 hpages3 hsz3 hsize hdirs3 hfails3 =>
                          hok s3 own3 sz3 h3 hpages3 hsz3 (hmax ▸ hsize) (fun i hi => ?_)
                            fun hnil => hfails3 (hfails2 hnil)
                      rw [hdirs3 i hi, hf.word h1.dir, hdirs i hi]

end Rules

end Xv6
