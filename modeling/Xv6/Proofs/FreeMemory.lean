import Xv6.Proofs.Growproc

/-! How many pages a page directory takes, and processes that leave memory free. -/

open Function List Exec

namespace Xv6

open Kmem

variable {L : Layout} {s : Kmem} {own : ℕ → Role} {d a k n : ℕ} {l : List ℕ} {R : ℕ → Prop}

theorem length_pages_le (h : Owned L s own) {q : ℕ} (hnd : l.Nodup)
    (hl : ∀ p ∈ l, p = q ∨ (∃ i, own p = .table d i) ∨ ∃ v, own p = .user d v ∧ a ≤ v ∧ v < a + k) :
    l.length ≤ 1025 + k := by
  have hsub : l.toFinset ⊆ insert q ((Finset.range 1024).image (fun i => s.word d i / PGSIZE) ∪
      (Finset.Ico a (a + k)).image fun v => (s.mapped d v).getD 0 / PGSIZE) := by
    intro p hp
    simp only [Finset.mem_insert, Finset.mem_union, Finset.mem_image, Finset.mem_range,
      Finset.mem_Ico]
    rcases hl p (mem_toFinset.mp hp) with hq | ⟨i, ht⟩ | ⟨v, hu, hv⟩
    · exact .inl hq
    · obtain ⟨hi, -, -, hdiv⟩ := h.table p d i ht
      exact .inr (.inl ⟨i, hi, hdiv⟩)
    · obtain ⟨-, w, hw, hdiv⟩ := h.mapped_of_user hu
      exact .inr (.inr ⟨v, hv, by rw [hw]; exact hdiv⟩)
  calc l.length = l.toFinset.card := (toFinset_card_of_nodup hnd).symm
    _ ≤ _ := Finset.card_le_card hsub
    _ ≤ _ + 1 := Finset.card_insert_le ..
    _ ≤ (1024 + k) + 1 := by
      refine Nat.add_le_add_right ((Finset.card_union_le ..).trans (Nat.add_le_add ?_ ?_)) 1
      · exact Finset.card_image_le.trans_eq (Finset.card_range 1024)
      · exact Finset.card_image_le.trans_eq (by simp)
    _ = 1025 + k := by ring

theorem Exhausted.length_le (he : Exhausted L d R s own)
    (hR : ∀ v, R v → a ≤ v ∧ v < a + k) (hnd : l.Nodup)
    (hl : ∀ p ∈ l, own p = .free) : l.length ≤ 1025 + k := by
  obtain ⟨s', own', q, ho, hg, hempty, hheld, huser⟩ := he
  have hused : ∀ p, own' p ≠ .free := by
    intro p hp
    rw [← ho.free, hempty] at hp
    cases hp
  refine length_pages_le (d := d) (a := a) (q := q) ho hnd fun p hp => ?_
  rcases hg.new p with e | ⟨-, e | e | e | ⟨v, e⟩⟩
  · exact absurd (e.trans (hl p hp)) (hused p)
  · exact absurd e (hused p)
  · exact .inl (hheld p e)
  · exact .inr (.inl e)
  · rcases huser p v e with e' | hv
    · exact absurd ((hl p hp).symm.trans e') (by simp)
    · exact .inr (.inr ⟨v, e, hR v hv⟩)

theorem not_exhausted (h : Owned L s own) (hlen : 1026 + k < s.freelist.length)
    (hR : ∀ v, R v → v < k) : ¬Exhausted L d R s (update own d .dir) := by
  intro he
  have hle := he.length_le (a := 0) (k := k) (fun v hv => ⟨Nat.zero_le v, by have := hR v hv; omega⟩)
    (h.nodup.erase d) fun p hp => ?_
  · have : s.freelist.length ≤ (s.freelist.erase d).length + 1 := by
      rw [length_erase]
      split_ifs <;> omega
    omega
  · have hpd : p ≠ d := by
      rintro rfl
      exact (h.nodup.mem_erase_iff.mp hp).1 rfl
    rw [update_of_ne hpd]
    exact (h.free p).mp (mem_of_mem_erase hp)

def wideLayout : Layout where
  data := 257
  endp := 257
  data_gt := smallLayout.data_gt
  data_le := le_rfl
  endp_le := by decide

theorem managed_wideLayout (p : ℕ) : Managed wideLayout p ↔ 257 ≤ p ∧ p < 57344 := Iff.rfl

theorem exists_emptyProcess : ∃ own, Owned wideLayout (blankMem (range' 258 57086)) own ∧
    NoHeld own ∧ own 257 = .dir ∧ ∀ p, p = 257 ∨ own p = .free ∨ own p = .outside := by
  have h0 : Owned wideLayout (blankMem (range' 257 57087)) _ :=
    owned_blankMem (fun p => by rw [managed_wideLayout, mem_range'_1]) nodup_range'
  obtain ⟨-, h1⟩ := h0.take (p := 257) range'_succ
    (rfl : (blankMem (range' 258 57086)).freelist = _) rfl
  have h2 := h1.reassign (p := 257) (r := .dir) (by simp) (by simp) (by simp) (by simp) (by simp)
    fun i _ => blankMem_absent _ _ _
  rw [update_idem] at h2
  refine ⟨_, h2, fun p => ?_, update_self .., fun p => ?_⟩
  · rw [update_apply]
    split_ifs <;> simp
  · rw [update_apply]
    split_ifs <;> simp [*]

/-- A process of `n` pages of zeroes: its pages, and the free pages, are all there is. -/
structure Roomy (n : ℕ) (s : Kmem) (own : ℕ → Role) : Prop where
  owned : Owned wideLayout s own
  noHeld : NoHeld own
  dir : own 257 = .dir
  pages : s.UserPages 257 (n * PGSIZE)
  fails : s.fails = []
  roles : ∀ p, own p = .free ∨ own p = .outside ∨ p = 257 ∨ (∃ i, own p = .table 257 i) ∨
    ∃ v, own p = .user 257 v ∧ 0 ≤ v ∧ v < 0 + n
  zero : ∀ v < n, ∃ w, s.mapped 257 v = some w ∧ s.mem (w / PGSIZE) = Buffer.zero

theorem exists_roomy (hn : n ≤ 2 ^ 15) : ∃ s own, Roomy n s own := by
  obtain ⟨own, h, hno, hd, hroles⟩ := exists_emptyProcess
  have hnone : ∀ v, (blankMem (range' 258 57086)).mapped 257 v = none := fun v =>
    Owned.mapped_of_absent (blankMem_absent _ _ _)
  have hlen : (blankMem (range' 258 57086)).freelist.length = 57086 := length_range'
  have hfails : (blankMem (range' 258 57086)).fails = [] := rfl
  generalize blankMem (range' 258 57086) = s0 at h hnone hlen hfails
  have hpages : s0.UserPages 257 0 := by
    intro v _
    simp [hnone v]
  have hrun : wp (allocuvm wideLayout 257 0 (n * PGSIZE)) (fun _ s => ∃ own, Roomy n s own)
      (fun _ _ => False) s0 := by
    have hup : (n * PGSIZE + PGSIZE - 1) / PGSIZE = n := by
      simp only [PGSIZE]
      omega
    have hzero : (0 + PGSIZE - 1) / PGSIZE = 0 := rfl
    refine wp_allocuvm h hd hno (fun v _ _ => hnone v) (fun hge => ?_) (fun _ hlt => by omega)
      (fun s own' _ _ _ _ hexh => ?_) fun s own' hlt hle ho ha => ⟨own', ?_⟩
    · simp only [KERNBASE, PGSIZE] at hge
      omega
    · have hle := (hexh hfails).length_le (a := 0) (k := n) (fun v hv => ?_) h.nodup
        fun p hp => (h.free p).mp hp
      · omega
      · have := hv.2
        simp only [PGSIZE] at this
        omega
    · have hgrown := grown_of_added (n := ((n * PGSIZE : ℕ) : ℤ)) h hd hle hlt hpages ha (by simp)
      rw [hup, hzero] at ha
      refine ⟨ho, ha.noHeld, ha.dir hd, hgrown.pages, ha.fails hfails, fun p => ?_, fun v hv => ?_⟩
      · rcases ha.new p with e | ⟨-, e | e | e | ⟨v, e⟩⟩
        · rw [e]
          rcases hroles p with hp | hp | hp
          · exact .inr (.inr (.inl hp))
          · exact .inl hp
          · exact .inr (.inl hp)
        · exact .inl e
        · exact absurd e (ha.noHeld p)
        · exact .inr (.inr (.inr (.inl e)))
        · obtain ⟨hv, w, hw, -⟩ := ho.mapped_of_user e
          have hlt := (hgrown.pages v hv).mp (by simp [hw])
          refine .inr (.inr (.inr (.inr ⟨v, e, Nat.zero_le v, ?_⟩)))
          simp only [PGSIZE] at hlt
          omega
      · obtain ⟨f, hf, hfz, -⟩ := ha.fresh v (Nat.zero_le _) hv
        exact ⟨_, hf, by rw [entry_div f (by decide), hfz]⟩
  obtain ⟨-, s, -, own', hall⟩ := hrun.exists_ok
  exact ⟨s, own', hall⟩

theorem Roomy.length_freelist (h : Roomy n s own) : 57087 ≤ s.freelist.length + (1025 + n) := by
  classical
  have hused : ((range' 257 57087).filter (own · ≠ .free)).length ≤ 1025 + n := by
    refine length_pages_le (d := 257) (a := 0) (q := 257) h.owned (List.Nodup.filter _ nodup_range')
      fun p hp => ?_
    obtain ⟨hp, hpf⟩ := mem_filter.mp hp
    rcases h.roles p with e | e | e
    · simp [e] at hpf
    · rw [h.owned.outside, managed_wideLayout] at e
      rw [mem_range'_1] at hp
      omega
    · exact e
  have hfree : ((range' 257 57087).filter fun p => ¬(own p ≠ .free)).length ≤
      s.freelist.length := by
    refine ((List.Nodup.filter _ nodup_range').subperm fun p hp => ?_).length_le
    have hp := (mem_filter.mp hp).2
    exact (h.owned.free p).mpr (by simpa using hp)
  have hall := length_eq_length_filter_add (l := range' 257 57087) (own · ≠ .free)
  rw [length_range'] at hall
  simp only [decide_not] at *
  omega

end Xv6
