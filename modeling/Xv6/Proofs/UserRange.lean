import Xv6.Proofs.FreeMemory

/-! `allocuvm` and `deallocuvm` against the range of user pages they are asked for. -/

namespace Xv6

open Kmem

variable {L : Layout} {s s' : Kmem} {own own' : ℕ → Role} {d oldsz newsz : ℕ}

/-- `allocuvm` succeeded: the pages up to the larger size are mapped, the old ones as before, and
the new ones are zero. -/
structure Extended (s s' : Kmem) (d oldsz newsz : ℕ) : Prop where
  pages : s'.UserPages d (max oldsz newsz)
  same : s.SameBelow s' d oldsz
  zero : ∀ v, oldsz ≤ v * PGSIZE → v * PGSIZE < newsz →
    ∃ pte, s'.mapped d v = some pte ∧ s'.mem (pte / PGSIZE) = Buffer.zero

/-- `allocuvm` failed: user memory is as before, and the pages it took are on the free list again,
but for page tables. -/
structure TakenBack (s s' : Kmem) (d : ℕ) : Prop where
  same : s.SameBelow s' d KERNBASE
  back : ∀ p ∈ s.freelist, p ∈ s'.freelist ∨ ∃ i < 1024, present (s'.word d i) ∧ s'.word d i / PGSIZE = p
  only : ∀ p ∈ s'.freelist, p ∈ s.freelist
  once : s'.freelist.Nodup

/-- `deallocuvm` freed the pages `R` that were mapped, once each, and nothing else has changed. -/
structure Dropped (s s' : Kmem) (d : ℕ) (R : ℕ → Prop) : Prop where
  unmapped : ∀ v < 2 ^ 19, R v → s'.mapped d v = none
  mapped : ∀ v < 2 ^ 20, ¬R v → s'.mapped d v = s.mapped d v
  freed : ∀ p, p ∈ s'.freelist ↔
    p ∈ s.freelist ∨ ∃ v < 2 ^ 19, R v ∧ ∃ pte, s.mapped d v = some pte ∧ pte / PGSIZE = p
  once : s'.freelist.Nodup
  mem : ∀ p, p ∉ s'.freelist → (∀ i < 1024, s.word d i / PGSIZE ≠ p) → s'.mem p = s.mem p

theorem takenBack_of_undone {R : ℕ → Prop} (h : Owned L s own) (hd : own d = .dir)
    (hR : ∀ v < 2 ^ 19, R v → s.mapped d v = none) (h' : Owned L s' own')
    (hu : Undone d R s s' own own') : TakenBack s s' d := by
  refine ⟨sameBelow_of_undone h hd hR hu, fun p hp => ?_, fun p hp => ?_, h'.nodup⟩
  · rcases hu.free p ((h.free p).mp hp) with hfree | ⟨i, hi⟩
    · exact .inl ((h'.free p).mpr hfree)
    · obtain ⟨hlt, -, hpres, hpage⟩ := h'.table p d i hi
      exact .inr ⟨i, hlt, hpres, hpage⟩
  · rw [h.free]
    by_contra hne
    have hkept := hu.kept p hne fun v hv hp => ?_
    · rw [(h'.free p).mp hp] at hkept
      exact hne hkept.symm
    · obtain ⟨hlt, w, hw, -⟩ := h.mapped_of_user hp
      rw [hR v hlt hv] at hw
      cases hw

theorem dropped_of_shrunk {R : ℕ → Prop} (h : Owned L s own) (hd : own d = .dir)
    (h' : Owned L s' own') (hs : Shrunk d R s s' own own') : Dropped s s' d R := by
  refine ⟨fun v hv => hs.unmapped v (by omega), hs.mapped, fun p => ?_, h'.nodup, fun p hp ht => ?_⟩
  · rw [h'.free, h.free]
    constructor
    · intro hp
      by_cases hu : ∃ v, R v ∧ own p = .user d v
      · obtain ⟨v, hR, hrole⟩ := hu
        obtain ⟨hlt, w, hw, hpage⟩ := h.mapped_of_user hrole
        exact .inr ⟨v, hlt, hR, w, hw, hpage⟩
      · rw [← hs.kept p fun v hR hrole => hu ⟨v, hR, hrole⟩, hp]
        exact .inl rfl
    · rintro (hp | ⟨v, hlt, hR, pte, hm, rfl⟩)
      · rw [hs.kept p (by simp [hp]), hp]
      · exact hs.gone _ v hR (h.user_of_mapped hd hlt hm).2
  · refine hs.mem p (fun v hR hrole => hp ((h'.free p).mpr (hs.gone p v hR hrole))) fun i hi => ?_
    obtain ⟨hlt, -, -, hpage⟩ := h.table p d i hi
    exact ht i hlt hpage

/-- For a process of size `oldsz`: `allocuvm` extends its memory to `newsz` or takes everything
back, whatever calls of `kalloc` fail, and `deallocuvm` drops the pages of any range below
KERNBASE. -/
theorem user_range_exact (h : Owned L s own) (hd : own d = .dir) (hno : NoHeld own)
    (hpages : s.UserPages d oldsz) (newsz : ℕ) :
    (∃ r s', allocuvm L d oldsz newsz s = .ok r s' ∧
      (r = max oldsz newsz ∧ Extended s s' d oldsz newsz ∨ r = 0 ∧ TakenBack s s' d)) ∧
    ∀ top ≤ KERNBASE, ∃ r s', deallocuvm L d top newsz s = .ok r s' ∧
      Dropped s s' d fun v => newsz ≤ v * PGSIZE ∧ v * PGSIZE < top := by
  have hnot : ∀ v < 2 ^ 19, oldsz ≤ v * PGSIZE → s.mapped d v = none := by
    intro v hv hle
    by_contra hm
    exact absurd ((hpages v hv).mp hm) (not_lt.mpr hle)
  have hrefl : TakenBack s s d :=
    ⟨⟨fun _ _ _ => rfl, fun _ _ => rfl⟩, fun p hp => .inl hp, fun p hp => hp, h.nodup⟩
  constructor
  · apply Exec.wp.exists_ok
    refine wp_allocuvm h hd hno hnot (fun _ => .inr ⟨rfl, hrefl⟩) (fun _ hlt => ?_)
      (fun s1 own1 _ _ ho hu _ => ?_) fun s1 own1 hlt hle ho ha => ?_
    · refine .inl ⟨(max_eq_left hlt.le).symm, ?_, ⟨fun _ _ _ => rfl, fun _ _ => rfl⟩,
        fun v hv hv' => absurd hv' (by omega)⟩
      rwa [max_eq_left hlt.le]
    · exact .inr ⟨rfl, takenBack_of_undone h hd (fun v hv hR => hnot v hv hR.1) ho hu⟩
    · have hgrown := grown_of_added (n := newsz - oldsz) h hd hle hlt hpages ha (by ring)
      refine .inl ⟨(max_eq_right hle).symm, ?_, ?_, hgrown.zero⟩
      · rw [max_eq_right hle]
        exact hgrown.pages
      · rw [← min_eq_left hle]
        exact hgrown.same
  · intro top htop
    apply Exec.wp.exists_ok
    exact wp_deallocuvm h hd htop fun s1 own1 ho hs => dropped_of_shrunk h hd ho hs

theorem user_range_exact_roomy : ∃ s own, Roomy 1 s own ∧
    (∃ s', allocuvm wideLayout 257 PGSIZE (3 * PGSIZE) s = .ok (3 * PGSIZE) s' ∧
      Extended s s' 257 PGSIZE (3 * PGSIZE)) ∧
    ∃ r s', deallocuvm wideLayout 257 PGSIZE 0 s = .ok r s' ∧ s'.mapped 257 0 = none := by
  obtain ⟨s, own, h⟩ := exists_roomy (n := 1) (by decide)
  have hpages : s.UserPages 257 PGSIZE := Nat.one_mul PGSIZE ▸ h.pages
  obtain ⟨⟨r, s', hrun, hr⟩, -⟩ := user_range_exact h.owned h.dir h.noHeld hpages (3 * PGSIZE)
  obtain ⟨-, hdrop⟩ := user_range_exact h.owned h.dir h.noHeld hpages 0
  obtain ⟨r', t, hrun', ht⟩ := hdrop PGSIZE (by decide)
  have hlen := h.length_freelist
  have hne : Exec.wp (allocuvm wideLayout 257 PGSIZE (3 * PGSIZE)) (fun r _ => r ≠ 0)
      (fun _ _ => True) s := by
    refine wp_allocuvm h.owned h.dir h.noHeld (fun v hv hle => ?_) (fun hge => absurd hge (by decide))
      (fun _ _ => by decide) (fun s1 own1 _ _ _ _ hexh => ?_) fun _ _ _ _ _ _ => by decide
    · by_contra hm
      exact absurd ((hpages v hv).mp hm) (not_lt.mpr hle)
    · have hle := (hexh h.fails).length_le (a := 1) (k := 2) (fun v hv => ?_) h.owned.nodup
        fun p hp => (h.owned.free p).mp hp
      · omega
      · simp only [PGSIZE] at hv
        omega
  refine ⟨s, own, h, ?_, r', t, hrun', ht.unmapped 0 (by decide) (by decide)⟩
  rcases hr with ⟨rfl, hext⟩ | ⟨rfl, -⟩
  · exact ⟨s', hrun, hext⟩
  · exact absurd rfl (hne.of_ok hrun)

end Xv6
