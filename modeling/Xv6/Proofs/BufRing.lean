import Xv6.Spec.Bio

/-! The structure of the buffer cache: the list of buffers, their identities and their
reference counts. Each piece of `bget` and `brelse` that runs under `bcache.lock` keeps it,
and nothing else touches it. -/

open Function List

namespace Xv6.Bio

variable {P : Type} {s s' : Bio P} {p : P} {i j : Fin NBUF} {dev blockno : ℕ}

@[simp] theorem setBuf_self (s : Bio P) (i : Fin NBUF) (b : Buf P) : (s.setBuf i b).buf i = b :=
  update_self ..

theorem setBuf_of_ne {b : Buf P} (h : j ≠ i) : (s.setBuf i b).buf j = s.buf j :=
  update_of_ne h ..

@[simp] theorem setBuf_setBuf (s : Bio P) (i : Fin NBUF) (b b' : Buf P) :
    (s.setBuf i b).setBuf i b' = s.setBuf i b' := by
  simp [setBuf]

/-- The list of buffers from the head on, sorted by the time of the last release as far as
the unused buffers go. -/
structure Order (s : Bio P) (order : List (Fin NBUF)) : Prop where
  cycle : s.ring.Cycle none (order.map some)
  all : ∀ i, i ∈ order
  sorted : order.Pairwise fun i j =>
    (s.buf i).refcnt = 0 → (s.buf j).refcnt = 0 → s.released j ≤ s.released i

structure Wf (s : Bio P) : Prop where
  order : ∃ order, s.Order order
  stamp : ∀ i, s.released i ≤ s.clock
  uniq : ∀ i j, (s.buf i).dev = ROOTDEV → (s.buf j).dev = ROOTDEV →
    (s.buf i).blockno = (s.buf j).blockno → i = j
  count : ∀ i, (s.buf i).refcnt = s.users.countP (·.2 = i)
  locked : ∀ i p, (s.buf i).lock = some p → (p, i) ∈ s.users

variable {order : List (Fin NBUF)}

theorem Order.nodup (h : s.Order order) : order.Nodup :=
  (nodup_cons.mp h.cycle.nodup).2.of_map _

theorem Order.length (h : s.Order order) : order.length = NBUF := by
  have hperm : order.Perm (finRange NBUF) :=
    (perm_ext_iff_of_nodup h.nodup (nodup_finRange NBUF)).mpr fun i => by simp [h.all i]
  rw [hperm.length_eq, length_finRange]

theorem find_map_some (test : Fin NBUF → Bool) (l : List (Fin NBUF)) :
    ((l.map some).find? fun b => b.any test).join = l.find? test := by
  have hcomp : (fun b : Option (Fin NBUF) => b.any test) ∘ some = test := rfl
  rw [find?_map, hcomp]
  cases l.find? test <;> rfl

theorem Order.cached (h : s.Order order) : s.cached dev blockno =
      order.find? fun i => (s.buf i).dev == dev && (s.buf i).blockno == blockno := by
  rw [Bio.cached, h.cycle.find_next _ (by simp [h.length]), find_map_some]

theorem Order.unused (h : s.Order order) :
    s.unused = order.reverse.find? fun i => (s.buf i).refcnt == 0 && !(s.buf i).dirty := by
  rw [Bio.unused, h.cycle.find_prev _ (by simp [h.length]), ← map_reverse, find_map_some]

theorem Wf.cached_some (h : s.Wf) (hc : s.cached dev blockno = some i) :
    (s.buf i).dev = dev ∧ (s.buf i).blockno = blockno := by
  obtain ⟨order, ho⟩ := h.order
  rw [ho.cached] at hc
  simpa using find?_some hc

theorem Wf.cached_none (h : s.Wf) (hc : s.cached dev blockno = none) (i : Fin NBUF) :
    ¬((s.buf i).dev = dev ∧ (s.buf i).blockno = blockno) := by
  obtain ⟨order, ho⟩ := h.order
  rw [ho.cached, find?_eq_none] at hc
  simpa using hc i (ho.all i)

/-- The buffer that `bget` recycles is unused, and no unused buffer was released before it. -/
theorem Wf.unused_some (h : s.Wf) (hu : s.unused = some i) :
    s.Free i ∧ ∀ j, s.Free j → s.released i ≤ s.released j := by
  obtain ⟨order, ho⟩ := h.order
  rw [ho.unused] at hu
  have hfree : s.Free i := by simpa [Free] using find?_some hu
  refine ⟨hfree, fun j hj => ?_⟩
  obtain ⟨-, l1, l2, heq, hnone⟩ := find?_eq_some_iff_append.mp hu
  -- the list is `l2` backwards, then `i`, then the buffers that were passed over
  have horder : order = l2.reverse ++ i :: l1.reverse := by
    simpa using congrArg reverse heq
  have hsorted := ho.sorted
  rw [horder, pairwise_append] at hsorted
  obtain ⟨-, -, hcross⟩ := hsorted
  have hmem := ho.all j
  rw [horder, mem_append, mem_cons] at hmem
  rcases hmem with hm | rfl | hm
  · exact hcross j hm i (by simp) hj.1 hfree.1
  · exact le_rfl
  · have hpass := hnone j (mem_reverse.mp hm)
    simp [hj.1, hj.2] at hpass

theorem Wf.unused_none (h : s.Wf) (hu : s.unused = none) (i : Fin NBUF) : ¬s.Free i := by
  obtain ⟨order, ho⟩ := h.order
  rw [ho.unused, find?_eq_none] at hu
  have := hu i (by simpa using ho.all i)
  simp only [Bool.and_eq_true, beq_iff_eq, Bool.not_eq_true'] at this
  exact this

/-! ### The initial state -/

theorem cycle_initRing (l xs : List (Fin NBUF)) (r : LinkRing (Option (Fin NBUF)))
    (hc : r.Cycle none (xs.map some)) (hnd : (l.reverse ++ xs).Nodup) :
    (l.foldl (fun r i => r.insertAfter none (some i)) r).Cycle none ((l.reverse ++ xs).map some) := by
  induction l generalizing r xs with
  | nil => simpa using hc
  | cons i l ih =>
    rw [reverse_cons, append_assoc] at hnd ⊢
    refine ih (i :: xs) _ (hc.insertAfter ?_) hnd
    have hi : i ∉ xs := (nodup_cons.mp (nodup_append.mp hnd).2.1).1
    simpa using hi

theorem wf_binit (start size disksize : ℕ) (disk : ℕ → Block) :
    (binit start size disksize disk : Bio P).Wf where
  order := by
    refine ⟨(finRange NBUF).reverse, ?_, fun i => by simp, ?_⟩
    · have hnil : (⟨fun _ => none, fun _ => none⟩ : LinkRing (Option (Fin NBUF))).Cycle none
          (([] : List (Fin NBUF)).map some) := ⟨⟨rfl, rfl⟩, by simp⟩
      have := cycle_initRing (finRange NBUF) [] _ hnil (by simpa using nodup_finRange NBUF)
      rwa [append_nil] at this
    · exact pairwise_of_forall fun i j _ _ => le_rfl
  stamp := fun _ => le_rfl
  uniq := fun i j hi => by simp [binit, ROOTDEV] at hi
  count := fun i => rfl
  locked := fun i p hl => by simp [binit] at hl

/-! ### The critical sections -/

theorem Wf.congr (h : s.Wf) (hring : s'.ring = s.ring) (husers : s'.users = s.users)
    (hrel : s'.released = s.released) (hclock : s'.clock = s.clock)
    (hdev : ∀ i, (s'.buf i).dev = (s.buf i).dev) (hno : ∀ i, (s'.buf i).blockno = (s.buf i).blockno)
    (hcnt : ∀ i, (s'.buf i).refcnt = (s.buf i).refcnt)
    (hlock : ∀ i p, (s'.buf i).lock = some p → (p, i) ∈ s.users) : s'.Wf where
  order := by
    obtain ⟨order, ho⟩ := h.order
    refine ⟨order, by rw [hring]; exact ho.cycle, ho.all, ?_⟩
    simp only [hcnt, hrel]
    exact ho.sorted
  stamp := by
    rw [hrel, hclock]
    exact h.stamp
  uniq := by
    simp only [hdev, hno]
    exact h.uniq
  count := by
    simp only [hcnt, husers]
    exact h.count
  locked := by
    rw [husers]
    exact hlock

theorem Wf.update {b : Buf P} (h : s.Wf) (hbuf : s'.buf = update s.buf i b)
    (hring : s'.ring = s.ring) (husers : s'.users = s.users) (hrel : s'.released = s.released)
    (hclock : s'.clock = s.clock) (hdev : b.dev = (s.buf i).dev)
    (hno : b.blockno = (s.buf i).blockno) (hcnt : b.refcnt = (s.buf i).refcnt)
    (hlock : ∀ q, b.lock = some q → (q, i) ∈ s.users) : s'.Wf := by
  have hself : s'.buf i = b := by rw [hbuf, update_self]
  have hother : ∀ j, j ≠ i → s'.buf j = s.buf j := fun j hj => by rw [hbuf, update_of_ne hj]
  have hsame : ∀ j, (s'.buf j).dev = (s.buf j).dev ∧ (s'.buf j).blockno = (s.buf j).blockno ∧
      (s'.buf j).refcnt = (s.buf j).refcnt := fun j => by
    by_cases hj : j = i
    · subst hj
      rw [hself]
      exact ⟨hdev, hno, hcnt⟩
    · simp [hother j hj]
  refine h.congr hring husers hrel hclock (fun j => (hsame j).1) (fun j => (hsame j).2.1)
    (fun j => (hsame j).2.2) fun j q hj => ?_
  by_cases hji : j = i
  · subst hji
    rw [hself] at hj
    exact hlock q hj
  · rw [hother j hji] at hj
    exact h.locked j q hj

theorem Wf.ref (h : s.Wf) (p : P) (i : Fin NBUF) : (s.ref p i).Wf where
  order := by
    obtain ⟨order, ho⟩ := h.order
    refine ⟨order, ho.cycle, ho.all, ho.sorted.imp fun {a b} hab ha hb => hab ?_ ?_⟩
    · by_cases hai : a = i
      · subst hai
        simp [Bio.ref] at ha
      · simpa [Bio.ref, setBuf_of_ne hai] using ha
    · by_cases hbi : b = i
      · subst hbi
        simp [Bio.ref] at hb
      · simpa [Bio.ref, setBuf_of_ne hbi] using hb
  stamp := h.stamp
  uniq := by
    have hsame : ∀ j, ((s.ref p i).buf j).dev = (s.buf j).dev ∧
        ((s.ref p i).buf j).blockno = (s.buf j).blockno := fun j => by
      by_cases hj : j = i
      · subst hj
        simp [Bio.ref]
      · simp [Bio.ref, setBuf_of_ne hj]
    simp only [fun j => (hsame j).1, fun j => (hsame j).2]
    exact h.uniq
  count := fun j => by
    by_cases hj : j = i
    · subst hj
      simp [Bio.ref, h.count j]
    · simp [Bio.ref, setBuf_of_ne hj, h.count j, Ne.symm hj]
  locked := fun j q hl => by
    refine mem_cons_of_mem _ (h.locked j q ?_)
    by_cases hj : j = i
    · subst hj
      simpa [Bio.ref] using hl
    · simpa [Bio.ref, setBuf_of_ne hj] using hl

theorem Wf.recycle (h : s.Wf) (p : P) (hc : s.cached dev blockno = none) (hf : s.Free i) :
    (s.recycle p i dev blockno).Wf where
  order := by
    obtain ⟨order, ho⟩ := h.order
    refine ⟨order, ho.cycle, ho.all, ho.sorted.imp fun {a b} hab ha hb => hab ?_ ?_⟩
    · by_cases hai : a = i
      · subst hai
        exact hf.1
      · simpa [Bio.recycle, setBuf_of_ne hai] using ha
    · by_cases hbi : b = i
      · subst hbi
        exact hf.1
      · simpa [Bio.recycle, setBuf_of_ne hbi] using hb
  stamp := h.stamp
  uniq := fun a b ha hb hab => by
    by_cases hai : a = i
    · by_cases hbi : b = i
      · rw [hai, hbi]
      · subst hai
        simp only [Bio.recycle, setBuf_self, setBuf_of_ne hbi] at ha hb hab
        exact absurd ⟨hb.trans ha.symm, hab.symm⟩ (h.cached_none hc b)
    · by_cases hbi : b = i
      · subst hbi
        simp only [Bio.recycle, setBuf_self, setBuf_of_ne hai] at ha hb hab
        exact absurd ⟨ha.trans hb.symm, hab⟩ (h.cached_none hc a)
      · simp only [Bio.recycle, setBuf_of_ne hai, setBuf_of_ne hbi] at ha hb hab
        exact h.uniq a b ha hb hab
  count := fun j => by
    by_cases hj : j = i
    · subst hj
      have := h.count j
      rw [hf.1] at this
      simp [Bio.recycle, ← this]
    · simp [Bio.recycle, setBuf_of_ne hj, h.count j, Ne.symm hj]
  locked := fun j q hl => by
    refine mem_cons_of_mem _ (h.locked j q ?_)
    by_cases hj : j = i
    · subst hj
      simpa [Bio.recycle] using hl
    · simpa [Bio.recycle, setBuf_of_ne hj] using hl

theorem Order.toFront (h : s.Order order) (i : Fin NBUF) :
    ((s.ring.unlink (some i)).insertAfter none (some i)).Cycle none
      ((i :: order.erase i).map some) := by
  obtain ⟨l1, l2, hi, heq, herase⟩ := exists_erase_eq (h.all i)
  have hc := h.cycle
  rw [heq, map_append, map_cons] at hc
  have hnd := h.nodup
  rw [heq, nodup_append, nodup_cons] at hnd
  rw [herase, map_cons, map_append]
  refine hc.unlink.insertAfter ?_
  have h2 : i ∉ l2 := hnd.2.1.1
  simp [hi, h2]

theorem Wf.unref [DecidableEq P] (h : s.Wf) (hu : (p, i) ∈ s.users) (hl : (s.buf i).lock ≠ some p) :
    (s.unref p i).Wf where
  order := by
    obtain ⟨order, ho⟩ := h.order
    by_cases hz : (s.buf i).refcnt - 1 = 0
    · refine ⟨i :: order.erase i, ?_, fun j => ?_, ?_⟩
      · simpa [Bio.unref, hz] using ho.toFront i
      · by_cases hj : j = i
        · simp [hj]
        · exact mem_cons_of_mem _ ((mem_erase_of_ne hj).mpr (ho.all j))
      · refine pairwise_cons.mpr ⟨fun j hj _ _ => ?_, ?_⟩
        · have hji : j ≠ i := fun he => ho.nodup.not_mem_erase (he ▸ hj)
          have := h.stamp j
          simp only [Bio.unref, update_self, update_of_ne hji]
          omega
        · refine (ho.sorted.sublist erase_sublist).imp_of_mem fun {a b} ha hb hab => ?_
          have hai : a ≠ i := fun he => ho.nodup.not_mem_erase (he ▸ ha)
          have hbi : b ≠ i := fun he => ho.nodup.not_mem_erase (he ▸ hb)
          simpa [Bio.unref, setBuf_of_ne hai, setBuf_of_ne hbi, update_of_ne hai,
            update_of_ne hbi] using hab
    · refine ⟨order, by simpa [Bio.unref, hz] using ho.cycle, ho.all, ?_⟩
      refine ho.sorted.imp fun {a b} hab ha hb => ?_
      have hai : a ≠ i := by
        rintro rfl
        exact hz (by simpa [Bio.unref] using ha)
      have hbi : b ≠ i := by
        rintro rfl
        exact hz (by simpa [Bio.unref] using hb)
      simp only [Bio.unref, setBuf_of_ne hai, setBuf_of_ne hbi, update_of_ne hai,
        update_of_ne hbi] at ha hb ⊢
      exact hab ha hb
  stamp := fun j => by
    by_cases hj : j = i
    · subst hj
      simp [Bio.unref]
    · have := h.stamp j
      simp only [Bio.unref, update_of_ne hj]
      omega
  uniq := by
    have hsame : ∀ j, ((s.unref p i).buf j).dev = (s.buf j).dev ∧
        ((s.unref p i).buf j).blockno = (s.buf j).blockno := fun j => by
      by_cases hj : j = i
      · subst hj
        simp [Bio.unref]
      · simp [Bio.unref, setBuf_of_ne hj]
    simp only [fun j => (hsame j).1, fun j => (hsame j).2]
    exact h.uniq
  count := fun j => by
    have hc := h.count j
    have he := countP_erase (fun u : P × Fin NBUF => decide (u.2 = j)) s.users (p, i)
    by_cases hj : j = i
    · subst hj
      simp only [Bio.unref, setBuf_self, hc]
      simpa [hu] using he.symm
    · simp only [Bio.unref, setBuf_of_ne hj, hc]
      simpa [hu, Ne.symm hj] using he.symm
  locked := fun j q hlock => by
    have hlock' : (s.buf j).lock = some q := by
      by_cases hj : j = i
      · subst hj
        simpa [Bio.unref] using hlock
      · simpa [Bio.unref, setBuf_of_ne hj] using hlock
    refine (mem_erase_of_ne ?_).mpr (h.locked j q hlock')
    rintro ⟨rfl, rfl⟩
    exact hl hlock'

end Xv6.Bio
