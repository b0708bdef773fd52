import Mathlib.Tactic

/-! A circular doubly linked list through `next` and `prev` pointers, with a sentinel.
`Cycle r h xs` says that the links starting at `h` visit `xs` in order and come back, and
that the `prev` links are the same cycle backwards. -/

structure LinkRing (ν : Type) where
  next : ν → ν
  prev : ν → ν

open Function

open List (mem_cons mem_cons_of_mem nodup_cons)

namespace LinkRing

variable {ν : Type} {r r' : LinkRing ν} {h a b x z : ν} {xs ys : List ν}

def Links (r : LinkRing ν) : ν → List ν → ν → Prop
  | a, [], z => r.next a = z ∧ r.prev z = a
  | a, x :: xs, z => r.next a = x ∧ r.prev x = a ∧ Links r x xs z

structure Cycle (r : LinkRing ν) (h : ν) (xs : List ν) : Prop where
  links : r.Links h xs h
  nodup : (h :: xs).Nodup

theorem links_append : r.Links a (xs ++ x :: ys) z ↔ r.Links a xs x ∧ r.Links x ys z := by
  induction xs generalizing a with
  | nil => simp [Links, and_assoc]
  | cons y xs ih => simp [Links, ih, and_assoc]

theorem Links.next_mem (hl : r.Links a xs z) : r.next a ∈ xs ++ [z] := by
  cases xs with
  | nil => simp [hl.1]
  | cons x xs => simp [hl.1]

theorem Links.prev_mem (hl : r.Links a xs z) : r.prev z ∈ a :: xs := by
  induction xs generalizing a with
  | nil => simp [hl.2]
  | cons x xs ih => exact mem_cons_of_mem _ (ih hl.2.2)

theorem Links.congr (hl : r.Links a xs z) (hn : ∀ y ∈ a :: xs, r'.next y = r.next y)
    (hp : ∀ y ∈ xs ++ [z], r'.prev y = r.prev y) : r'.Links a xs z := by
  induction xs generalizing a with
  | nil =>
    obtain ⟨h1, h2⟩ := hl
    exact ⟨(hn a (by simp)).trans h1, (hp z (by simp)).trans h2⟩
  | cons x xs ih =>
    obtain ⟨h1, h2, h3⟩ := hl
    refine ⟨(hn a (by simp)).trans h1, (hp x (by simp)).trans h2, ih h3 ?_ ?_⟩
    · exact fun y hy => hn y (mem_cons_of_mem _ hy)
    · exact fun y hy => hp y (mem_cons_of_mem _ hy)

/-- The links to `b` become links to `z` when the node before `b` is linked to `z` instead. -/
theorem Links.redirect (hl : r.Links a xs b) (hnd : (a :: xs).Nodup)
    (hn : r'.next (r.prev b) = z) (hp : r'.prev z = r.prev b)
    (hn' : ∀ y ∈ a :: xs, y ≠ r.prev b → r'.next y = r.next y)
    (hp' : ∀ y ∈ xs, r'.prev y = r.prev y) : r'.Links a xs z := by
  induction xs generalizing a with
  | nil =>
    rw [hl.2] at hn hp
    exact ⟨hn, hp⟩
  | cons x xs ih =>
    obtain ⟨h1, h2, h3⟩ := hl
    rw [nodup_cons] at hnd
    have hab : a ≠ r.prev b := fun he => hnd.1 (he ▸ h3.prev_mem)
    refine ⟨(hn' a (by simp) hab).trans h1, (hp' x (by simp)).trans h2, ih h3 hnd.2 ?_ ?_⟩
    · exact fun y hy => hn' y (mem_cons_of_mem _ hy)
    · exact fun y hy => hp' y (mem_cons_of_mem _ hy)

def flip (r : LinkRing ν) : LinkRing ν := ⟨r.prev, r.next⟩

theorem Links.flip (hl : r.Links a xs z) : r.flip.Links z xs.reverse a := by
  induction xs generalizing a with
  | nil => exact ⟨hl.2, hl.1⟩
  | cons x xs ih =>
    obtain ⟨h1, h2, h3⟩ := hl
    rw [List.reverse_cons, links_append]
    exact ⟨ih h3, h2, h1⟩

theorem Cycle.flip (hc : r.Cycle h xs) : r.flip.Cycle h xs.reverse :=
  ⟨hc.links.flip, by simpa using hc.nodup⟩

/-! ### Walking the ring -/

section Find

variable [DecidableEq ν]

/-- The loop `for(b = …; b != h; b = step(b)) if(test(b)) return b`, for at most the given
number of rounds. -/
def find (step : ν → ν) (h : ν) (test : ν → Bool) : ℕ → ν → Option ν
  | 0, _ => none
  | n + 1, b => if b = h then none else if test b then some b else find step h test n (step b)

theorem Links.find (hl : r.Links a xs h) (hnd : h ∉ xs) (test : ν → Bool) {n : ℕ}
    (hn : xs.length < n) : LinkRing.find r.next h test n (r.next a) = xs.find? test := by
  induction xs generalizing a n with
  | nil =>
    cases n with
    | zero => simp at hn
    | succ n => simp [LinkRing.find, hl.1]
  | cons x xs ih =>
    cases n with
    | zero => simp at hn
    | succ n =>
      obtain ⟨h1, -, h3⟩ := hl
      rw [mem_cons, not_or] at hnd
      rw [LinkRing.find, h1, if_neg (Ne.symm hnd.1), List.find?_cons]
      cases test x with
      | true => rfl
      | false => exact ih h3 hnd.2 (by simpa using hn)

theorem Cycle.find_next (hc : r.Cycle h xs) (test : ν → Bool) {n : ℕ} (hn : xs.length < n) :
    find r.next h test n (r.next h) = xs.find? test :=
  hc.links.find (List.nodup_cons.mp hc.nodup).1 test hn

theorem Cycle.find_prev (hc : r.Cycle h xs) (test : ν → Bool) {n : ℕ} (hn : xs.length < n) :
    find r.prev h test n (r.prev h) = xs.reverse.find? test :=
  hc.flip.find_next test (by simpa using hn)

end Find

/-! ### Pointer surgery -/

section Surgery

variable [DecidableEq ν]

/-- `b->next = h->next; b->prev = h; h->next->prev = b; h->next = b`. -/
def insertAfter (r : LinkRing ν) (h b : ν) : LinkRing ν :=
  let next := Function.update r.next b (r.next h)
  let prev := Function.update r.prev b h
  ⟨Function.update next h b, Function.update prev (next h) b⟩

def unlink (r : LinkRing ν) (b : ν) : LinkRing ν :=
  let prev := Function.update r.prev (r.next b) (r.prev b)
  ⟨Function.update r.next (prev b) (r.next b), prev⟩

theorem Cycle.insertAfter (hc : r.Cycle h xs) (hb : b ∉ h :: xs) :
    (r.insertAfter h b).Cycle h (b :: xs) := by
  have hbh : b ≠ h := fun he => hb (by simp [he])
  have hnext : ∀ y, y ≠ h → y ≠ b → (r.insertAfter h b).next y = r.next y := fun y h1 h2 => by
    simp [LinkRing.insertAfter, update_of_ne h1, update_of_ne h2]
  have hprev : ∀ y, y ≠ r.next h → y ≠ b → (r.insertAfter h b).prev y = r.prev y := fun y h1 h2 => by
    simp [LinkRing.insertAfter, update_of_ne hbh.symm, update_of_ne h1,
      update_of_ne h2]
  have hnb : (r.insertAfter h b).next b = r.next h := by
    simp [LinkRing.insertAfter, update_of_ne hbh]
  have hpn : (r.insertAfter h b).prev (r.next h) = b := by
    simp [LinkRing.insertAfter, update_of_ne hbh.symm]
  have hbn : b ≠ r.next h := by
    rintro rfl
    rcases List.mem_append.mp hc.links.next_mem with hm | hm
    · exact hb (mem_cons_of_mem _ hm)
    · exact hbh (by simpa using hm)
  have hnd := hc.nodup
  refine ⟨⟨by simp [LinkRing.insertAfter], ?_, ?_⟩, ?_⟩
  · simp [LinkRing.insertAfter, update_of_ne hbh.symm, update_of_ne hbn]
  · cases xs with
    | nil =>
      rw [hc.links.1] at hnb hpn
      exact ⟨hnb, hpn⟩
    | cons x xs =>
      obtain ⟨h1, -, h3⟩ := hc.links
      rw [h1] at hnb hpn hprev
      refine ⟨hnb, hpn, h3.congr (fun y hy => hnext y ?_ ?_) fun y hy => hprev y ?_ ?_⟩
      · rintro rfl
        exact (List.nodup_cons.mp hnd).1 hy
      · rintro rfl
        exact hb (mem_cons_of_mem _ hy)
      · rintro rfl
        rcases List.mem_append.mp hy with hy | hy
        · simp [hy] at hnd
        · simp [List.mem_singleton.mp hy] at hnd
      · rintro rfl
        rcases List.mem_append.mp hy with hy | hy
        · exact hb (by simp [hy])
        · exact hbh (by simpa using hy)
  · rw [nodup_cons] at hnd ⊢
    rw [mem_cons, not_or] at hb
    simp [hnd, hb, hbh.symm]

theorem Cycle.unlink (hc : r.Cycle h (xs ++ b :: ys)) : (r.unlink b).Cycle h (xs ++ ys) := by
  obtain ⟨hl1, hl2⟩ := links_append.mp hc.links
  have hnd := hc.nodup
  simp only [nodup_cons, List.mem_append, mem_cons, not_or, List.nodup_append,
    ne_eq, forall_eq_or_imp] at hnd
  obtain ⟨⟨hhx, hhb, hhy⟩, hxs, ⟨hby, hys⟩, hd⟩ := hnd
  have hbx : b ∉ xs := fun hm => (hd b hm).1 rfl
  have hpre : (h :: xs).Nodup := List.nodup_cons.mpr ⟨hhx, hxs⟩
  have hnb : r.next b ≠ b := by
    intro he
    rcases List.mem_append.mp hl2.next_mem with hm | hm
    · exact hby (he ▸ hm)
    · exact hhb ((List.mem_singleton.mp hm).symm.trans he)
  have hprev : ∀ y, y ≠ r.next b → (r.unlink b).prev y = r.prev y := fun y h1 => by
    simp [LinkRing.unlink, update_of_ne h1]
  have hnext : ∀ y, y ≠ r.prev b → (r.unlink b).next y = r.next y := fun y h1 => by
    simp [LinkRing.unlink, update_of_ne hnb.symm, update_of_ne h1]
  have hz : (r.unlink b).next (r.prev b) = r.next b := by
    simp [LinkRing.unlink, update_of_ne hnb.symm]
  have hz' : (r.unlink b).prev (r.next b) = r.prev b := by simp [LinkRing.unlink]
  -- the first part of the ring now leads to the successor of `b`
  have hfst : (r.unlink b).Links h xs (r.next b) := by
    refine hl1.redirect hpre hz hz' (fun y _ hy => hnext y hy) fun y hy => hprev y ?_
    rintro rfl
    rcases List.mem_append.mp hl2.next_mem with hm | hm
    · exact (hd _ hy).2 _ hm rfl
    · rw [List.mem_singleton] at hm
      exact hhx (hm ▸ hy)
  refine ⟨?_, ?_⟩
  · cases ys with
    | nil =>
      rw [hl2.1] at hfst
      rwa [List.append_nil]
    | cons y ys =>
      obtain ⟨h1, -, h3⟩ := hl2
      rw [h1] at hfst hprev
      refine links_append.mpr ⟨hfst, h3.congr (fun w hw => hnext w ?_) fun w hw => hprev w ?_⟩
      · rintro rfl
        rcases List.mem_cons.mp hl1.prev_mem with hm | hm
        · exact hhy (hm ▸ hw)
        · exact (hd _ hm).2 _ hw rfl
      · rintro rfl
        rcases List.mem_append.mp hw with hw | hw
        · exact (List.nodup_cons.mp hys).1 hw
        · exact hhy (by simp [List.mem_singleton.mp hw])
  · rw [nodup_cons, List.mem_append, List.nodup_append]
    refine ⟨?_, hxs, hys, fun x hx y hy => (hd x hx).2 y hy⟩
    rintro (hm | hm)
    · exact hhx hm
    · exact hhy hm

end Surgery

end LinkRing
