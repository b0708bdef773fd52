import Mathlib.Tactic

/-! A singly linked list through a `next` pointer, and a loop that follows it around a ring. -/

namespace LinkList

variable {ν : Type} {next next' : ν → ν} {a z : ν} {l l' : List ν}

def first (l : List ν) (z : ν) : ν := l.head?.getD z

@[simp] theorem first_nil (z : ν) : first [] z = z := rfl

@[simp] theorem first_cons (a : ν) (l : List ν) (z : ν) : first (a :: l) z = a := rfl

theorem first_append (l l' : List ν) (z : ν) : first (l ++ l') z = first l (first l' z) := by
  cases l <;> rfl

def Links (next : ν → ν) : List ν → ν → Prop
  | [], _ => True
  | a :: l, z => next a = first l z ∧ Links next l z

theorem links_append : Links next (l ++ l') z ↔ Links next l (first l' z) ∧ Links next l' z := by
  induction l with
  | nil => simp [Links]
  | cons a l ih => simp [Links, ih, first_append, and_assoc]

theorem Links.congr (h : Links next l z) (hnext : ∀ a ∈ l, next' a = next a) : Links next' l z := by
  induction l with
  | nil => trivial
  | cons a l ih =>
    obtain ⟨ha, hl⟩ := h
    exact ⟨(hnext a List.mem_cons_self).trans ha,
      ih hl fun b hb => hnext b (List.mem_cons_of_mem _ hb)⟩

theorem Links.rotate {l1 l2 : List ν} (h : Links next (l1 ++ a :: l2) (first l1 a)) :
    Links next (a :: (l2 ++ l1)) a := by
  obtain ⟨h1, h2⟩ := links_append.mp h
  exact (links_append (l := a :: l2)).mpr ⟨h2, h1⟩

def walk (next : ν → ν) (stop : ν → Bool) : ℕ → ν → Option ν
  | 0, _ => none
  | fuel + 1, a => if stop a then some a else walk next stop fuel (next a)

theorem walk_mem {stop : ν → Bool} {N : Set ν} {p : ν} {fuel : ℕ} (hnext : ∀ b ∈ N, next b ∈ N)
    (ha : a ∈ N) (h : walk next stop fuel a = some p) : p ∈ N := by
  induction fuel generalizing a with
  | zero => cases h
  | succ fuel ih =>
    rw [walk] at h
    split_ifs at h
    · cases h
      exact ha
    · exact ih (hnext a ha) h

theorem walk_links {stop : ν → Bool} {p : ν} {fuel : ℕ} (h : Links next (l ++ p :: l') z)
    (hl : ∀ b ∈ l, stop b = false) (hp : stop p = true) (hfuel : l.length < fuel) :
    walk next stop fuel (first l p) = some p := by
  induction l generalizing fuel with
  | nil =>
    obtain ⟨fuel, rfl⟩ := Nat.exists_eq_add_one_of_ne_zero (Nat.ne_zero_of_lt hfuel)
    simp [walk, hp]
  | cons a l ih =>
    obtain ⟨fuel, rfl⟩ := Nat.exists_eq_add_one_of_ne_zero (Nat.ne_zero_of_lt hfuel)
    have hnext : next a = first l p := h.1.trans (first_append l (p :: l') z)
    rw [first_cons, walk, hl a List.mem_cons_self, if_neg Bool.false_ne_true, hnext]
    exact ih h.2 (fun b hb => hl b (List.mem_cons_of_mem _ hb)) (Nat.lt_of_succ_lt_succ hfuel)

theorem walk_ring {stop : ν → Bool} {f p : ν} {fuel : ℕ} (h : Links next (a :: l) a)
    (hf : f ∈ a :: l) (hp : p ∈ a :: l) (hstop : stop p = true)
    (huniq : ∀ b ∈ a :: l, b ≠ p → stop b = false) (hfuel : l.length < fuel) :
    walk next stop fuel f = some p := by
  obtain ⟨u, v, huv⟩ := List.append_of_mem hf
  have hfirst : a = first u f := by
    rw [show a = first (a :: l) a from rfl, huv, first_append]
    rfl
  have hring : Links next (f :: (v ++ u)) f := by
    rw [huv] at h
    exact Links.rotate (hfirst ▸ h)
  have hperm : (f :: (v ++ u)).Perm (a :: l) := by
    rw [huv]
    exact @List.perm_append_comm _ (f :: v) _
  obtain ⟨w, w', hw, hnot⟩ := List.eq_append_cons_of_mem (hperm.mem_iff.mpr hp)
  have hlen := hperm.length_eq
  rw [hw] at hring hlen
  have hwalk := walk_links hring (fun b hb => huniq b (hperm.mem_iff.mp (by simp [hw, hb]))
    fun he => hnot (he ▸ hb)) hstop (by simp at hlen; omega : w.length < fuel)
  have hf' : f = first w p := by
    rw [show f = first (f :: (v ++ u)) p from rfl, hw, first_append]
    rfl
  rwa [hf']

end LinkList
