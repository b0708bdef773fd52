import Xv6.Proofs.Split

/-! The parts that `split` writes: every one but the last has `max_line` lines, and there are as many as
there are suffixes. -/

open List

namespace Xv6.Split

variable {o : Stray} {m a : ℕ} {pre : Str} {done ps : List (List (List UInt8))} {cur : List (List UInt8)}
  {used bs : List UInt8} {st : State} {bufs : List (List UInt8)} {name : ℕ → Str}

/-! ### Lines -/

theorem count_bytesOf (h : ∀ ws ∈ done, IsGroup m ws.flatten) :
    (bytesOf done).count newline = done.length * m := by
  induction done with
  | nil => simp [bytesOf]
  | cons ws done ih =>
    have hhead : ws.flatten.count newline = m := Int.ofNat_inj.mp (h ws mem_cons_self).1
    have hrest := ih fun ws' hws => h ws' (mem_cons_of_mem _ hws)
    have hcons : bytesOf (ws :: done) = ws.flatten ++ bytesOf done := rfl
    rw [hcons, count_append, hhead, hrest, length_cons]
    ring

theorem dropLines_newline (k : ℕ) : dropLines (k + 1) (newline :: bs) = dropLines k bs := rfl

theorem dropLines_cons {c : UInt8} (hc : c ≠ newline) (k : ℕ) :
    dropLines (k + 1) (c :: bs) = dropLines (k + 1) bs := by
  rw [dropLines, dropLines, dropWhile_cons_of_pos (by simpa using hc)]

theorem dropLines_nil (k : ℕ) : dropLines k [] = [] := by
  induction k with
  | zero => rfl
  | succ k ih => exact ih

theorem dropLines_add (k l : ℕ) : dropLines (k + l) bs = dropLines l (dropLines k bs) := by
  induction k generalizing bs with
  | zero => rw [Nat.zero_add]; rfl
  | succ k ih =>
    rw [Nat.add_right_comm, dropLines, dropLines]
    exact ih

theorem dropLines_eq_nil_iff {k : ℕ} : dropLines k bs = [] ↔ bs.count newline < k ∨
    bs.count newline = k ∧ (bs = [] ∨ bs.getLast? = some newline) := by
  induction bs generalizing k with
  | nil =>
    rw [count_nil]
    exact iff_of_true (dropLines_nil k) ((Nat.eq_zero_or_pos k).symm.imp_right fun h => ⟨h.symm, .inl rfl⟩)
  | cons c bs ih =>
    cases k with
    | zero =>
      refine iff_of_false (cons_ne_nil c bs) ?_
      rintro (h | ⟨h, h' | h'⟩)
      · exact absurd h (Nat.not_lt_zero _)
      · exact cons_ne_nil c bs h'
      · exact count_eq_zero.mp h (mem_of_getLast? h')
    | succ k =>
      by_cases hc : c = newline
      · subst hc
        rw [dropLines_newline, ih, count_cons_self, Nat.add_lt_add_iff_right, Nat.add_right_cancel_iff]
        cases bs <;> simp
      · rw [dropLines_cons hc, ih, count_cons_of_ne hc]
        cases bs <;> simp [hc]

theorem dropLines_append (h : bs.getLast? = some newline) (r : List UInt8) :
    dropLines (bs.count newline) (bs ++ r) = r := by
  induction bs with
  | nil => cases h
  | cons c bs ih =>
    by_cases hc : c = newline
    · subst hc
      rw [count_cons_self, cons_append, dropLines_newline]
      cases bs with
      | nil => rfl
      | cons c' bs => exact ih (by rwa [getLast?_cons_cons] at h)
    · cases bs with
      | nil => exact absurd (Option.some.inj h) hc
      | cons c' bs =>
        rw [getLast?_cons_cons] at h
        have hpos : 0 < (c' :: bs).count newline := count_pos_iff.mpr (mem_of_getLast? h)
        obtain ⟨k, hk⟩ : ∃ k, (c' :: bs).count newline = k + 1 := ⟨_, (Nat.succ_pred_eq_of_pos hpos).symm⟩
        rw [count_cons_of_ne hc, hk, cons_append, dropLines_cons hc, ← hk]
        exact ih h

theorem takeLines_eq_self {k : ℕ} (h : bs.count newline < k) : takeLines k bs = bs := by
  induction bs generalizing k with
  | nil => cases k <;> rfl
  | cons c bs ih =>
    obtain ⟨k, rfl⟩ : ∃ k', k = k' + 1 := ⟨k - 1, by omega⟩
    rw [takeLines]
    split_ifs with hc
    · rw [hc, count_cons_self] at h
      rw [ih (by omega)]
    · rw [count_cons_of_ne hc] at h
      rw [ih h]

theorem takeLines_append (h : bs.getLast? = some newline) (r : List UInt8) :
    takeLines (bs.count newline) (bs ++ r) = bs := by
  induction bs with
  | nil => cases h
  | cons c bs ih =>
    by_cases hc : c = newline
    · subst hc
      rw [count_cons_self, cons_append, takeLines, if_pos rfl]
      cases bs with
      | nil => cases r <;> rfl
      | cons c' bs => rw [ih (by rwa [getLast?_cons_cons] at h)]
    · cases bs with
      | nil => exact absurd (Option.some.inj h) hc
      | cons c' bs =>
        rw [getLast?_cons_cons] at h
        have hpos : 0 < (c' :: bs).count newline := count_pos_iff.mpr (mem_of_getLast? h)
        obtain ⟨k, hk⟩ : ∃ k, (c' :: bs).count newline = k + 1 := ⟨_, (Nat.succ_pred_eq_of_pos hpos).symm⟩
        rw [count_cons_of_ne hc, hk, cons_append, takeLines, if_neg hc, ← hk, ih h]

theorem group_append (hm : 1 ≤ m) {gs : List (List UInt8)} (hgs : ∀ g ∈ gs, IsGroup m g) {last : List UInt8}
    (hlast : last.count newline < m) (i : ℕ) :
    group m i (gs.flatten ++ last) = ((gs ++ [last])[i]?).getD [] := by
  induction gs generalizing i with
  | nil =>
    cases i with
    | zero =>
      rw [group, Nat.zero_mul]
      exact takeLines_eq_self hlast
    | succ i =>
      have hle : m ≤ (i + 1) * m := Nat.le_mul_of_pos_left m (Nat.succ_pos i)
      rw [group, flatten_nil, nil_append, dropLines_eq_nil_iff.mpr (.inl (by omega))]
      cases m <;> rfl
  | cons g gs ih =>
    obtain ⟨hg, hend⟩ := hgs g mem_cons_self
    have hcount : g.count newline = m := Int.ofNat_inj.mp hg
    rw [flatten_cons, append_assoc]
    cases i with
    | zero =>
      rw [group, Nat.zero_mul, ← hcount]
      exact takeLines_append hend _
    | succ i =>
      rw [cons_append, getElem?_cons_succ, ← ih (fun g' h => hgs g' (mem_cons_of_mem _ h)) i, group,
        Nat.succ_mul, Nat.add_comm, dropLines_add]
      rw [← hcount, dropLines_append hend, hcount, group]

/-! ### Parts -/

def named (name : ℕ → Str) (i : ℕ) (ps : List (List (List UInt8))) : List (Str × List UInt8) :=
  (ps.zipIdx i).map fun x => (name x.2, x.1.flatten)

theorem addCall_writes (path : Str) (bs : List UInt8) (ws : List (List UInt8))
    (qs : List (Str × List UInt8)) :
    (ws.map Sys.write).foldl addCall ((path, bs) :: qs) = (path, bs ++ ws.flatten) :: qs := by
  induction ws generalizing bs with
  | nil => simp
  | cons w ws ih =>
    rw [map_cons, foldl_cons, addCall, ih, flatten_cons, append_assoc]

theorem parts_closedCalls (i : ℕ) (qs : List (Str × List UInt8)) :
    (closedCalls name i ps).foldl addCall qs = (named name i ps).reverse ++ qs := by
  induction ps generalizing i qs with
  | nil => rfl
  | cons ws ps ih =>
    rw [closedCalls, partCalls, cons_append, foldl_cons, foldl_append, addCall,
      addCall_writes, foldl_cons, addCall, ih]
    simp [named]

structure Done (o : Stray) (m : ℤ) (a : ℕ) (pre : Str) (done : List (List (List UInt8)))
    (cur : List (List UInt8)) (used : List UInt8) (st : State) : Prop where
  room : Enough o a done.length
  trace : st.trace = closedCalls (partName o pre a) 0 (done ++ [cur])
  groups : ∀ ws ∈ done, IsGroup m ws.flatten
  lt : 0 < m → cur.flatten.count newline < m
  bytes : bytesOf (done ++ [cur]) = used

theorem split_cases (o : Stray) (m : ℤ) (a : ℕ) (pre : Str) (bufs : List (List UInt8)) :
    (∃ st done cur, split o m a pre bufs = .ok st ∧ Done o m a pre done cur (strings bufs) st) ∨
      ∃ st done l r, split o m a pre bufs = .error st ∧ strings bufs = l ++ r ∧
        Full o m a pre done l st := by
  have hends := split_ends o m a pre bufs
  unfold split
  cases hs : splitBlocks o.text m pre bufs (opened o a pre) with
  | ok st =>
    rw [hs] at hends
    obtain ⟨done, cur, hrep⟩ := hends
    refine .inl ⟨st.emit .close, done, cur, rfl, hrep.room, ?_, hrep.groups, fun hm => ?_, ?_⟩
    · rw [State.emit, hrep.trace, closedCalls_append, zero_add, append_assoc]
    · rw [hrep.numLine]
      exact hrep.lt hm
    · rw [bytesOf_append, hrep.bytes]
  | error st =>
    rw [hs] at hends
    obtain ⟨done, l, r, hused, hfull⟩ := hends
    exact .inr ⟨st, done, l, r, rfl, hused, hfull⟩

theorem Done.count_lt (h : Done o m a pre done cur used st) (hm : 1 ≤ m) : cur.flatten.count newline < m :=
  Int.ofNat_lt.mp (h.lt (Int.ofNat_lt.mpr hm))

theorem Done.length_eq (h : Done o m a pre done cur used st) (hm : 1 ≤ m) :
    done.length = used.count newline / m := by
  rw [← h.bytes, bytesOf_append, count_append, count_bytesOf h.groups, Nat.mul_comm,
    Nat.mul_add_div (by omega), Nat.div_eq_of_lt (h.count_lt hm), Nat.add_zero]

theorem Full.count_eq (h : Full o m a pre done used st) : used.count newline = done.length * m := by
  rw [← h.bytes, count_bytesOf h.groups]

theorem Full.getLast (h : Full o m a pre done used st) : used.getLast? = some newline := by
  obtain ⟨n, hlen, -⟩ := h.length
  cases done using reverseRecOn with
  | nil => cases hlen
  | append_singleton done ws =>
    have hlast := (h.groups ws (by simp)).2
    rw [← h.bytes, bytesOf_append, getLast?_append, hlast]
    rfl

theorem Enough.mono {k n : ℕ} (h : Enough o a n) (hk : k ≤ n) : Enough o a k := fun i hi => h i (by omega)

theorem split_error (hm : 1 ≤ m) :
    (∃ st, split o m a pre bufs = .error st) ↔ ¬Enough o a ((strings bufs).count newline / m) := by
  obtain ⟨st, done, cur, hok, hdone⟩ | ⟨st, done, l, r, herr, hused, hfull⟩ := split_cases o m a pre bufs
  · refine iff_of_false ?_ (not_not.mpr (hdone.length_eq hm ▸ hdone.room))
    rintro ⟨st', herr⟩
    rw [hok] at herr
    cases herr
  · obtain ⟨n, hlen, -, hout⟩ := hfull.length
    refine iff_of_true ⟨st, herr⟩ fun henough => hout (henough.mono ?_)
    rw [hused, count_append, hfull.count_eq, hlen]
    exact (Nat.le_div_iff_mul_le hm).mpr (Nat.le_add_right ..)

theorem parts_eq {trace : List Sys} (h : trace = closedCalls name 0 ps) : parts trace = named name 0 ps := by
  rw [parts, h, parts_closedCalls, append_nil, reverse_reverse]

theorem map_snd_named (i : ℕ) : (named name i ps).map Prod.snd = ps.map flatten := by
  induction ps generalizing i with
  | nil => rfl
  | cons ws ps ih =>
    have hcons : named name i (ws :: ps) = (name i, ws.flatten) :: named name (i + 1) ps := rfl
    rw [hcons, map_cons, map_cons, ih]

def Grouped (m : ℕ) (input : List UInt8) (ps : List (Str × List UInt8)) : Prop :=
  ∃ full last, ps.map Prod.snd = full ++ [last] ∧ (full ++ [last]).flatten = input ∧
    (∀ bs ∈ full, bs.count newline = m ∧ bs.getLast? = some newline) ∧ last.count newline < m

theorem Done.grouped (h : Done o m a pre done cur used st) (hm : 1 ≤ m) :
    Grouped m used (parts st.trace) := by
  refine ⟨done.map flatten, cur.flatten, ?_, ?_, ?_, h.count_lt hm⟩
  · rw [parts_eq h.trace, map_snd_named, map_append]
    rfl
  · rw [← h.bytes, bytesOf, map_append]
    rfl
  · intro bs hbs
    obtain ⟨ws, hws, rfl⟩ := mem_map.mp hbs
    exact ⟨Int.ofNat_inj.mp (h.groups ws hws).1, (h.groups ws hws).2⟩

/-- The parts of an input without NUL, for any sizes of the reads: consecutive pieces, all but the
last of `max_line` lines. -/
theorem split_groups (hm : 1 ≤ m) (h0 : 0 ∉ bufs.flatten) (hnul : o.after = [])
    (henough : bufs.flatten.count newline < 26 ^ a * m) :
    ∃ st, split o m a pre bufs = .ok st ∧ Grouped m bufs.flatten (parts st.trace) := by
  rw [← strings_eq h0] at henough ⊢
  obtain ⟨st, done, cur, hok, hdone⟩ | ⟨st, -, -, -, herr, -⟩ := split_cases o m a pre bufs
  · exact ⟨st, hok, hdone.grouped hm⟩
  · refine absurd ((enough_iff hnul).mpr ?_) ((split_error hm).mp ⟨st, herr⟩)
    exact (Nat.div_lt_iff_lt_mul hm).mpr henough

/-- Three lines read in blocks that end inside a line, two lines to a part. -/
theorem split_groups_abc : ∃ st, split ⟨[], 0⟩ (2 : ℕ) 1 [120] [[97, 10, 98], [10, 99], [10]] = .ok st ∧
    Grouped 2 [97, 10, 98, 10, 99, 10] (parts st.trace) :=
  @split_groups ⟨[], 0⟩ 2 1 [120] [[97, 10, 98], [10, 99], [10]] (by decide) (by decide) rfl (by decide)

/-- With a NUL after `suffix`, `split` runs out of suffixes if and only if there is something left for
which there is no part, unless the input has exactly as many lines as fit into the parts and ends with
one. -/
theorem split_error_iff (hm : 1 ≤ m) (h0 : 0 ∉ bufs.flatten) (hnul : o.after = []) :
    ((∃ st, split o m a pre bufs = .error st) ↔ dropLines (26 ^ a * m) bufs.flatten ≠ []) ↔
      ¬(bufs.flatten.count newline = 26 ^ a * m ∧ bufs.flatten.getLast? = some newline) := by
  have hpos : 0 < 26 ^ a * m := by positivity
  rw [split_error hm, strings_eq h0, enough_iff hnul, not_lt, Nat.le_div_iff_mul_le hm, ne_eq, dropLines_eq_nil_iff]
  by_cases hend : bufs.flatten.getLast? = some newline
  · simp only [hend, or_true, and_true]
    omega
  · have hnil : ¬(bufs.flatten.count newline = 26 ^ a * m ∧ bufs.flatten = []) := by
      rintro ⟨hcount, hnil⟩
      rw [hnil, count_nil] at hcount
      omega
    simp only [hend, or_false, and_false, hnil, not_false_eq_true, not_lt]

/-- One line more than there are suffixes of one letter. -/
theorem split_error_iff_27 :
    (∃ st, split ⟨[], 0⟩ (1 : ℕ) 1 [120] [List.replicate 27 newline] = .error st) ↔
      dropLines (26 ^ 1 * 1) [List.replicate 27 newline].flatten ≠ [] :=
  (split_error_iff (by decide) (by decide) rfl).mpr (by decide)

/-- With exactly as many lines as there are suffixes the error comes though everything is stored. -/
theorem split_error_exact : (∃ st, split ⟨[], 0⟩ (1 : ℕ) 1 [120] [List.replicate 26 newline] = .error st) ∧
    dropLines (26 ^ 1 * 1) [List.replicate 26 newline].flatten = [] := by
  refine ⟨?_, by decide⟩
  have herr : (split ⟨[], 0⟩ (1 : ℕ) 1 [120] [replicate 26 newline]).toOption = none := by decide +kernel
  cases h : split ⟨[], 0⟩ (1 : ℕ) 1 [120] [replicate 26 newline] with
  | ok st =>
    rw [h] at herr
    cases herr
  | error st => exact ⟨st, rfl⟩

end Xv6.Split
