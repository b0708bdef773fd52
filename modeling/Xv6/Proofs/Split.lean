import Mathlib.Data.List.TakeWhile
import Xv6.Spec.Split

/-! What `split` writes: the parts are consecutive pieces of the input, of `max_line` lines each but
the last. `Rep` ties a state of the program to the input consumed so far, and `Full` is where it
runs out of suffixes. -/

namespace Xv6.Split

open List

variable {o : Stray} {m : ℤ} {a : ℕ} {pre : Str} {done : List (List (List UInt8))} {cur : List (List UInt8)}
  {used : List UInt8} {st : State} {bs : List UInt8} {pa : List UInt8} {text : UInt8} {name : ℕ → Str}

/-! ### Suffixes -/

theorem cstring_eq (h : 0 ∉ bs) : cstring bs = bs := by
  refine takeWhile_eq_self_iff.mpr fun c hc => ?_
  simpa using fun h0 : c = 0 => h (h0 ▸ hc)

theorem zero_notMem_cstring (bs : List UInt8) : 0 ∉ cstring bs := fun h => by
  simpa using mem_takeWhile_imp h

theorem nextSuffix_eq (h : 0 ∉ bs) : nextSuffix text bs = nextChars text bs := by
  rw [nextSuffix, strlen, cstring_eq h, drop_length, append_nil]

theorem nextChar_letter {i : ℕ} (hi : i < 26) : nextChar text (letters.getD i 0) =
    if i + 1 = 26 then (true, letters.getD 0 0) else (false, letters.getD (i + 1) 0) := by
  have hall : ∀ i : Fin 26, letters.findIdx? (· == letters.getD i 0) = some i.val := by decide
  rw [nextChar, hall ⟨i, hi⟩]
  rfl

theorem nthSuffix_zero (a : ℕ) : nthSuffix a 0 = replicate a (letters.getD 0 0) := by
  induction a with
  | zero => rfl
  | succ a ih => rw [nthSuffix, Nat.zero_div, Nat.zero_mod, ih, replicate_succ]

theorem zero_notMem_nthSuffix {i : ℕ} (hi : i < 26 ^ a) : 0 ∉ nthSuffix a i := by
  induction a generalizing i with
  | zero => exact not_mem_nil
  | succ a ih =>
    have hall : ∀ d : Fin 26, 0 ≠ letters.getD d 0 := by decide
    have hdiv : i / 26 ^ a < 26 := Nat.div_lt_of_lt_mul (by rwa [← pow_succ])
    exact not_mem_cons_of_ne_of_not_mem (hall ⟨_, hdiv⟩) (ih (Nat.mod_lt _ (by positivity)))

theorem nextChars_nth {i : ℕ} (hi : i < 26 ^ a) : nextChars text (nthSuffix a i) =
    if i + 1 = 26 ^ a then (true, nthSuffix a 0) else (false, nthSuffix a (i + 1)) := by
  induction a generalizing i with
  | zero =>
    rw [pow_zero] at hi ⊢
    rw [if_pos (by omega)]
    rfl
  | succ a ih =>
    have hpos : 0 < 26 ^ a := Nat.pow_pos (by decide)
    have hmod := Nat.mod_lt i hpos
    have hdiv : i / 26 ^ a < 26 := by
      rw [Nat.div_lt_iff_lt_mul hpos, ← pow_succ']
      exact hi
    have hsplit := Nat.div_add_mod i (26 ^ a)
    rw [nthSuffix, nextChars, ih hmod]
    by_cases hcarry : i % 26 ^ a + 1 = 26 ^ a
    · rw [if_pos hcarry]
      dsimp only
      rw [if_pos rfl, nextChar_letter hdiv]
      have hnext : i + 1 = 26 ^ a * (i / 26 ^ a + 1) := by
        rw [Nat.mul_add_one]
        omega
      by_cases hlast : i / 26 ^ a + 1 = 26
      · rw [if_pos hlast, if_pos (by rw [hnext, hlast, pow_succ])]
        simp [nthSuffix]
      · have hne : i + 1 ≠ 26 ^ (a + 1) := by
          rw [hnext, pow_succ]
          exact fun h => hlast (Nat.eq_of_mul_eq_mul_left hpos h)
        rw [if_neg hlast, if_neg hne, nthSuffix, hnext, Nat.mul_div_cancel_left _ hpos, Nat.mul_mod_right]
    · rw [if_neg hcarry]
      dsimp only
      have hnext : i + 1 = i % 26 ^ a + 1 + 26 ^ a * (i / 26 ^ a) := by omega
      have hdiv' : (i + 1) / 26 ^ a = i / 26 ^ a := by
        rw [hnext, Nat.add_mul_div_left _ _ hpos, Nat.div_eq_of_lt (by omega), zero_add]
      have hmod' : (i + 1) % 26 ^ a = i % 26 ^ a + 1 := by
        rw [hnext, Nat.add_mul_mod_self_left, Nat.mod_eq_of_lt (by omega)]
      have hne : i + 1 ≠ 26 ^ (a + 1) := fun h => by
        rw [h, pow_succ, Nat.mul_mod_right] at hmod'
        omega
      rw [if_neg Bool.false_ne_true, if_neg hne, nthSuffix, hdiv', hmod']

theorem nextSuffix_nth {i : ℕ} (hi : i < 26 ^ a) : nextSuffix text (nthSuffix a i) =
    if i + 1 = 26 ^ a then (true, nthSuffix a 0) else (false, nthSuffix a (i + 1)) := by
  rw [nextSuffix_eq (zero_notMem_nthSuffix hi), nextChars_nth hi]

theorem suffixAt_succ (o : Stray) (a i : ℕ) :
    suffixAt o a (i + 1) = (nextSuffix o.text (suffixAt o a i)).2 := Function.iterate_succ_apply' ..

theorem suffixAt_eq (hnul : o.after = []) {i : ℕ} (hi : i < 26 ^ a) : suffixAt o a i = nthSuffix a i := by
  induction i with
  | zero => rw [suffixAt, hnul, append_nil, nthSuffix_zero]; rfl
  | succ i ih =>
    have hlt : i < 26 ^ a := by omega
    rw [suffixAt_succ, ih hlt, nextSuffix_nth hlt, if_neg (by omega)]

theorem enough_iff (hnul : o.after = []) {n : ℕ} : Enough o a n ↔ n < 26 ^ a := by
  have hpos : 0 < 26 ^ a := by positivity
  have hcarry : ∀ i < 26 ^ a, (nextSuffix o.text (suffixAt o a i)).1 = decide (i + 1 = 26 ^ a) := by
    intro i hi
    rw [suffixAt_eq hnul hi, nextSuffix_nth hi]
    split_ifs with h <;> simp [h]
  constructor
  · intro h
    by_contra hge
    have hlast := h (26 ^ a - 1) (by omega)
    rw [hcarry _ (by omega), decide_eq_false_iff_not] at hlast
    omega
  · intro hlt i hi
    rw [hcarry i (by omega), decide_eq_false_iff_not]
    omega

/-! ### The trace -/

def partCalls (path : Str) (ws : List (List UInt8)) : List Sys := .openPart path :: ws.map .write

def closedCalls (name : ℕ → Str) : ℕ → List (List (List UInt8)) → List Sys
  | _, [] => []
  | i, ws :: done => partCalls (name i) ws ++ .close :: closedCalls name (i + 1) done

theorem closedCalls_append (i : ℕ) (ws : List (List UInt8)) : closedCalls name i (done ++ [ws]) =
      closedCalls name i done ++ (partCalls (name (i + done.length)) ws ++ [.close]) := by
  induction done generalizing i with
  | nil => rfl
  | cons vs done ih =>
    rw [cons_append, closedCalls, closedCalls, ih, length_cons, Nat.add_right_comm i 1,
      Nat.add_assoc i]
    simp

def bytesOf (ps : List (List (List UInt8))) : List UInt8 := (ps.map flatten).flatten

def IsGroup (m : ℤ) (bs : List UInt8) : Prop := (bs.count newline : ℤ) = m ∧ bs.getLast? = some newline

/-- After consuming `used` the parts `done` are full, and `cur` has been written to the open one. A
`max_line` of 0 or less is never reached. -/
structure Rep (o : Stray) (m : ℤ) (a : ℕ) (pre : Str) (done : List (List (List UInt8)))
    (cur : List (List UInt8)) (used : List UInt8) (st : State) : Prop where
  room : Enough o a done.length
  suffix : st.suffix = suffixAt o a done.length
  trace : st.trace = closedCalls (partName o pre a) 0 done ++ partCalls (partName o pre a done.length) cur
  groups : ∀ ws ∈ done, IsGroup m ws.flatten
  numLine : cur.flatten.count newline = st.numLine
  lt : 0 < m → st.numLine < m
  one : m ≤ 0 → done = []
  bytes : bytesOf done ++ cur.flatten = used

structure Full (o : Stray) (m : ℤ) (a : ℕ) (pre : Str) (done : List (List (List UInt8)))
    (used : List UInt8) (st : State) : Prop where
  pos : 0 < m
  length : ∃ n, done.length = n + 1 ∧ Enough o a n ∧ ¬Enough o a (n + 1)
  trace : st.trace = closedCalls (partName o pre a) 0 done
  groups : ∀ ws ∈ done, IsGroup m ws.flatten
  bytes : bytesOf done = used

/-- How the program stands after the bytes `used`, which it has consumed unless it ran out of
suffixes. -/
def Ends (o : Stray) (m : ℤ) (a : ℕ) (pre : Str) (used : List UInt8) : Except State State → Prop
  | .ok st => ∃ done cur, Rep o m a pre done cur used st
  | .error st => ∃ done l r, used = l ++ r ∧ Full o m a pre done l st

theorem bytesOf_append (ws : List (List UInt8)) : bytesOf (done ++ [ws]) = bytesOf done ++ ws.flatten := by
  simp [bytesOf]

theorem Rep.write (h : Rep o m a pre done cur used st) (hbs : newline ∉ bs) :
    Rep o m a pre done (cur ++ [bs]) (used ++ bs) (st.emit (.write bs)) where
  room := h.room
  suffix := h.suffix
  trace := by
    rw [State.emit, h.trace]
    simp [partCalls]
  groups := h.groups
  numLine := by
    rw [flatten_append, count_append, h.numLine, flatten_singleton,
      count_eq_zero_of_not_mem hbs, add_zero]
    rfl
  lt := h.lt
  one := h.one
  bytes := by
    rw [← h.bytes]
    simp

theorem enough_succ {n : ℕ} (h : Enough o a n) :
    Enough o a (n + 1) ↔ (nextSuffix o.text (suffixAt o a n)).1 = false :=
  ⟨fun h' => h' n (Nat.lt_succ_self n), fun h' => Nat.forall_lt_succ_right.mpr ⟨h, h'⟩⟩

theorem countLine_ends (h : Rep o m a pre done cur used st) {x : List UInt8} (hx : newline ∉ x) :
    match countLine o.text m pre (st.emit (.write (x ++ [newline]))) with
    | .ok st' => ∃ done cur, Rep o m a pre done cur (used ++ (x ++ [newline])) st'
    | .error st' => ∃ done, Full o m a pre done (used ++ (x ++ [newline])) st' := by
  set l := x ++ [newline] with hl
  have hcount : (cur ++ [l]).flatten.count newline = st.numLine + 1 := by
    rw [flatten_append, count_append, h.numLine, flatten_singleton, hl, count_append,
      count_eq_zero_of_not_mem hx]
    rfl
  have hbytes : bytesOf (done ++ [cur ++ [l]]) = used ++ l := by
    rw [bytesOf_append, ← h.bytes]
    simp
  have htrace : (st.emit (.write l)).trace =
      closedCalls (partName o pre a) 0 done ++ partCalls (partName o pre a done.length) (cur ++ [l]) := by
    rw [State.emit, h.trace]
    simp [partCalls]
  have hlast : (cur ++ [l]).flatten.getLast? = some newline := by
    rw [flatten_append, flatten_singleton, hl, ← append_assoc, getLast?_concat]
  unfold countLine
  by_cases hfull : (st.numLine + 1 : ℤ) = m
  · -- the part is full
    have hgroups : ∀ ws ∈ done ++ [cur ++ [l]], IsGroup m ws.flatten := by
      intro ws hws
      rcases mem_append.mp hws with hws | hws
      · exact h.groups ws hws
      · obtain rfl := mem_singleton.mp hws
        exact ⟨by rw [hcount]; exact_mod_cast hfull, hlast⟩
    have hclosed : (st.emit (.write l)).trace ++ [.close] =
        closedCalls (partName o pre a) 0 (done ++ [cur ++ [l]]) := by
      rw [htrace, closedCalls_append, zero_add, append_assoc]
    have hlen : (done ++ [cur ++ [l]]).length = done.length + 1 := length_append
    have hnext := enough_succ h.room
    rw [if_pos (by exact hfull)]
    dsimp only [State.emit] at hclosed ⊢
    rw [h.suffix, ← suffixAt_succ]
    cases hcarry : (nextSuffix o.text (suffixAt o a done.length)).1 with
    | true =>
      rw [hcarry] at hnext
      rw [if_pos rfl]
      exact ⟨done ++ [cur ++ [l]], by omega, ⟨_, hlen, h.room, fun h' => Bool.noConfusion (hnext.mp h')⟩,
        hclosed, hgroups, hbytes⟩
    | false =>
      rw [if_neg Bool.false_ne_true]
      refine ⟨done ++ [cur ++ [l]], [], by rw [hlen]; exact hnext.mpr hcarry, by rw [hlen], ?_, hgroups,
        rfl, fun hm => by exact_mod_cast hm, fun hm => by omega, by rw [hbytes]; simp⟩
      dsimp only
      rw [hclosed, hlen]
      rfl
  · rw [if_neg (by exact hfull)]
    refine ⟨done, cur ++ [l], h.room, h.suffix, htrace, h.groups, hcount, fun hm => ?_, h.one, ?_⟩
    · have := h.lt hm
      dsimp only [State.emit]
      push_cast
      omega
    · rw [← hbytes, bytesOf_append]

/-! ### The loops -/

theorem cstring_append (h : 0 ∉ bs) (r : List UInt8) : cstring (bs ++ r) = bs ++ cstring r :=
  takeWhile_append_of_pos fun c hc => by simpa using fun h0 : c = 0 => h (h0 ▸ hc)

theorem strchr_cases (pa : List UInt8) : (strchr pa newline = none ∧ newline ∉ cstring pa) ∨
      ∃ x rest, newline ∉ x ∧ 0 ∉ x ++ [newline] ∧ pa = x ++ [newline] ++ rest ∧
        strchr pa newline = some x.length := by
  obtain ⟨tail, htail⟩ : cstring pa <+: pa := takeWhile_prefix _
  have h0 := zero_notMem_cstring pa
  unfold strchr
  generalize cstring pa = s at htail h0
  cases hfind : s.findIdx? (· == newline) with
  | none =>
    refine .inl ⟨rfl, fun hmem => ?_⟩
    have := findIdx?_eq_none_iff.mp hfind newline hmem
    simp at this
  | some pb =>
    obtain ⟨hlt, hpb, hbefore⟩ := findIdx?_eq_some_iff_getElem.mp hfind
    have hget : s[pb] = newline := by simpa using hpb
    have hsplit : s.take pb ++ [newline] = s.take (pb + 1) := by rw [← hget, take_append_getElem]
    refine .inr ⟨s.take pb, s.drop (pb + 1) ++ tail, fun hmem => ?_, ?_, ?_, ?_⟩
    · obtain ⟨j, hj, hget⟩ := mem_iff_getElem.mp hmem
      rw [length_take] at hj
      refine hbefore j (by omega) ?_
      rw [getElem_take] at hget
      simpa using hget
    · rw [hsplit]
      exact fun h => h0 (mem_of_mem_take h)
    · rw [hsplit, ← append_assoc, take_append_drop, htail]
    · rw [length_take, Nat.min_eq_left hlt.le]

/-- The loop over the lines of a block stops where the string has no line end left, or without
suffixes. -/
theorem splitLines_ends (k : ℕ) (hk : pa.length < k) (h : Rep o m a pre done cur used st) :
    match splitLines o.text m pre k pa st with
    | .ok (rest, st') => ∃ l done cur, pa = l ++ rest ∧ 0 ∉ l ∧ newline ∉ cstring rest ∧
        Rep o m a pre done cur (used ++ l) st'
    | .error st' => ∃ done l r, pa = l ++ r ∧ 0 ∉ l ∧ Full o m a pre done (used ++ l) st' := by
  induction k generalizing pa done cur used st with
  | zero => exact absurd hk (Nat.not_lt_zero _)
  | succ k ih =>
    unfold splitLines
    obtain ⟨hnone, hno⟩ | ⟨x, rest, hx, h0, rfl, hsome⟩ := strchr_cases pa
    · rw [hnone]
      exact ⟨[], done, cur, rfl, not_mem_nil, hno, by rwa [append_nil]⟩
    · have htake : (x ++ [newline] ++ rest).take (x.length + 1) = x ++ [newline] :=
        take_left' (by simp)
      have hdrop : (x ++ [newline] ++ rest).drop (x.length + 1) = rest := drop_left' (by simp)
      rw [hsome]
      dsimp only
      rw [htake, hdrop]
      have hcount := countLine_ends h hx
      cases hc : countLine o.text m pre (st.emit (.write (x ++ [newline]))) with
      | error st' =>
        rw [hc] at hcount
        obtain ⟨done', hfull⟩ := hcount
        exact ⟨done', x ++ [newline], rest, rfl, h0, hfull⟩
      | ok st' =>
        rw [hc] at hcount
        obtain ⟨done', cur', hrep⟩ := hcount
        have hlen : rest.length < k := by
          simp only [length_append, length_singleton] at hk
          omega
        have hnext := ih hlen hrep
        have h0' : ∀ {l : List UInt8}, 0 ∉ l → 0 ∉ x ++ [newline] ++ l := fun hl h' =>
          (mem_append.mp h').elim h0 hl
        change match splitLines o.text m pre k rest st' with
          | .ok (rest, st') => _
          | .error st' => _
        cases hs : splitLines o.text m pre k rest st' with
        | ok r =>
          rw [hs] at hnext
          obtain ⟨l, done'', cur'', hpa, hl, hno, hrep'⟩ := hnext
          refine ⟨x ++ [newline] ++ l, done'', cur'', ?_, h0' hl, hno, ?_⟩
          · simp [hpa]
          · rwa [← append_assoc]
        | error st'' =>
          rw [hs] at hnext
          obtain ⟨done'', l, r, hpa, hl, hfull⟩ := hnext
          refine ⟨done'', x ++ [newline] ++ l, r, ?_, h0' hl, ?_⟩
          · simp [hpa]
          · rwa [← append_assoc]

theorem splitBlock_ends (buf : List UInt8) (h : Rep o m a pre done cur used st) :
    Ends o m a pre (used ++ cstring buf) (splitBlock o.text m pre buf st) := by
  have hlines := splitLines_ends (buf.length + 1) (Nat.lt_succ_self _) h
  unfold splitBlock
  cases hs : splitLines o.text m pre (buf.length + 1) buf st with
  | error st' =>
    rw [hs] at hlines
    obtain ⟨done', l, r, rfl, h0, hfull⟩ := hlines
    exact ⟨done', used ++ l, cstring r, by rw [cstring_append h0, append_assoc], hfull⟩
  | ok p =>
    rw [hs] at hlines
    obtain ⟨rest, st'⟩ := p
    obtain ⟨l, done', cur', rfl, h0, hno, hrep⟩ := hlines
    change Ends o m a pre _ (if (l ++ rest).length - rest.length < strlen (l ++ rest) then
      .ok (st'.emit (.write (cstring rest))) else .ok st')
    rw [strlen, cstring_append h0, length_append, length_append, Nat.add_sub_cancel]
    split_ifs with hlen
    · refine ⟨done', cur' ++ [cstring rest], ?_⟩
      rw [← append_assoc]
      exact hrep.write hno
    · have hnil : cstring rest = [] := eq_nil_of_length_eq_zero (by omega)
      exact ⟨done', cur', by rwa [hnil, append_nil]⟩

def strings (bufs : List (List UInt8)) : List UInt8 := (bufs.map cstring).flatten

theorem strings_eq {bufs : List (List UInt8)} (h : 0 ∉ bufs.flatten) : strings bufs = bufs.flatten := by
  rw [strings, map_congr_left fun buf hb => cstring_eq fun h0 => h (mem_flatten.mpr ⟨buf, hb, h0⟩), map_id']

theorem splitBlocks_ends (bufs : List (List UInt8)) (h : Rep o m a pre done cur used st) :
    Ends o m a pre (used ++ strings bufs) (splitBlocks o.text m pre bufs st) := by
  induction bufs generalizing done cur used st with
  | nil =>
    rw [strings, map_nil, flatten_nil, append_nil]
    exact ⟨done, cur, h⟩
  | cons buf bufs ih =>
    have hblock := splitBlock_ends buf h
    have hcons : strings (buf :: bufs) = cstring buf ++ strings bufs := rfl
    rw [hcons, ← append_assoc, splitBlocks]
    cases hb : splitBlock o.text m pre buf st with
    | error st' =>
      rw [hb] at hblock
      obtain ⟨done', l, r, hused, hfull⟩ := hblock
      exact ⟨done', l, r ++ strings bufs, by rw [hused, append_assoc], hfull⟩
    | ok st' =>
      rw [hb] at hblock
      obtain ⟨done', cur', hrep⟩ := hblock
      exact ih hrep

theorem rep_opened (o : Stray) (m : ℤ) (a : ℕ) (pre : Str) : Rep o m a pre [] [] [] (opened o a pre) :=
  ⟨fun _ hi => absurd hi (Nat.not_lt_zero _), rfl, rfl, fun _ h => absurd h not_mem_nil, rfl, id,
    fun _ => rfl, rfl⟩

theorem split_ends (o : Stray) (m : ℤ) (a : ℕ) (pre : Str) (bufs : List (List UInt8)) :
    Ends o m a pre (strings bufs) (splitBlocks o.text m pre bufs (opened o a pre)) :=
  splitBlocks_ends bufs (rep_opened o m a pre)

end Xv6.Split
