import Xv6.Proofs.SplitGroups

/-! The files that `split` leaves: when nothing is lost, and what stays of the files that were there
before. -/

open Function List

namespace Xv6.Split

variable {o : Stray} {m a : ℕ} {pre : Str} {ps : List (List (List UInt8))} {bs : List UInt8} {st : State}
  {bufs : List (List UInt8)} {w : Files} {name : ℕ → Str} {key : List Str} {dir : Dir}
  {opens : List Str → Bool} {qs : List (List Str × List UInt8)} {q : List Str × List UInt8}

/-! ### What the parts do to files -/

def overwrite (old : Option (List UInt8)) (bs : List UInt8) : List UInt8 := bs ++ (old.getD []).drop bs.length

theorem runAll_writes (old : List UInt8) {x : List UInt8} (ws : List (List UInt8))
    (hfd : w.fd = some (key, x.length)) (hdir : w.dir key = some (x ++ old.drop x.length)) :
    (w.runAll (ws.map Sys.write)).opens = w.opens ∧
    (w.runAll (ws.map Sys.write)).dir = update w.dir key
      (some (x ++ ws.flatten ++ old.drop (x ++ ws.flatten).length)) := by
  induction ws generalizing w x with
  | nil => simp [Files.runAll, ← hdir]
  | cons bs ws ih =>
    have hstep : w.run (.write bs) = ⟨update w.dir key (some (x ++ bs ++ old.drop (x ++ bs).length)),
        w.opens, some (key, (x ++ bs).length)⟩ := by
      have hdrop : (x ++ old.drop x.length).drop (x.length + bs.length) = old.drop (x.length + bs.length) := by
        rw [← drop_drop, drop_left, drop_drop]
      simp only [Files.run, hfd, hdir, Option.getD_some, take_left, hdrop, length_append]
    rw [map_cons, Files.runAll, foldl_cons, hstep]
    obtain ⟨hopens, hfiles⟩ := ih (w := ⟨update w.dir key _, w.opens, _⟩) (x := x ++ bs) rfl (update_self ..)
    refine ⟨hopens, hfiles.trans ?_⟩
    rw [update_idem, flatten_cons, append_assoc x]

theorem runAll_lost (ws : List (List UInt8)) (hfd : w.fd = none) : w.runAll (ws.map Sys.write) = w := by
  induction ws with
  | nil => rfl
  | cons bs ws ih =>
    have hstep : w.run (.write bs) = w := by simp only [Files.run, hfd]
    rw [map_cons, Files.runAll, foldl_cons, hstep]
    exact ih

def storePart (opens : List Str → Bool) (dir : Dir) (q : List Str × List UInt8) : Dir :=
  if opens q.1 then update dir q.1 (some (overwrite (dir q.1) q.2)) else dir

def stored (opens : List Str → Bool) (dir : Dir) (qs : List (List Str × List UInt8)) : Dir :=
  qs.foldl (storePart opens) dir

theorem runAll_partCalls (path : Str) (ws : List (List UInt8)) :
    (w.runAll (partCalls path ws)).opens = w.opens ∧
      (w.runAll (partCalls path ws)).dir = storePart w.opens w.dir (fileKey path, ws.flatten) := by
  rw [partCalls, Files.runAll, foldl_cons, storePart]
  cases hopen : w.opens (fileKey path) with
  | true =>
    have hstep : w.run (.openPart path) = ⟨update w.dir (fileKey path)
        (some ((w.dir (fileKey path)).getD [])), w.opens, some (fileKey path, 0)⟩ := by
      simp only [Files.run, hopen, if_true]
    rw [hstep, if_pos rfl]
    obtain ⟨hopens, hfiles⟩ := runAll_writes (w := ⟨update w.dir (fileKey path) _, w.opens, _⟩)
      ((w.dir (fileKey path)).getD []) (x := []) ws rfl (update_self ..)
    exact ⟨hopens, hfiles.trans (update_idem ..)⟩
  | false =>
    have hstep : w.run (.openPart path) = { w with fd := none } := by
      simp only [Files.run, hopen, Bool.false_eq_true, if_false]
    have hlost : foldl Files.run { w with fd := none } (ws.map Sys.write) = _ := runAll_lost ws rfl
    rw [hstep, if_neg Bool.false_ne_true, hlost]
    exact ⟨rfl, rfl⟩

def filed (ps : List (Str × List UInt8)) : List (List Str × List UInt8) := ps.map fun p => (fileKey p.1, p.2)

theorem runAll_closedCalls (i : ℕ) :
    (w.runAll (closedCalls name i ps)).dir = stored w.opens w.dir (filed (named name i ps)) := by
  induction ps generalizing i w with
  | nil => rfl
  | cons ws ps ih =>
    obtain ⟨hopens, hfiles⟩ := @runAll_partCalls w (name i) ws
    have hall : w.runAll (closedCalls name i (ws :: ps)) =
        ((w.runAll (partCalls (name i) ws)).run .close).runAll (closedCalls name (i + 1) ps) := by
      rw [closedCalls, Files.runAll, foldl_append, foldl_cons]
      rfl
    rw [hall, ih]
    change stored (w.runAll (partCalls (name i) ws)).opens (w.runAll (partCalls (name i) ws)).dir _ = _
    rw [hopens, hfiles]
    rfl

/-! ### What is in the files -/

theorem stored_append : stored opens dir (qs ++ [q]) = storePart opens (stored opens dir qs) q := by
  rw [stored, foldl_append]
  rfl

theorem storePart_of_ne (h : key ≠ q.1) : storePart opens dir q key = dir key := by
  unfold storePart
  split_ifs
  · exact update_of_ne h _ _
  · rfl

theorem storePart_self (h : opens q.1 = true) : storePart opens dir q q.1 = some (overwrite (dir q.1) q.2) := by
  rw [storePart, if_pos h, update_self]

theorem length_overwrite (old : Option (List UInt8)) (bs : List UInt8) :
    (overwrite old bs).length = max bs.length (old.getD []).length := by
  rw [overwrite, length_append, length_drop]
  omega

theorem storePart_length_le : ((dir key).getD []).length ≤ ((storePart opens dir q key).getD []).length := by
  by_cases h : key = q.1
  · subst h
    cases hopen : opens q.1 with
    | true =>
      rw [storePart_self hopen, Option.getD_some, length_overwrite]
      exact le_max_right ..
    | false => rw [storePart, hopen, if_neg Bool.false_ne_true]
  · rw [storePart_of_ne h]

theorem length_le_stored : ((dir key).getD []).length ≤ ((stored opens dir qs key).getD []).length := by
  induction qs using reverseRecOn with
  | nil => exact le_rfl
  | append_singleton qs q ih =>
    rw [stored_append]
    exact ih.trans storePart_length_le

theorem length_part_le (hq : q ∈ qs) (hopen : opens q.1 = true) :
    q.2.length ≤ ((stored opens dir qs q.1).getD []).length := by
  induction qs using reverseRecOn with
  | nil => exact absurd hq not_mem_nil
  | append_singleton qs q' ih =>
    rw [stored_append]
    rcases mem_append.mp hq with hq | hq
    · exact (ih hq).trans storePart_length_le
    · obtain rfl := mem_singleton.mp hq
      rw [storePart_self hopen, Option.getD_some, length_overwrite]
      exact le_max_left ..

theorem stored_of_notMem (h : key ∉ qs.map Prod.fst) : stored opens dir qs key = dir key := by
  induction qs using reverseRecOn with
  | nil => rfl
  | append_singleton qs q ih =>
    rw [map_append, mem_append, not_or] at h
    rw [stored_append, storePart_of_ne (by simpa using h.2), ih h.1]

/-- A file has the bytes of its part when all parts with its name have the same, and it held no more
before. -/
theorem stored_eq (hq : q ∈ qs) (hopen : opens q.1 = true) (hold : ((dir q.1).getD []).length ≤ q.2.length)
    (hsame : ∀ q' ∈ qs, q'.1 = q.1 → q'.2 = q.2) : stored opens dir qs q.1 = some q.2 := by
  induction qs using reverseRecOn with
  | nil => exact absurd hq not_mem_nil
  | append_singleton qs q' ih =>
    rw [stored_append]
    have hbefore := fun q'' h => hsame q'' (mem_append_left _ h)
    by_cases hkey : q'.1 = q.1
    · rw [← hkey, storePart_self (hkey ▸ hopen), hsame q' (by simp) hkey, hkey, overwrite]
      -- what the file holds is no longer than the part
      have hle : ((stored opens dir qs q.1).getD []).length ≤ q.2.length := by
        by_cases hmem : q.1 ∈ qs.map Prod.fst
        · obtain ⟨q'', hq'', heq⟩ := mem_map.mp hmem
          have hmem' : q ∈ qs := Prod.ext heq (hbefore q'' hq'' heq) ▸ hq''
          rw [ih hmem' hbefore]
          exact le_rfl
        · rw [stored_of_notMem hmem]
          exact hold
      rw [drop_eq_nil_of_le hle, append_nil]
    · rw [storePart_of_ne (Ne.symm hkey)]
      refine ih ?_ hbefore
      rcases mem_append.mp hq with hq | hq
      · exact hq
      · exact absurd (congrArg Prod.fst (mem_singleton.mp hq)).symm hkey

theorem stored_exact : (∀ q ∈ qs, opens q.1 = true → stored opens dir qs q.1 = some q.2) ↔
    ∀ q ∈ qs, opens q.1 = true → ((dir q.1).getD []).length ≤ q.2.length ∧
      ∀ q' ∈ qs, q'.1 = q.1 → q'.2 = q.2 := by
  refine ⟨fun h q hq hopen => ⟨?_, fun q' hq' hkey => ?_⟩, fun h q hq hopen => ?_⟩
  · have hle : ((dir q.1).getD []).length ≤ ((stored opens dir qs q.1).getD []).length :=
      length_le_stored
    rwa [h q hq hopen] at hle
  · have h' := h q' hq' (hkey ▸ hopen)
    rw [hkey, h q hq hopen] at h'
    exact (Option.some.inj h').symm
  · exact stored_eq hq hopen (h q hq hopen).1 (h q hq hopen).2

/-! ### The files end to end -/

def firsts (l : List (List Str)) : List (List Str) := l.reverse.dedup.reverse

theorem firsts_append (l : List (List Str)) (key : List Str) :
    firsts (l ++ [key]) = if key ∈ l then firsts l else firsts l ++ [key] := by
  rw [firsts, reverse_append, reverse_singleton, singleton_append]
  split_ifs with h
  · rw [dedup_cons_of_mem (mem_reverse.mpr h), firsts]
  · rw [dedup_cons_of_notMem (by rwa [mem_reverse]), reverse_cons, firsts]

theorem mem_firsts {l : List (List Str)} : key ∈ firsts l ↔ key ∈ l := by
  rw [firsts, mem_reverse, mem_dedup, mem_reverse]

theorem nodup_firsts (l : List (List Str)) : (firsts l).Nodup := nodup_reverse.mpr (nodup_dedup _)

def joined (dir : Dir) (qs : List (List Str × List UInt8)) : List UInt8 :=
  (firsts (qs.map Prod.fst)).flatMap fun key => (dir key).getD []

theorem flatMap_storePart_of_notMem {l : List (List Str)} (h : q.1 ∉ l) :
    (l.flatMap fun key => (storePart opens dir q key).getD []) = l.flatMap fun key => (dir key).getD [] :=
  flatMap_congr fun key hkey => by rw [storePart_of_ne fun heq => h (heq ▸ hkey)]

theorem joined_append_nil (hdir : dir q.1 = none) (hq : q.2 = []) :
    joined (stored opens dir (qs ++ [q])) (qs ++ [q]) = joined (stored opens dir qs) qs := by
  have hsame : ∀ key, ((stored opens dir (qs ++ [q]) key).getD []) = (stored opens dir qs key).getD [] := by
    intro key
    rw [stored_append]
    by_cases h : key = q.1
    · subst h
      cases hopen : opens q.1 with
      | true => simp [storePart_self hopen, overwrite, hq]
      | false => rw [storePart, hopen, if_neg Bool.false_ne_true]
    · rw [storePart_of_ne h]
  rw [joined, flatMap_congr fun key _ => hsame key, map_append, map_singleton, firsts_append]
  split_ifs with hmem
  · rfl
  · rw [flatMap_append, flatMap_singleton, stored_of_notMem hmem, hdir]
    exact append_nil _

theorem joined_eq (hdir : ∀ q ∈ qs, dir q.1 = none) (hopen : ∀ q ∈ qs, opens q.1 = true)
    (hne : (qs.map Prod.fst).Nodup) : joined (stored opens dir qs) qs = qs.flatMap Prod.snd := by
  induction qs using reverseRecOn with
  | nil => rfl
  | append_singleton qs q ih =>
    rw [map_append, nodup_append'] at hne
    have hmem : q.1 ∉ qs.map Prod.fst := fun h => hne.2.2 h (by simp)
    have hih := ih (fun q' h => hdir q' (mem_append_left _ h)) (fun q' h => hopen q' (mem_append_left _ h))
      hne.1
    rw [joined] at hih
    rw [joined, map_append, map_singleton, firsts_append, if_neg hmem, flatMap_append, flatMap_append,
      stored_append, flatMap_storePart_of_notMem (by rwa [mem_firsts]), hih, flatMap_singleton,
      flatMap_singleton, storePart_self (hopen q (by simp)), stored_of_notMem hmem, hdir q (by simp)]
    simp [overwrite]

theorem length_flatMap_update {l : List (List Str)} (hl : l.Nodup) {f g : List Str → List UInt8}
    (hkey : key ∈ l) (hfg : ∀ k, k ≠ key → f k = g k) :
    (l.flatMap f).length + (g key).length = (l.flatMap g).length + (f key).length := by
  induction l with
  | nil => exact absurd hkey not_mem_nil
  | cons k l ih =>
    obtain ⟨hk, hl⟩ := nodup_cons.mp hl
    rw [flatMap_cons, flatMap_cons, length_append, length_append]
    rcases mem_cons.mp hkey with rfl | hmem
    · rw [flatMap_congr fun k' hk' => hfg k' fun h => hk (h ▸ hk')]
      omega
    · have := ih hl hmem
      rw [hfg k fun h => hk (h ▸ hmem)]
      omega

theorem length_joined_append (hdir : dir q.1 = none) :
    (joined (stored opens dir (qs ++ [q])) (qs ++ [q])).length = (joined (stored opens dir qs) qs).length +
      if opens q.1 then q.2.length - ((stored opens dir qs q.1).getD []).length else 0 := by
  have hself : ((storePart opens (stored opens dir qs) q q.1).getD []).length =
      ((stored opens dir qs q.1).getD []).length +
        if opens q.1 then q.2.length - ((stored opens dir qs q.1).getD []).length else 0 := by
    split_ifs with hopen
    · rw [storePart_self hopen, Option.getD_some, length_overwrite]
      omega
    · rw [storePart, if_neg hopen, Nat.add_zero]
  rw [joined, stored_append, map_append, map_singleton, firsts_append]
  by_cases hmem : q.1 ∈ qs.map Prod.fst
  · have hlen := length_flatMap_update (nodup_firsts (qs.map Prod.fst)) (mem_firsts.mpr hmem)
      (f := fun key => (storePart opens (stored opens dir qs) q key).getD [])
      (g := fun key => (stored opens dir qs key).getD []) fun k hk => by rw [storePart_of_ne hk]
    rw [if_pos hmem]
    change _ = (joined (stored opens dir qs) qs).length + _ at hlen
    omega
  · rw [if_neg hmem, flatMap_append, flatMap_storePart_of_notMem (by rwa [mem_firsts]), flatMap_singleton,
      length_append, hself, stored_of_notMem hmem, hdir, Option.getD_none, length_nil, Nat.zero_add]
    rfl

def Kept (opens : List Str → Bool) (qs : List (List Str × List UInt8)) : Prop :=
  (∀ q ∈ qs, q.2 ≠ [] → opens q.1 = true) ∧ qs.Pairwise fun q q' => q.2 ≠ [] → q'.2 ≠ [] → q.1 ≠ q'.1

theorem kept_append : Kept opens (qs ++ [q]) ↔ Kept opens qs ∧
    (q.2 ≠ [] → opens q.1 = true ∧ ∀ q' ∈ qs, q'.1 = q.1 → q'.2 = []) := by
  simp only [Kept, pairwise_append, mem_append, mem_singleton, or_imp, forall_and, forall_eq,
    pairwise_singleton, true_and]
  grind

/-- The files hold at most the bytes of the parts, and all of them only if the parts are kept. -/
theorem length_joined (hdir : ∀ q ∈ qs, dir q.1 = none) :
    (joined (stored opens dir qs) qs).length ≤ (qs.flatMap Prod.snd).length ∧
      ((joined (stored opens dir qs) qs).length = (qs.flatMap Prod.snd).length → Kept opens qs) := by
  induction qs using reverseRecOn with
  | nil => exact ⟨le_rfl, fun _ => ⟨fun _ h => absurd h not_mem_nil, .nil⟩⟩
  | append_singleton qs q ih =>
    obtain ⟨hle, hkept⟩ := ih fun q' h => hdir q' (mem_append_left _ h)
    rw [length_joined_append (hdir q (by simp)), flatMap_append, flatMap_singleton, length_append, kept_append]
    split_ifs with hopen
    · refine ⟨by omega, fun heq => ⟨hkept (by omega), fun hne => ⟨hopen, fun q' hq' hkey => ?_⟩⟩⟩
      have hpos := length_pos_iff.mpr hne
      have hlen : q'.2.length ≤ ((stored opens dir qs q'.1).getD []).length :=
        length_part_le hq' (hkey ▸ hopen)
      rw [hkey] at hlen
      exact eq_nil_of_length_eq_zero (by omega)
    · refine ⟨by omega, fun heq => ⟨hkept (by omega), fun hne => ?_⟩⟩
      have hpos := length_pos_iff.mpr hne
      omega

/-- When all parts but the last have bytes, the files end to end are the parts end to end exactly if
the parts are kept. -/
theorem joined_iff (hdir : ∀ q' ∈ qs ++ [q], dir q'.1 = none) (hne : ∀ q' ∈ qs, q'.2 ≠ []) :
    joined (stored opens dir (qs ++ [q])) (qs ++ [q]) = (qs ++ [q]).flatMap Prod.snd ↔
      Kept opens (qs ++ [q]) := by
  refine ⟨fun h => (length_joined hdir).2 (congrArg length h), fun h => ?_⟩
  have hall : ∀ {qs : List (List Str × List UInt8)}, (∀ q ∈ qs, dir q.1 = none) → (∀ q ∈ qs, q.2 ≠ []) →
      Kept opens qs → joined (stored opens dir qs) qs = qs.flatMap Prod.snd := by
    intro qs hdir hne h
    refine joined_eq hdir (fun q hq => h.1 q hq (hne q hq)) ?_
    rw [Nodup, pairwise_map]
    exact h.2.imp_of_mem fun hq hq' hpq => hpq (hne _ hq) (hne _ hq')
  by_cases hnil : q.2 = []
  · rw [joined_append_nil (hdir q (by simp)) hnil, flatMap_append, flatMap_singleton, hnil, append_nil]
    exact hall (fun q' hq' => hdir q' (mem_append_left _ hq')) hne (kept_append.mp h).1
  · refine hall hdir (fun q' hq' => ?_) h
    rcases mem_append.mp hq' with hq' | hq'
    · exact hne q' hq'
    · exact mem_singleton.mp hq' ▸ hnil

/-! ### The results -/

def partKey (o : Stray) (pre : Str) (a i : ℕ) : List Str := fileKey (partName o pre a i)

structure Complete (o : Stray) (m a : ℕ) (pre : Str) (input : List UInt8) (n : ℕ) (st : State) : Prop where
  parts : parts st.trace = (range (n + 1)).map fun i => (partName o pre a i, group m i input)
  files : ∀ w : Files, (w.runAll st.trace).dir =
    stored w.opens w.dir ((range (n + 1)).map fun i => (partKey o pre a i, group m i input))
  full : ∀ i < n, group m i input ≠ []
  rest : ∀ i, n < i → group m i input = []
  bytes : (range (n + 1)).flatMap (fun i => group m i input) = input

theorem complete_of_parts {n : ℕ} (hlen : ps.length = n + 1)
    (htrace : st.trace = closedCalls (partName o pre a) 0 ps)
    (hgroup : ∀ i, group m i bs = ((ps.map flatten)[i]?).getD []) (hfull : ∀ ws ∈ ps.take n, ws.flatten ≠ [])
    (hbytes : bytesOf ps = bs) : Complete o m a pre bs n st := by
  have hget : ∀ i (h : i < ps.length), group m i bs = ps[i].flatten := fun i h => by
    rw [hgroup, getElem?_map, getElem?_eq_getElem h]
    rfl
  have hnamed : named (partName o pre a) 0 ps =
      (range (n + 1)).map fun i => (partName o pre a i, group m i bs) := by
    refine ext_getElem (by simp [named, hlen]) fun i h1 h2 => ?_
    have hi : i < ps.length := by simpa [hlen] using h2
    simp [named, hget i hi]
  have hall : (range (n + 1)).map (fun i => group m i bs) = ps.map flatten := by
    refine ext_getElem (by simp [hlen]) fun i h1 h2 => ?_
    have hi : i < ps.length := by simpa using h2
    simp [hget i hi]
  refine ⟨(parts_eq htrace).trans hnamed, fun w => ?_, fun i hi => ?_, fun i hi => ?_, ?_⟩
  · rw [htrace, runAll_closedCalls, hnamed, filed, map_map]
    rfl
  · rw [hget i (by omega)]
    refine hfull _ (mem_iff_getElem.mpr ⟨i, by rw [length_take]; omega, getElem_take⟩)
  · rw [hgroup, getElem?_eq_none (by rw [length_map]; omega)]
    rfl
  · rw [flatMap_def, hall]
    exact hbytes

theorem IsGroup.ne_nil {n : ℤ} (h : IsGroup n bs) : bs ≠ [] := fun hnil => by
  rw [hnil] at h
  cases h.2

theorem Done.complete (hm : 1 ≤ m) {done : List (List (List UInt8))} {cur : List (List UInt8)}
    (h : Done o m a pre done cur bs st) : Complete o m a pre bs done.length st := by
  refine complete_of_parts length_append h.trace (fun i => ?_) (fun ws hws => ?_) h.bytes
  · have hgs : ∀ g ∈ done.map flatten, IsGroup m g := fun g hg => by
      obtain ⟨ws, hws, rfl⟩ := mem_map.mp hg
      exact h.groups ws hws
    have hbs : (done.map flatten).flatten ++ cur.flatten = bs := (bytesOf_append cur).symm.trans h.bytes
    rw [← hbs, map_append]
    exact group_append hm hgs (h.count_lt hm) i
  · rw [take_left] at hws
    exact (h.groups ws hws).ne_nil

theorem Full.complete (hm : 1 ≤ m) {done : List (List (List UInt8))} (h : Full o m a pre done bs st) :
    Complete o m a pre bs (done.length - 1) st := by
  obtain ⟨n, hlen, -⟩ := h.length
  refine complete_of_parts (by omega) h.trace (fun i => ?_) (fun ws hws => ?_) h.bytes
  · have hgs : ∀ g ∈ done.map flatten, IsGroup m g := fun g hg => by
      obtain ⟨ws, hws, rfl⟩ := mem_map.mp hg
      exact h.groups ws hws
    have := group_append hm hgs (by rwa [count_nil] : [].count newline < m) i
    rw [append_nil, ← bytesOf, h.bytes] at this
    rw [this, getElem?_append]
    split_ifs with hi
    · rfl
    · rw [getElem?_eq_none (not_lt.mp hi)]
      cases i - (done.map flatten).length <;> rfl
  · exact (h.groups ws (mem_of_mem_take hws)).ne_nil

/-- A run for which there are enough suffixes writes the whole input, though it may end with the error
when the last part is full. -/
theorem split_complete (hm : 1 ≤ m) {k : ℕ} (hk : Enough o a k)
    (hfits : dropLines ((k + 1) * m) (strings bufs) = []) :
    ∃ n, Complete o m a pre (strings bufs) n (final (split o m a pre bufs)) := by
  obtain ⟨st, done, cur, hok, hdone⟩ | ⟨st, done, l, r, herr, hused, hfull⟩ := split_cases o m a pre bufs
  · rw [hok]
    exact ⟨_, hdone.complete hm⟩
  · obtain ⟨n, hlen, -, hout⟩ := hfull.length
    have hkn : k ≤ n := by
      by_contra hlt
      exact hout (hk.mono (by omega))
    -- the error comes when everything has been written
    have hrest := dropLines_append hfull.getLast r
    rw [hfull.count_eq, hlen, ← hused] at hrest
    obtain ⟨d, hd⟩ := Nat.exists_eq_add_of_le (Nat.mul_le_mul_right m (Nat.succ_le_succ hkn))
    rw [hd, dropLines_add, hfits, dropLines_nil] at hrest
    rw [herr, hused, ← hrest, append_nil]
    exact ⟨_, hfull.complete hm⟩

theorem kept_map_range {n : ℕ} {k : ℕ → List Str} {g : ℕ → List UInt8} :
    Kept opens ((range n).map fun i => (k i, g i)) ↔ ∀ i < n, g i ≠ [] →
      opens (k i) = true ∧ ∀ j < n, g j ≠ [] → k j = k i → j = i := by
  simp only [Kept, forall_mem_map, mem_range, pairwise_map]
  rw [pairwise_iff_getElem]
  simp only [length_range, getElem_range]
  constructor
  · rintro ⟨hopen, hpair⟩ i hi hne
    refine ⟨hopen i hi hne, fun j hj hne' heq => ?_⟩
    rcases lt_trichotomy i j with hlt | rfl | hlt
    · exact absurd heq.symm (hpair i j hi hj hlt hne hne')
    · rfl
    · exact absurd heq (hpair j i hj hi hlt hne' hne)
  · intro h
    refine ⟨fun i hi hne => (h i hi hne).1, fun i j hi hj hlt hne hne' heq => ?_⟩
    exact hlt.ne ((h j hj hne').2 i hi hne heq)

theorem split_closed (o : Stray) (m : ℤ) (a : ℕ) (pre : Str) (bufs : List (List UInt8)) :
    ∃ ps, (final (split o m a pre bufs)).trace = closedCalls (partName o pre a) 0 ps ∧
      (bytesOf ps).length ≤ (strings bufs).length := by
  obtain ⟨st, done, cur, hok, hdone⟩ | ⟨st, done, l, r, herr, hused, hfull⟩ := split_cases o m a pre bufs
  · rw [hok]
    exact ⟨_, hdone.trace, by rw [hdone.bytes]⟩
  · rw [herr]
    exact ⟨_, hfull.trace, by rw [hfull.bytes, hused, length_append]; omega⟩

theorem length_strings_lt (h : 0 ∈ bufs.flatten) : (strings bufs).length < bufs.flatten.length := by
  have hle : ∀ buf : List UInt8, (cstring buf).length ≤ buf.length := fun buf =>
    ( takeWhile_prefix _).length_le
  rw [strings, length_flatten, length_flatten, map_map]
  obtain ⟨buf, hb, h0⟩ := mem_flatten.mp h
  refine sum_lt_sum _ _ (fun buf _ => hle buf) ⟨buf, hb, lt_of_le_of_ne (hle buf) fun heq => ?_⟩
  have hall : cstring buf = buf := ( takeWhile_prefix _).eq_of_length heq
  exact zero_notMem_cstring buf (by rwa [hall])

theorem concat_closed {trace : List Sys} (h : trace = closedCalls name 0 ps) :
    concat (w.runAll trace).dir trace =
      joined (stored w.opens w.dir (filed (named name 0 ps))) (filed (named name 0 ps)) := by
  rw [concat, partFiles, parts_eq h, h, runAll_closedCalls, joined, firsts, filed, map_map]
  rfl

/-- When there are no files under the names of the parts and enough suffixes, nothing is lost exactly
if the input has no NUL, and the files of the parts that have bytes can be opened and differ. -/
theorem split_loses_nothing (hm : 1 ≤ m) {k : ℕ} (hk : Enough o a k)
    (hfits : dropLines ((k + 1) * m) bufs.flatten = []) (hnew : ∀ i, w.dir (partKey o pre a i) = none) :
    concat (w.runAll (final (split o m a pre bufs)).trace).dir (final (split o m a pre bufs)).trace =
        bufs.flatten ↔
      0 ∉ bufs.flatten ∧ ∀ i, group m i bufs.flatten ≠ [] → w.opens (partKey o pre a i) = true ∧
        ∀ j, group m j bufs.flatten ≠ [] → partKey o pre a j = partKey o pre a i → j = i := by
  by_cases h0 : 0 ∈ bufs.flatten
  · -- some bytes are not written at all
    refine iff_of_false (fun heq => ?_) fun h => h.1 h0
    obtain ⟨ps, htrace, hle⟩ := split_closed o m a pre bufs
    have hlt := length_strings_lt h0
    have hnone : ∀ q ∈ filed (named (partName o pre a) 0 ps), w.dir q.1 = none := by
      intro q hq
      obtain ⟨p, hp, rfl⟩ := mem_map.mp hq
      obtain ⟨x, -, rfl⟩ := mem_map.mp hp
      exact hnew x.2
    have hjoin := (concat_closed (w := w) htrace ▸ length_joined hnone).1
    rw [heq, filed, flatMap_map, flatMap_def, map_snd_named] at hjoin
    exact absurd (hjoin.trans hle) (not_le.mpr hlt)
  · rw [← strings_eq h0] at hfits ⊢
    obtain ⟨n, hc⟩ : ∃ n, Complete o m a pre (strings bufs) n (final (split o m a pre bufs)) :=
      split_complete hm hk hfits
    rw [and_iff_right (by rwa [strings_eq h0])]
    set g := fun i => group m i (strings bufs) with hg
    set qs := (range (n + 1)).map fun i => (partKey o pre a i, g i) with hqs
    have hconcat : concat (w.runAll (final (split o m a pre bufs)).trace).dir
        (final (split o m a pre bufs)).trace = joined (stored w.opens w.dir qs) qs := by
      rw [concat, partFiles, hc.parts, hc.files w, joined, firsts, hqs, map_map, map_map]
      rfl
    have hbytes : qs.flatMap Prod.snd = strings bufs := by
      rw [hqs, flatMap_map]
      exact hc.bytes
    have hjoin : joined (stored w.opens w.dir qs) qs = strings bufs ↔ Kept w.opens qs := by
      rw [← hbytes, hqs, range_succ, map_append, map_singleton]
      refine joined_iff (fun q hq => ?_) fun q hq => ?_
      · rw [← map_singleton (f := fun i => (partKey o pre a i, g i)), ← map_append] at hq
        obtain ⟨i, -, rfl⟩ := mem_map.mp hq
        exact hnew i
      · obtain ⟨i, hi, rfl⟩ := mem_map.mp hq
        exact hc.full i (mem_range.mp hi)
    rw [hconcat, hjoin, hqs, kept_map_range]
    -- the other parts have no bytes
    have hlt : ∀ i, g i ≠ [] → i < n + 1 := fun i hne => by
      by_contra hge
      exact hne (hc.rest i (by omega))
    exact ⟨fun h i hne => ⟨(h i (hlt i hne) hne).1, fun j hne' => (h i (hlt i hne) hne).2 j (hlt j hne') hne'⟩,
      fun h i _ hne => ⟨(h i hne).1, fun j _ => (h i hne).2 j⟩⟩

def noFiles : Files := ⟨fun _ => none, fun _ => true, none⟩

/-- One line, and a prefix that leaves no room for the suffix in a directory entry. -/
theorem split_loses_nothing_long : concat
    (noFiles.runAll (final (split ⟨[], 0⟩ (1 : ℕ) 1 (replicate 14 120) [[97, 10]])).trace).dir
    (final (split ⟨[], 0⟩ (1 : ℕ) 1 (replicate 14 120) [[97, 10]])).trace = [97, 10] := by
  refine (@split_loses_nothing ⟨[], 0⟩ 1 1 (replicate 14 120) [[97, 10]] noFiles (by decide) 1
    ((enough_iff rfl).mpr (by decide)) (by decide) fun _ => rfl).mpr ⟨by decide, fun i hi => ⟨rfl, fun j hj _ => ?_⟩⟩
  have hone : ∀ i, group 1 i [97, 10] ≠ [] → i = 0 := fun i hi => by
    cases i with
    | zero => rfl
    | succ i =>
      refine absurd ?_ hi
      rw [group, dropLines_eq_nil_iff.mpr ?_]
      · rfl
      · rw [Nat.mul_one]
        cases i <;> simp [newline]
  rw [hone i hi, hone j hj]

/-- What follows a NUL in a block is lost. -/
theorem split_loses_nul : concat
    (noFiles.runAll (final (split ⟨[], 0⟩ (1000 : ℕ) 1 [120] [[97, 0, 98]])).trace).dir
    (final (split ⟨[], 0⟩ (1000 : ℕ) 1 [120] [[97, 0, 98]])).trace ≠ [97, 0, 98] := by
  decide +kernel

/-- A run without error leaves exactly the lines of each part in the files that could be opened, if and
only if no such file held more before, and parts with one file have the same lines. -/
theorem split_overwrites (hm : 1 ≤ m) (h0 : 0 ∉ bufs.flatten)
    (hok : Enough o a (bufs.flatten.count newline / m)) :
    ∃ st, split o m a pre bufs = .ok st ∧
      parts st.trace = (range (bufs.flatten.count newline / m + 1)).map (fun i =>
        (partName o pre a i, group m i bufs.flatten)) ∧
      ((∀ i ≤ bufs.flatten.count newline / m, w.opens (partKey o pre a i) = true →
          (w.runAll st.trace).dir (partKey o pre a i) = some (group m i bufs.flatten)) ↔
        ∀ i ≤ bufs.flatten.count newline / m, w.opens (partKey o pre a i) = true →
          ((w.dir (partKey o pre a i)).getD []).length ≤ (group m i bufs.flatten).length ∧
          ∀ j ≤ bufs.flatten.count newline / m, partKey o pre a j = partKey o pre a i →
            group m j bufs.flatten = group m i bufs.flatten) := by
  rw [← strings_eq h0] at hok ⊢
  obtain ⟨st, done, cur, hrun, hdone⟩ | ⟨st, -, -, -, herr, -⟩ := split_cases o m a pre bufs
  · have hc := hdone.complete hm
    rw [hdone.length_eq hm] at hc
    have hiff := @stored_exact w.dir w.opens ((range ((strings bufs).count newline / m + 1)).map fun i =>
      (partKey o pre a i, group m i (strings bufs)))
    simp only [forall_mem_map, mem_range, Nat.lt_succ_iff] at hiff
    refine ⟨st, hrun, hc.parts, ?_⟩
    rw [hc.files w]
    exact hiff
  · exact absurd hok ((split_error hm).mp ⟨st, herr⟩)

def oldFile : Files :=
  ⟨fun key => if key = [[120, 97]] then some [111, 108, 100, 10] else none, fun _ => true, none⟩

theorem split_overwrites_old : ∃ st, split ⟨[], 0⟩ (1 : ℕ) 1 [120] [[97, 98, 99, 10], [100]] = .ok st ∧
    ∀ i ≤ 1, (oldFile.runAll st.trace).dir (partKey ⟨[], 0⟩ [120] 1 i) =
      some (group 1 i [97, 98, 99, 10, 100]) := by
  obtain ⟨st, hrun, -, hiff⟩ := @split_overwrites ⟨[], 0⟩ 1 1 [120] [[97, 98, 99, 10], [100]] oldFile
    (by decide) (by decide) ((enough_iff rfl).mpr (by decide))
  exact ⟨st, hrun, fun i hi => hiff.mpr (by decide +kernel) i hi rfl⟩

/-- The file keeps the end of what it held before. -/
theorem split_leftover : ∃ st, split ⟨[], 0⟩ (1000 : ℕ) 1 [120] [[97, 10]] = .ok st ∧
    ([120, 97], [97, 10]) ∈ parts st.trace ∧
      (oldFile.runAll st.trace).dir (fileKey [120, 97]) ≠ some [97, 10] :=
  ⟨final (split ⟨[], 0⟩ (1000 : ℕ) 1 [120] [[97, 10]]), rfl, by decide +kernel, by decide +kernel⟩

end Xv6.Split
