import Xv6.Proofs.SplitFiles
import Xv6.Spec.SplitCopies

/-! The two copies of `split` agree when no read is shorter than what the buffer holds from the read
before, and when the suffixes run out before the last one. Otherwise the copy that does not clear the
buffer writes the old bytes once more. -/

namespace Xv6.Split

open List

variable {o : Stray} {m : ℤ} {a : ℕ} {pre : Str} {st : State} {buf : List UInt8} {rs : List (List UInt8)}

def Chunked : List (List UInt8) → Prop
  | [] => True
  | [b] => b ≠ [] ∧ b.length ≤ BUFSIZE
  | b :: c :: rs => b.length = BUFSIZE ∧ Chunked (c :: rs)

theorem readsFrom_spec {k : ℕ} {bs : List UInt8} (hk : bs.length ≤ k) :
    Chunked (readsFrom k bs) ∧ (readsFrom k bs).flatten = bs := by
  induction k generalizing bs with
  | zero =>
    obtain rfl := eq_nil_of_length_eq_zero (Nat.le_zero.mp hk)
    exact ⟨trivial, rfl⟩
  | succ k ih =>
    rw [readsFrom]
    by_cases hnil : bs = []
    · subst hnil
      exact ⟨trivial, rfl⟩
    · rw [if_neg hnil]
      have hpos : 0 < bs.length := length_pos_iff.mpr hnil
      have hsize : 0 < BUFSIZE := by decide
      obtain ⟨hc, hflat⟩ := @ih (bs.drop BUFSIZE) (by rw [length_drop]; omega)
      refine ⟨?_, by rw [flatten_cons, hflat, take_append_drop]⟩
      cases hrest : readsFrom k (bs.drop BUFSIZE) with
      | nil => exact ⟨by simp [hnil, hsize.ne'], length_take_le ..⟩
      | cons c rs =>
        rw [hrest] at hc
        refine ⟨length_take_of_le ?_, hc⟩
        by_contra hlt
        rw [drop_eq_nil_of_le (by omega)] at hrest
        cases k <;> simp [readsFrom] at hrest

theorem Chunked.full (h : Chunked rs) (hdvd : BUFSIZE ∣ rs.flatten.length) :
    ∀ b ∈ rs, b.length = BUFSIZE := by
  induction rs with
  | nil => simp
  | cons b rs ih =>
    cases rs with
    | nil =>
      rw [flatten_singleton] at hdvd
      have hle := Nat.le_of_dvd (length_pos_iff.mpr h.1) hdvd
      simpa using Nat.le_antisymm h.2 hle
    | cons c rs =>
      rw [flatten_cons, length_append, h.1, Nat.dvd_add_right dvd_rfl] at hdvd
      intro x hx
      rcases mem_cons.mp hx with rfl | hx
      · exact h.1
      · exact ih h.2 hdvd x hx

def buffers (clear : Bool) : List UInt8 → List (List UInt8) → List (List UInt8)
  | _, [] => []
  | buf, b :: rs => (b ++ buf.drop b.length) ::
      buffers clear (if clear then zeros else b ++ buf.drop b.length) rs

theorem splitReads_eq (clear : Bool) (text : UInt8) :
    splitReads clear text m pre buf rs st = splitBlocks text m pre (buffers clear buf rs) st := by
  induction rs generalizing buf st with
  | nil => rfl
  | cons b rs ih =>
    rw [splitReads, buffers, splitBlocks]
    exact congrArg _ (funext fun st' => ih)

theorem splitCopy_eq (clear : Bool) (o : Stray) (m : ℤ) (a : ℕ) (pre : Str) (content : List UInt8) :
    splitCopy clear o m a pre content = split o m a pre (buffers clear zeros (reads content)) := by
  rw [splitCopy, splitReads_eq]
  rfl

theorem buffers_full (clear : Bool) (h : ∀ b ∈ rs, b.length = BUFSIZE) (hbuf : buf.length = BUFSIZE) :
    buffers clear buf rs = rs := by
  induction rs generalizing buf with
  | nil => rfl
  | cons b rs ih =>
    obtain ⟨hb, hrest⟩ := forall_mem_cons.mp h
    rw [buffers, drop_eq_nil_of_le (by omega), append_nil, ih hrest (by split_ifs <;> simp [zeros, hb])]

theorem cstring_zeros {b : List UInt8} (hb : 0 ∉ b) : cstring (b ++ zeros.drop b.length) = b := by
  rw [cstring_append hb, zeros, drop_replicate]
  cases BUFSIZE - b.length <;> simp [cstring, replicate_succ]

theorem strings_clear (h0 : 0 ∉ rs.flatten) : strings (buffers true zeros rs) = rs.flatten := by
  induction rs with
  | nil => rfl
  | cons b rs ih =>
    rw [flatten_cons, mem_append, not_or] at h0
    have hcons : strings (buffers true zeros (b :: rs)) =
        cstring (b ++ zeros.drop b.length) ++ strings (buffers true zeros rs) := rfl
    rw [hcons, cstring_zeros h0.1, ih h0.2, flatten_cons]

theorem strings_stale (h : Chunked rs) (h0 : 0 ∉ rs.flatten) (hbuf : 0 ∉ buf) (hlen : buf.length = BUFSIZE)
    (hdvd : ¬BUFSIZE ∣ rs.flatten.length) :
    ∃ stale, stale ≠ [] ∧ strings (buffers false buf rs) = rs.flatten ++ stale := by
  induction rs generalizing buf with
  | nil => exact absurd (dvd_zero _) hdvd
  | cons b rs ih =>
    rw [flatten_cons, mem_append, not_or] at h0
    have hmem : 0 ∉ b ++ buf.drop b.length := fun h' =>
      (mem_append.mp h').elim h0.1 fun h' => hbuf (mem_of_mem_drop h')
    have hcons : strings (buffers false buf (b :: rs)) =
        cstring (b ++ buf.drop b.length) ++ strings (buffers false (b ++ buf.drop b.length) rs) := rfl
    rw [hcons, cstring_eq hmem]
    cases rs with
    | nil =>
      rw [flatten_singleton] at hdvd ⊢
      refine ⟨buf.drop b.length, fun hnil => hdvd ?_, by simp [strings, buffers]⟩
      rw [drop_eq_nil_iff, hlen] at hnil
      rw [Nat.le_antisymm h.2 hnil]
    | cons c rs =>
      rw [drop_eq_nil_of_le (by rw [h.1, hlen]), append_nil]
      rw [flatten_cons, length_append, h.1, Nat.dvd_add_right dvd_rfl] at hdvd
      obtain ⟨stale, hne, heq⟩ := ih h.2 h0.2 h0.1 h.1 hdvd
      exact ⟨stale, hne, by rw [heq, flatten_cons (l := b), append_assoc]⟩

theorem reads_long {content : List UInt8} (h : ¬content.length ≤ BUFSIZE) :
    ∃ b rs, reads content = b :: rs ∧ b.length = BUFSIZE ∧ Chunked rs ∧ b ++ rs.flatten = content := by
  obtain ⟨hc, hflat⟩ : Chunked (reads content) ∧ (reads content).flatten = content := readsFrom_spec le_rfl
  match hrs : reads content with
  | [] =>
    rw [hrs] at hflat
    exact absurd (hflat ▸ Nat.zero_le _) h
  | [b] =>
    rw [hrs] at hc hflat
    rw [flatten_singleton] at hflat
    exact absurd (hflat ▸ hc.2) h
  | b :: c :: rs =>
    rw [hrs] at hc hflat
    exact ⟨b, c :: rs, rfl, hc.1, hc.2, hflat⟩

theorem Done.total {done : List (List (List UInt8))} {cur : List (List UInt8)} {used : List UInt8}
    (h : Done o m a pre done cur used st) : (parts st.trace).flatMap Prod.snd = used := by
  rw [parts_eq h.trace, flatMap_def, map_snd_named]
  exact h.bytes

theorem Full.total {done : List (List (List UInt8))} {used : List UInt8}
    (h : Full o m a pre done used st) : (parts st.trace).flatMap Prod.snd = used := by
  rw [parts_eq h.trace, flatMap_def, map_snd_named]
  exact h.bytes

theorem Full.parts_eq {n : ℕ} {st' : State} {done done' : List (List (List UInt8))} {l l' r r' x : List UInt8}
    (hn : 1 ≤ n) (h : Full o n a pre done l st) (h' : Full o n a pre done' l' st')
    (hx : l ++ r ++ x = l' ++ r') : parts st.trace = parts st'.trace := by
  obtain ⟨k, hlen, hk, hout⟩ := h.length
  obtain ⟨k', hlen', hk', hout'⟩ := h'.length
  obtain rfl : k = k' := by
    by_contra hne
    rcases Nat.lt_or_gt_of_ne hne with hlt | hlt
    · exact hout (hk'.mono hlt)
    · exact hout' (hk.mono hlt)
  have hr : r ++ x = r' := by
    have hdrop := dropLines_append h'.getLast r'
    rw [← hx, append_assoc, h'.count_eq, hlen', ← hlen, ← h.count_eq, dropLines_append h.getLast] at hdrop
    exact hdrop
  obtain rfl : l = l' := by
    rw [append_assoc, hr] at hx
    exact append_cancel_right hx
  rw [(h.complete hn).parts, (h'.complete hn).parts, hlen, hlen']

theorem parts_extended {bufs bufs' : List (List UInt8)} {content stale : List UInt8}
    (hs : strings bufs = content) (hs' : strings bufs' = content ++ stale) (hne : stale ≠ []) :
    parts (final (split o m a pre bufs)).trace = parts (final (split o m a pre bufs')).trace ↔
      0 < m ∧ ¬Enough o a (content.count newline / m.toNat) := by
  obtain ⟨st, done, cur, hok, hdone⟩ | ⟨st, done, l, r, herr, hl, hfull⟩ := split_cases o m a pre bufs
  · rw [hs] at hdone
    refine iff_of_false (fun heq => ?_) ?_
    · have htotal := congrArg (flatMap Prod.snd) heq
      rw [hok, final, hdone.total] at htotal
      obtain ⟨st', done', cur', hok', hdone'⟩ | ⟨st', done', l', r', herr', -, hfull'⟩ :=
        split_cases o m a pre bufs'
      · rw [hok', final, hdone'.total, hs'] at htotal
        exact hne (self_eq_append_right.mp htotal)
      · obtain ⟨n, rfl⟩ := Int.eq_ofNat_of_zero_le hfull'.pos.le
        have hn : 0 < n := Int.natCast_pos.mp hfull'.pos
        rw [herr', final, hfull'.total] at htotal
        obtain ⟨k, hlen, -, hout⟩ := hfull'.length
        refine hout (hdone.room.mono (le_of_eq ?_))
        rw [hdone.length_eq hn, htotal, hfull'.count_eq, hlen, Nat.mul_div_cancel _ hn]
    · rintro ⟨hm, hnot⟩
      obtain ⟨n, rfl⟩ := Int.eq_ofNat_of_zero_le hm.le
      exact hnot (hdone.length_eq (Int.natCast_pos.mp hm) ▸ hdone.room)
  · obtain ⟨n, rfl⟩ := Int.eq_ofNat_of_zero_le hfull.pos.le
    have hn : 1 ≤ n := Int.natCast_pos.mp hfull.pos
    have hnot := (split_error hn).mp ⟨st, herr⟩
    rw [hs] at hnot hl
    refine iff_of_true ?_ ⟨hfull.pos, hnot⟩
    obtain ⟨st', done', cur', hok', hdone'⟩ | ⟨st', done', l', r', herr', hl', hfull'⟩ :=
      split_cases o n a pre bufs'
    · refine absurd (hdone'.room.mono ?_) hnot
      rw [hdone'.length_eq hn, hs', count_append]
      exact Nat.div_le_div_right (Nat.le_add_right ..)
    · rw [herr, herr', final, final]
      exact hfull.parts_eq hn hfull' (by rw [← hl, ← hs', hl'])

/-- The copies write the same parts exactly when the input fits into the buffer, or fills it with every
read, or the suffixes run out. -/
theorem split_copies_agree {content : List UInt8} (h0 : 0 ∉ content) (o : Stray) (m : ℤ) (a : ℕ)
    (pre : Str) :
    parts (final (splitFile o m a pre content)).trace =
        parts (final (liteSplitFile o m a pre content)).trace ↔
      content.length ≤ BUFSIZE ∨ BUFSIZE ∣ content.length ∨
        0 < m ∧ ¬Enough o a (content.count newline / m.toNat) := by
  obtain ⟨hc, hflat⟩ : Chunked (reads content) ∧ (reads content).flatten = content := readsFrom_spec le_rfl
  rw [splitFile, liteSplitFile, splitCopy_eq, splitCopy_eq]
  by_cases hle : content.length ≤ BUFSIZE
  · -- one read at most
    refine iff_of_true ?_ (.inl hle)
    match hrs : reads content with
    | [] => rfl
    | [b] => rfl
    | b :: c :: rs =>
      rw [hrs] at hc hflat
      have hpos : 0 < c.length := by
        cases rs with
        | nil => exact length_pos_iff.mpr hc.2.1
        | cons d rs => rw [hc.2.1]; decide
      rw [← hflat, flatten_cons, flatten_cons, length_append, length_append, hc.1] at hle
      omega
  by_cases hdvd : BUFSIZE ∣ content.length
  · refine iff_of_true ?_ (.inr (.inl hdvd))
    have hfull := hc.full (by rwa [hflat])
    have hzeros : zeros.length = BUFSIZE := length_replicate
    rw [buffers_full true hfull hzeros, buffers_full false hfull hzeros]
  rw [or_iff_right hle, or_iff_right hdvd]
  have hclear : strings (buffers true zeros (reads content)) = content := by
    rw [strings_clear (by rwa [hflat]), hflat]
  obtain ⟨stale, hne, hstale⟩ : ∃ stale, stale ≠ [] ∧
      strings (buffers false zeros (reads content)) = content ++ stale := by
    obtain ⟨b, rs, hreads, hb, hrs, rfl⟩ := reads_long hle
    rw [mem_append, not_or] at h0
    rw [length_append, hb, Nat.dvd_add_right dvd_rfl] at hdvd
    obtain ⟨stale, hne, heq⟩ := strings_stale hrs h0.2 h0.1 hb hdvd
    have hcons : strings (buffers false zeros (b :: rs)) = cstring (b ++ zeros.drop b.length) ++
        strings (buffers false (b ++ zeros.drop b.length) rs) := rfl
    refine ⟨stale, hne, ?_⟩
    rw [hreads, hcons, cstring_zeros h0.1, drop_eq_nil_of_le (by rw [hb]; exact length_replicate.le),
      append_nil, heq, append_assoc]
  exact parts_extended hclear hstale hne

/-- The suffixes run out in the first block, and the second read does not come. -/
theorem split_copies_agree_exhausted :
    parts (final (splitFile ⟨[], 0⟩ 1 1 [120] (List.replicate 26 10 ++ List.replicate 1000 97))).trace =
      parts (final (liteSplitFile ⟨[], 0⟩ 1 1 [120] (List.replicate 26 10 ++ List.replicate 1000 97))).trace := by
  have h0 : (0 : UInt8) ∉ List.replicate 26 10 ++ List.replicate 1000 97 := by
    rw [mem_append, mem_replicate, mem_replicate]
    decide
  refine (split_copies_agree h0 ⟨[], 0⟩ 1 1 [120]).mpr (.inr (.inr ⟨by decide, ?_⟩))
  have hcount : (List.replicate 26 10 ++ List.replicate 1000 97 : List UInt8).count newline = 26 := by
    rw [count_append, count_replicate, count_replicate]
    rfl
  rw [enough_iff rfl, hcount]
  decide

/-- With 1025 bytes the second read returns one byte, and the copy without the `memset` writes 1023
bytes of the first block again. -/
theorem split_copies_differ :
    parts (final (splitFile ⟨[], 0⟩ 1000 2 [120] (List.replicate 1024 97 ++ [98]))).trace ≠
      parts (final (liteSplitFile ⟨[], 0⟩ 1000 2 [120] (List.replicate 1024 97 ++ [98]))).trace := by
  decide +kernel

end Xv6.Split
