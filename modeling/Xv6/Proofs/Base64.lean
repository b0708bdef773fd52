import Xv6.Lib.Rfc4648
import Xv6.Spec.Base64

/-! `base64` prints the encoding of a file exactly when no byte but the first of a group of three is
above 127, and its text shows the sizes of the reads. -/

namespace Xv6.Base64

open List

variable {bufs bufs' : List (List UInt8)} {a b c : UInt8}

def Plain (bs : List UInt8) : Prop := ∀ i c, bs[i]? = some c → i % 3 ≠ 0 → c.toNat < 128

theorem toNat_sshiftRight_and (x : BitVec 32) {k : ℕ} (hk : k + 6 ≤ 32) :
    (x.sshiftRight k &&& 63#32).toNat = x.toNat / 2 ^ k % 64 := by
  have hshift : x.sshiftRight k &&& 63#32 = x >>> k &&& 63#32 := by
    apply BitVec.eq_of_getLsbD_eq
    intro i hi
    by_cases h6 : i < 6
    · simp [BitVec.getLsbD_sshiftRight, show ¬32 ≤ i by omega, show k + i < 32 by omega]
    · have hmask : (63#32).getLsbD i = false := by
        have hlt : 63 < 2 ^ i := lt_of_lt_of_le (by decide : 63 < 2 ^ 6) (Nat.pow_le_pow_right (by decide) (by omega))
        simp [BitVec.getLsbD_ofNat, Nat.testBit_lt_two_pow hlt]
      rw [BitVec.getLsbD_and, BitVec.getLsbD_and, hmask, Bool.and_false, Bool.and_false]
  rw [hshift, BitVec.toNat_and, BitVec.toNat_ushiftRight, Nat.shiftRight_eq_div_pow]
  exact Nat.and_two_pow_sub_one_eq_mod _ 6

theorem keyAt_eq (x : BitVec 32) {k : ℕ} (hk : k + 6 ≤ 32) :
    keyAt x k = Rfc4648.char (x.toNat / 2 ^ k % 64) := by
  have hkey : key = Rfc4648.alphabet := by decide
  rw [keyAt, toNat_sshiftRight_and x hk, hkey]
  rfl

theorem toNat_signExtend (a : UInt8) : (a.toBitVec.signExtend 32).toNat =
    if a.toNat < 128 then a.toNat else a.toNat + (2 ^ 32 - 2 ^ 8) := by
  have hall : ∀ a : BitVec 8, (a.signExtend 32).toNat =
      if a.toNat < 128 then a.toNat else a.toNat + (2 ^ 32 - 2 ^ 8) := by decide +kernel
  exact hall a.toBitVec

theorem toNat_signExtend_mod (a : UInt8) : (a.toBitVec.signExtend 32).toNat % 2 ^ 8 = a.toNat := by
  have ha := a.toNat_lt
  rw [toNat_signExtend]
  split_ifs
  · omega
  · omega

def low (c : UInt8) : ℕ := if c.toNat < 128 then 0 else 2 ^ 32 - 2 ^ 8

theorem toNat_bitsOf_append (buf : List UInt8) (c : UInt8) :
    (bitsOf (buf ++ [c])).toNat = ((bitsOf buf).toNat * 2 ^ 8 + (c.toNat + low c)) % 2 ^ 32 := by
  have hbits : bitsOf (buf ++ [c]) = bitsOf buf <<< 8 + c.toBitVec.signExtend 32 := by simp [bitsOf]
  have hx : (c.toBitVec.signExtend 32).toNat = c.toNat + low c := by
    rw [toNat_signExtend, low]
    split_ifs <;> rfl
  rw [hbits, BitVec.toNat_add, hx, BitVec.toNat_shiftLeft, Nat.shiftLeft_eq, Nat.mod_add_mod]

theorem toNat_bitsOf_mod (a : UInt8) : (bitsOf [a]).toNat % 2 ^ 8 = a.toNat := by
  have hbits : bitsOf [a] = a.toBitVec.signExtend 32 := by simp [bitsOf]
  rw [hbits]
  exact toNat_signExtend_mod a

theorem printGroup_one (a : UInt8) : printGroup [a] = Rfc4648.encode [a] := by
  have ha := toNat_bitsOf_mod a
  have hbits : (bitsOf [a] <<< 4).toNat % 2 ^ 12 = a.toNat * 2 ^ 4 := by
    rw [BitVec.toNat_shiftLeft, Nat.shiftLeft_eq]
    omega
  simp only [printGroup, length_singleton, if_true, Rfc4648.encode, Rfc4648.quantum, take,
    cons_append, nil_append, cons.injEq, and_true]
  generalize bitsOf [a] <<< 4 = y at hbits
  rw [keyAt_eq y (by decide), keyAt_eq y (by decide)]
  exact ⟨congrArg _ (by omega), congrArg _ (by omega), rfl, rfl⟩

theorem printGroup_two_iff (a b : UInt8) :
    printGroup [a, b] = Rfc4648.encode [a, b] ↔ b.toNat < 128 := by
  have ha := toNat_bitsOf_mod a
  have hb := b.toNat_lt
  have hab : (bitsOf [a, b]).toNat = _ := toNat_bitsOf_append [a] b
  have hbits : (bitsOf [a, b] <<< 2).toNat % 2 ^ 18 =
      (a.toNat * 2 ^ 10 + (b.toNat + low b) * 2 ^ 2) % 2 ^ 18 := by
    rw [BitVec.toNat_shiftLeft, Nat.shiftLeft_eq]
    omega
  simp only [printGroup, length_cons, length_nil, Nat.reduceAdd, Nat.reduceEqDiff, if_true,
    if_false, Rfc4648.encode, Rfc4648.quantum, take, cons_append, nil_append,
    cons.injEq, and_true]
  generalize bitsOf [a, b] <<< 2 = y at hbits
  rw [keyAt_eq y (by decide), keyAt_eq y (by decide), keyAt_eq y (by decide),
    Rfc4648.char_inj (Nat.mod_lt _ (by decide)) (Nat.mod_lt _ (by decide)),
    Rfc4648.char_inj (Nat.mod_lt _ (by decide)) (Nat.mod_lt _ (by decide)),
    Rfc4648.char_inj (Nat.mod_lt _ (by decide)) (Nat.mod_lt _ (by decide))]
  unfold low at hbits
  split_ifs at hbits with hlow
  · exact iff_of_true ⟨by omega, by omega, by omega, rfl⟩ hlow
  · refine iff_of_false ?_ hlow
    rintro ⟨h1, h2, h3, -⟩
    omega

theorem printGroup_three_iff (a b c : UInt8) :
    printGroup [a, b, c] = Rfc4648.encode [a, b, c] ↔ b.toNat < 128 ∧ c.toNat < 128 := by
  have ha := toNat_bitsOf_mod a
  have hb := b.toNat_lt
  have hc := c.toNat_lt
  have hab : (bitsOf [a, b]).toNat = _ := toNat_bitsOf_append [a] b
  have habc : (bitsOf [a, b, c]).toNat = _ := toNat_bitsOf_append [a, b] c
  have hbits : (bitsOf [a, b, c]).toNat % 2 ^ 24 =
      (a.toNat * 2 ^ 16 + (b.toNat + low b) * 2 ^ 8 + (c.toNat + low c)) % 2 ^ 24 := by
    omega
  simp only [printGroup, length_cons, length_nil, Nat.reduceAdd, Nat.reduceEqDiff, if_true,
    if_false, Rfc4648.encode, Rfc4648.quantum, append_nil, cons.injEq, and_true]
  generalize bitsOf [a, b, c] = y at hbits
  rw [keyAt_eq y (by decide), keyAt_eq y (by decide), keyAt_eq y (by decide), keyAt_eq y (by decide),
    Rfc4648.char_inj (Nat.mod_lt _ (by decide)) (Nat.mod_lt _ (by decide)),
    Rfc4648.char_inj (Nat.mod_lt _ (by decide)) (Nat.mod_lt _ (by decide)),
    Rfc4648.char_inj (Nat.mod_lt _ (by decide)) (Nat.mod_lt _ (by decide)),
    Rfc4648.char_inj (Nat.mod_lt _ (by decide)) (Nat.mod_lt _ (by decide))]
  unfold low at hbits
  split_ifs at hbits with hlowb hlowc hlowc
  · exact iff_of_true ⟨by omega, by omega, by omega, by omega⟩ ⟨hlowb, hlowc⟩
  · exact iff_of_false (fun h => by omega) fun h => hlowc h.2
  · exact iff_of_false (fun h => by omega) fun h => hlowb h.1
  · exact iff_of_false (fun h => by omega) fun h => hlowb h.1

theorem plain_append {buf rest : List UInt8} (h : 3 ∣ buf.length) :
    Plain (buf ++ rest) ↔ Plain buf ∧ Plain rest := by
  obtain ⟨k, hk⟩ := h
  refine ⟨fun hp => ⟨fun i c hi hm => ?_, fun i c hi hm => ?_⟩, fun ⟨hbuf, hrest⟩ i c hi hm => ?_⟩
  · exact hp i c (by rw [getElem?_append_left (List.getElem?_eq_some_iff.mp hi).1, hi]) hm
  · refine hp (buf.length + i) c ?_ (by omega)
    rw [getElem?_append_right (by omega), Nat.add_sub_cancel_left, hi]
  · rcases lt_or_ge i buf.length with hlt | hge
    · rw [getElem?_append_left hlt] at hi
      exact hbuf i c hi hm
    · rw [getElem?_append_right hge] at hi
      exact hrest _ c hi (by omega)

theorem plain_group {buf : List UInt8} (h : buf.length ≤ 3) :
    Plain buf ↔ ∀ c ∈ buf.tail, c.toNat < 128 := by
  refine ⟨fun hp c hc => ?_, fun hall i c hi hm => ?_⟩
  · obtain ⟨i, hi, rfl⟩ := mem_iff_getElem.mp hc
    rw [length_tail] at hi
    refine hp (i + 1) _ ?_ (by omega)
    rw [← getElem?_tail, getElem?_eq_getElem]
  · obtain ⟨j, rfl⟩ : ∃ j, i = j + 1 := ⟨i - 1, by omega⟩
    exact hall c (mem_of_getElem? (by rwa [getElem?_tail]))

theorem printGroup_iff {buf : List UInt8} (hpos : 0 < buf.length) (hle : buf.length ≤ 3) :
    printGroup buf = Rfc4648.encode buf ↔ Plain buf := by
  rw [plain_group hle]
  match buf, hpos, hle with
  | [a], _, _ => exact iff_of_true (printGroup_one a) (by simp)
  | [a, b], _, _ => simpa using printGroup_two_iff a b
  | [a, b, c], _, _ => simpa using printGroup_three_iff a b c

theorem length_printGroup {buf : List UInt8} (hpos : 0 < buf.length) (hle : buf.length ≤ 3) :
    (printGroup buf).length = 4 := by
  match buf, hpos, hle with
  | [a], _, _ => rfl
  | [a, b], _, _ => rfl
  | [a, b, c], _, _ => rfl

theorem encode_full_iff (h : FullReads bufs) :
    encode bufs = Rfc4648.encode bufs.flatten ++ [10] ↔ Plain bufs.flatten := by
  induction bufs using FullReads.induct with
  | case1 => exact iff_of_true rfl fun i c hi => by simp at hi
  | case2 buf =>
    have hone : encode [buf] = printGroup buf ++ [10] := rfl
    rw [flatten_singleton, hone, append_left_inj]
    exact printGroup_iff h.1 h.2
  | case3 buf bufs hne ih =>
    obtain ⟨hlen, hrest⟩ := (FullReads.eq_3 buf bufs hne ▸ h : _ ∧ _)
    have hsplit : Rfc4648.encode (buf ++ bufs.flatten) =
        Rfc4648.encode buf ++ Rfc4648.encode bufs.flatten := by
      obtain ⟨a, b, c, rfl⟩ := length_eq_three.mp hlen
      simp [Rfc4648.encode]
    have hlen4 : (printGroup buf).length = (Rfc4648.encode buf).length := by
      rw [length_printGroup (by omega) hlen.le]
      obtain ⟨a, b, c, rfl⟩ := length_eq_three.mp hlen
      rfl
    rw [encode, flatten_cons, hsplit, append_assoc, plain_append (by rw [hlen]),
      ← printGroup_iff (by omega) hlen.le, ← ih hrest]
    exact ⟨fun h => append_inj h hlen4, fun h => by rw [h.1, h.2]⟩

/-- `base64` of a regular file prints the encoding of its content, from which decoding recovers the
content, exactly when every byte that is not the first of its group of three is below 128. -/
theorem base64_file (h : FullReads bufs) :
    (∃ text, encode bufs = text ++ [10] ∧ text = Rfc4648.encode bufs.flatten ∧
      Rfc4648.decode text = some bufs.flatten) ↔ Plain bufs.flatten := by
  rw [← encode_full_iff h]
  constructor
  · rintro ⟨text, henc, rfl, -⟩
    exact henc
  · exact fun henc => ⟨_, henc, rfl, Rfc4648.decode_encode _⟩

theorem base64_file_man : ∃ text, encode [[77, 97, 110], [200]] = text ++ [10] ∧
    text = Rfc4648.encode [77, 97, 110, 200] ∧ Rfc4648.decode text = some [77, 97, 110, 200] := by
  refine (@base64_file [[77, 97, 110], [200]] ⟨rfl, by decide, by decide⟩).mpr ?_
  have h3 : 3 ∣ [77, 97, (110 : UInt8)].length := by decide
  rw [show [[77, 97, 110], [200]].flatten = [77, 97, 110] ++ [(200 : UInt8)] from rfl, plain_append h3,
    plain_group (by decide), plain_group (by decide)]
  simp

/-- The byte 128 in second place is subtracted from the bits of the first. -/
theorem base64_high_byte : encode [[0, 128]] ≠ Rfc4648.encode [0, 128] ++ [10] := by decide

theorem printGroup_length {buf buf' : List UInt8} (hpos : 0 < buf.length) (hle : buf.length ≤ 3)
    (hpos' : 0 < buf'.length) (hle' : buf'.length ≤ 3) (h : printGroup buf = printGroup buf') :
    buf.length = buf'.length := by
  have hpad : ∀ (x : BitVec 32) {k : ℕ}, k + 6 ≤ 32 → keyAt x k ≠ 61 := fun x k hk => by
    rw [keyAt_eq x hk]
    exact Rfc4648.char_ne_pad _
  match buf, hpos, hle, buf', hpos', hle' with
  | [a], _, _, [a'], _, _ => rfl
  | [a, b], _, _, [a', b'], _, _ => rfl
  | [a, b, c], _, _, [a', b', c'], _, _ => rfl
  | [a], _, _, [a', b'], _, _ => exact absurd (congrArg (·[2]?) h).symm (by simp [printGroup, hpad])
  | [a, b], _, _, [a'], _, _ => exact absurd (congrArg (·[2]?) h) (by simp [printGroup, hpad])
  | [a], _, _, [a', b', c'], _, _ => exact absurd (congrArg (·[3]?) h).symm (by simp [printGroup, hpad])
  | [a, b], _, _, [a', b', c'], _, _ => exact absurd (congrArg (·[3]?) h).symm (by simp [printGroup, hpad])
  | [a, b, c], _, _, [a'], _, _ => exact absurd (congrArg (·[3]?) h) (by simp [printGroup, hpad])
  | [a, b, c], _, _, [a', b'], _, _ => exact absurd (congrArg (·[3]?) h) (by simp [printGroup, hpad])

theorem length_encode (h : Reads bufs) : (encode bufs).length = 4 * bufs.length + 1 := by
  induction bufs with
  | nil => rfl
  | cons buf bufs ih =>
    obtain ⟨hbuf, hrest⟩ := forall_mem_cons.mp h
    rw [encode, length_append, length_printGroup hbuf.1 hbuf.2, ih hrest, length_cons]
    omega

theorem encode_inj (h : Reads bufs) (h' : Reads bufs') (hflat : bufs.flatten = bufs'.flatten)
    (henc : encode bufs = encode bufs') : bufs = bufs' := by
  induction bufs generalizing bufs' with
  | nil =>
    have hlen := congrArg length henc
    rw [length_encode h, length_encode h', length_nil] at hlen
    exact (eq_nil_of_length_eq_zero (by omega)).symm
  | cons buf bufs ih =>
    cases bufs' with
    | nil =>
      have hlen := congrArg length henc
      rw [length_encode h, length_encode h', length_cons, length_nil] at hlen
      omega
    | cons buf' bufs' =>
      obtain ⟨hbuf, hrest⟩ := forall_mem_cons.mp h
      obtain ⟨hbuf', hrest'⟩ := forall_mem_cons.mp h'
      obtain ⟨hgroup, htail⟩ := append_inj henc
        ((length_printGroup hbuf.1 hbuf.2).trans (length_printGroup hbuf'.1 hbuf'.2).symm)
      obtain ⟨rfl, hflat'⟩ := append_inj hflat (printGroup_length hbuf.1 hbuf.2 hbuf'.1 hbuf'.2 hgroup)
      rw [ih hrest hrest' hflat' htail]

theorem Reads.singles (h : Reads bufs) (hlen : bufs.flatten.length ≤ 1) :
    bufs = bufs.flatten.map fun c => [c] := by
  match bufs with
  | [] => rfl
  | buf :: rest =>
    have hpos := (h buf mem_cons_self).1
    rw [flatten_cons, length_append] at hlen
    obtain ⟨c, rfl⟩ := length_eq_one_iff.mp (show buf.length = 1 by omega)
    cases rest with
    | nil => rfl
    | cons buf' rest =>
      have hpos' := (h buf' (mem_cons_of_mem _ mem_cons_self)).1
      rw [flatten_cons, length_append] at hlen
      omega

/-- The text shows how the bytes were read: it is the same for all ways to read them exactly when there
is one byte at most. -/
theorem base64_chunks (bs : List UInt8) :
    (∀ bufs bufs', Reads bufs → Reads bufs' → bufs.flatten = bs → bufs'.flatten = bs →
      encode bufs = encode bufs') ↔ bs.length ≤ 1 := by
  constructor
  · intro h
    match bs with
    | [] => exact Nat.zero_le 1
    | [a] => exact le_rfl
    | a :: b :: rest =>
      -- the first two bytes in one read or in two
      have hflat : (rest.map fun c => [c]).flatten = rest := by rw [← flatMap_def, flatMap_singleton']
      have hrest : Reads (rest.map fun c => [c]) := by simp [Reads]
      have htwo : Reads ([a, b] :: rest.map fun c => [c]) := forall_mem_cons.mpr ⟨by simp, hrest⟩
      have hones : Reads ([a] :: [b] :: rest.map fun c => [c]) :=
        forall_mem_cons.mpr ⟨by simp, forall_mem_cons.mpr ⟨by simp, hrest⟩⟩
      have hsame := encode_inj htwo hones rfl
        (h _ _ htwo hones (by simp [hflat]) (by simp [hflat]))
      simp at hsame
  · rintro hlen bufs bufs' h h' rfl hbs'
    rw [h.singles hlen, h'.singles (hbs' ▸ hlen), hbs']

/-- Four bytes read at once three and one, or two and two. -/
theorem base64_short_read : Reads [[97, 98, 99], [100]] ∧ Reads [[97, 98], [99, 100]] ∧
    [[97, 98, 99], [100]].flatten = ([[97, 98], [99, 100]] : List (List UInt8)).flatten ∧
      encode [[97, 98, 99], [100]] ≠ encode [[97, 98], [99, 100]] := by
  unfold Reads
  decide

end Xv6.Base64
