import Xv6.Proofs.FileContents
import Xv6.Proofs.OpBlocks
import Xv6.Spec.SharedWrite

/-! `filewrite` on the bytes of a file: what one round does under the lock of the inode, and
what the rounds of one call do together. -/

open Function List

open Exec (bind_ok)

namespace Xv6

open Store

open Store (Supply)

open FsOps (maxPiece writePiece)

def splice (c : List UInt8) (off : ℕ) (src : List UInt8) : List UInt8 :=
  c.take off ++ src ++ c.drop (off + src.length)

theorem splice_nil (c : List UInt8) (off : ℕ) : splice c off [] = c := by
  simp [splice]

theorem length_splice {c : List UInt8} {off : ℕ} (h : off ≤ c.length) (src : List UInt8) :
    (splice c off src).length = max c.length (off + src.length) := by
  simp only [splice, length_append, length_take, length_drop]
  omega

theorem splice_splice {c : List UInt8} {off : ℕ} (h : off ≤ c.length) (a b : List UInt8) :
    splice (splice c off a) (off + a.length) b = splice c off (a ++ b) := by
  have hlen : (c.take off ++ a).length = off + a.length := by
    rw [length_append, length_take]
    omega
  have htake : (splice c off a).take (off + a.length) = c.take off ++ a := by
    rw [splice, ← hlen, take_left]
  have hdrop : (splice c off a).drop (off + a.length + b.length) =
      c.drop (off + (a ++ b).length) := by
    rw [splice, ← hlen, ← drop_drop, drop_left, drop_drop, hlen, length_append,
      Nat.add_assoc]
  rw [splice, htake, hdrop, splice, append_assoc _ a b]

namespace Store

variable {t : Store} {p : Ptr} {i : ℕ} {l : Option ℕ}

def relock (t : Store) (p : Ptr) (l : Option ℕ) : Store :=
  t.setInode p { t.icache p with lock := l }

theorem relock_self (p : Ptr) : (t.relock p l).icache p = { t.icache p with lock := l } :=
  setInode_self

theorem relock_relock {l' : Option ℕ} : (t.relock p l).relock p l' = t.relock p l' := by
  unfold relock
  rw [setInode_setInode, setInode_self]

theorem relock_of_eq (h : (t.icache p).lock = l) : t.relock p l = t := by
  unfold relock setInode
  rw [← h, update_eq_self]

theorem view_relock (i : ℕ) : (t.relock p l).view i = t.view i := by
  have hlive : ∀ q, ((t.relock p l).icache q).Live ↔ (t.icache q).Live := by
    intro q
    unfold relock
    rw [setInode_icache]
    split_ifs with hq
    · rw [hq]
      exact Iff.rfl
    · exact Iff.rfl
  have hinum : ∀ q, ((t.relock p l).icache q).inum = (t.icache q).inum := by
    intro q
    unfold relock
    rw [setInode_icache]
    split_ifs with hq
    · rw [hq]
    · rfl
  have hd : ∀ q, ((t.relock p l).icache q).d = (t.icache q).d := by
    intro q
    unfold relock
    rw [setInode_icache]
    split_ifs with hq
    · rw [hq]
    · rfl
  unfold view cached
  simp only [hlive, hinum, hd]
  rfl

theorem content_relock (i : ℕ) : (t.relock p l).content i = t.content i := by
  unfold content byteAt slot
  simp only [view_relock]
  rfl

theorem Wf.held_relock (h : t.Wf) : (t.relock p l).held = t.held := (h.quiet_lock l).held h.unique

end Store

namespace Fs

variable {s s' : Fs} {p : Ptr} {f : Fin NFILE} {P : Prop} {L : Finset ℕ} {t : Store} {off : ℕ}
  {c src : List UInt8} {l : Option ℕ} {g : List (ℕ × Store)} {bs : List ℕ}

theorem FileAt.relock (h : FileAt t p) : FileAt (t.relock p l) p := by
  refine ⟨h.wf.quiet (h.wf.quiet_lock l), ?_, ?_, fun bn hbn => ?_⟩
  · rw [relock_self]
    exact h.live
  · rw [relock_self]
    exact h.type
  · rw [relock_self] at hbn ⊢
    rw [Wf.held_relock h.wf]
    exact h.full bn hbn

theorem supply_relock {i : ℕ} (h : t.Wf) (hs : Supply i L t) : Supply i L (t.relock p l) :=
  hs.mono (fun y b hy => by rwa [Wf.held_relock h]) rfl fun _ _ hu => hu

/-- File `f` is open at offset `off` of a file with the contents `c`, and nobody has the inode
locked. -/
structure OpenAt (s : Fs) (f : Fin NFILE) (c : List UInt8) (off : ℕ) : Prop where
  file : FileAt s.toStore (s.ftable f).ip
  unlocked : (s.icache (s.ftable f).ip).lock = none
  content : s.toStore.content (s.icache (s.ftable f).ip).inum = c
  off : (s.ftable f).off = off

def locked (s : Fs) (f : Fin NFILE) : Fs := s.put (s.toStore.relock (s.ftable f).ip (some 0))

variable (h : OpenAt s f c off)

include h in
theorem writePiece_apply :
    ops.writePiece f src s = (ops.writei (s.ftable f).ip src (s.ftable f).off >>= fun r =>
      (if r > 0 then ops.advance f r.toNat else Pure.pure ()) >>= fun _ =>
        ops.iunlock (s.ftable f).ip >>= fun _ => Pure.pure r : FsM ℤ) (s.locked f) := by
  have hlive := h.file.live
  have hv : (s.icache (s.ftable f).ip).valid = true := hlive.2
  have hlock := ilock_ok hlive.1 h.unlocked fun hv' => absurd (hv.symm.trans hv') (by simp)
  have hl : lockedInode s.toStore (s.ftable f).ip =
      { s.icache (s.ftable f).ip with lock := some 0 } := by
    unfold lockedInode
    rw [if_pos hv, ← hv]
  rw [hl] at hlock
  have hfile : ∀ u : Fs, ops.file f u = .ok (u.ftable f) u := fun _ => rfl
  unfold writePiece
  rw [bind_ok (hfile s), bind_ok hlock, bind_ok (hfile _)]
  rfl

include h in
theorem writePiece_refused (hoff : off < 2 ^ 32) (hn : src.length < 2 ^ 32)
    (hbad : off > c.length ∨ MAXFILE * BSIZE < off + src.length) :
    ops.writePiece f src s = .ok (-1) s := by
  have hlen := h.file.length
  rw [h.content] at hlen
  have hrun : ops.writei (s.ftable f).ip src (s.ftable f).off (s.locked f) =
      .ok (-1) (s.locked f) := by
    refine writei_refused ?_ (h.off ▸ hoff) hn ?_
    · exact (h.file.relock (l := some 0)).type
    · rw [locked, put_toStore, relock_self, h.off]
      change off > (s.icache (s.ftable f).ip).d.size.toNat ∨ _
      rw [← hlen]
      tauto
  rw [writePiece_apply h, bind_ok hrun]
  have hself := @Store.relock_self s.toStore (some 0) (s.ftable f).ip
  have hun : ops.iunlock (s.ftable f).ip (s.locked f) =
      .ok () (s.put ((s.toStore.relock (s.ftable f).ip (some 0)).relock (s.ftable f).ip none)) := by
    refine iunlock_ok ?_ ?_
    · rw [locked, put_toStore, hself]
      exact h.file.live.1
    · rw [locked, put_toStore, hself]
  rw [relock_relock, relock_of_eq h.unlocked] at hun
  change ((Pure.pure () : FsM Unit) >>= _) _ = _
  rw [pure_bind, bind_ok hun]
  rfl

structure Wrote (P : Prop) (L : Finset ℕ) (f : Fin NFILE) (src : List UInt8) (s s' : Fs) : Prop where
  sb : s'.sb = s.sb
  file : s'.ftable f = { s.ftable f with off := (s.ftable f).off + src.length }
  inum : (s'.icache (s.ftable f).ip).inum = (s.icache (s.ftable f).ip).inum
  supply : P → Supply (s.icache (s.ftable f).ip).inum L s'.toStore

include h in
theorem writePiece_ok (hne : src ≠ []) (hoff : off ≤ c.length)
    (hmax : off + src.length ≤ MAXFILE * BSIZE)
    (hrun : ops.writei (s.ftable f).ip src (s.ftable f).off (s.locked f) =
      .ok src.length ((s.locked f).after t g bs))
    (hw : Written P (s.ftable f).ip L (s.toStore.relock (s.ftable f).ip (some 0)) t off src) :
    ∃ s', ops.writePiece f src s = .ok src.length s' ∧
      OpenAt s' f (splice c off src) (off + src.length) ∧
      Wrote P L f src s s' ∧ s'.log = s.log.writes bs := by
  have hlt : off + src.length < 2 ^ 32 := by
    simp only [MAXFILE, NDIRECT, NINDIRECT, BSIZE] at hmax
    omega
  have hlen := h.file.length
  rw [h.content] at hlen
  have hpos : (0 : ℤ) < src.length := by
    have := length_pos_of_ne_nil hne
    omega
  have hf := h.file.relock (l := some 0)
  have hself := @Store.relock_self s.toStore (some 0) (s.ftable f).ip
  have hft := hw.fileAt hf hlt
  have hsize : off ≤ ((s.toStore.relock (s.ftable f).ip (some 0)).icache (s.ftable f).ip).d.size.toNat := by
    rw [hself]
    exact hlen ▸ hoff
  have hcontent := hw.content hf hsize hlt
  have hinum := hw.inum
  have hsupply := hw.supply
  rw [hself] at hcontent hinum hsupply
  simp only [content_relock] at hcontent
  set u : Fs := (s.locked f).after t g bs with hu
  set file' : File := { s.ftable f with off := ((s.ftable f).off + src.length) % 2 ^ 32 } with hfile'
  have hadv : ops.advance f src.length u =
      .ok () { u with ftable := update u.ftable f file' } := rfl
  have hlock : (t.icache (s.ftable f).ip).lock = some 0 := by
    obtain ⟨addrs, ha⟩ := hw.self
    rw [ha, hself]
  have hun : ops.iunlock (s.ftable f).ip { u with ftable := update u.ftable f file' } =
      .ok () ({ u with ftable := update u.ftable f file' }.put
        (t.relock (s.ftable f).ip none)) := iunlock_ok hft.live.1 hlock
  have hoff' : ((s.ftable f).off + src.length) % 2 ^ 32 = off + src.length := by
    rw [h.off, Nat.mod_eq_of_lt hlt]
  have hfile : (update u.ftable f file') f = file' := update_self ..
  refine ⟨{ u with ftable := update u.ftable f file' }.put (t.relock (s.ftable f).ip none),
    ?_, ⟨?_, ?_, ?_, ?_⟩, ⟨hw.sb, ?_, ?_, fun hP => ?_⟩, rfl⟩
  · rw [writePiece_apply h, bind_ok hrun]
    change ((if (src.length : ℤ) > 0 then ops.advance f src.length else Pure.pure ()) >>= fun _ =>
      ops.iunlock (s.ftable f).ip >>= fun _ => Pure.pure (src.length : ℤ) : FsM ℤ) u = _
    rw [if_pos hpos, bind_ok hadv, bind_ok hun]
    rfl
  · change FileAt (t.relock (s.ftable f).ip none) ((update u.ftable f file') f).ip
    rw [hfile]
    exact hft.relock
  · change ((t.relock (s.ftable f).ip none).icache ((update u.ftable f file') f).ip).lock = none
    rw [hfile]
    change ((t.relock (s.ftable f).ip none).icache (s.ftable f).ip).lock = none
    rw [relock_self]
  · change (t.relock (s.ftable f).ip none).content
      ((t.relock (s.ftable f).ip none).icache ((update u.ftable f file') f).ip).inum = _
    rw [hfile]
    change (t.relock (s.ftable f).ip none).content
      ((t.relock (s.ftable f).ip none).icache (s.ftable f).ip).inum = _
    rw [relock_self, content_relock]
    change t.content (t.icache (s.ftable f).ip).inum = _
    rw [hinum, hcontent, h.content, splice]
  · change ((update u.ftable f file') f).off = _
    rw [hfile]
    exact hoff'
  · change (update u.ftable f file') f = _
    rw [hfile, hfile', hoff', h.off]
  · change ((t.relock (s.ftable f).ip none).icache (s.ftable f).ip).inum = _
    rw [relock_self]
    exact hinum
  · exact supply_relock hft.wf (hsupply hP)

structure Quiescent (s : Fs) : Prop where
  outstanding : s.log.outstanding = 0
  committing : s.log.committing = false
  lh : s.log.lh = []
  room : s.sb.size / BPB + 7 < s.log.cap

def round (f : Fin NFILE) (src1 : List UInt8) : FsM ℤ := do
  ops.beginOp
  let r ← ops.writePiece f src1
  ops.endOp
  return r

theorem filewriteFrom_succ (f : Fin NFILE) (k : ℕ) (src : List UInt8) :
    ops.filewriteFrom f (k + 1) src = if src.isEmpty then Pure.pure true
      else round f (src.take maxPiece) >>= fun r => if r < 0 then Pure.pure false
        else ops.panicIf (r ≠ (src.take maxPiece).length) .shortFilewrite >>= fun _ =>
          ops.filewriteFrom f k (src.drop maxPiece) := by
  rw [FsOps.filewriteFrom]
  simp only [round, writePiece, bind_assoc, pure_bind]

def begun (s : Fs) : Fs :=
  { s with log := { s.log with outstanding := s.log.outstanding + 1 }, brackets := [] :: s.brackets }

theorem Quiescent.beginOp (h : s.Quiescent) : ops.beginOp s = .ok () s.begun := by
  have hlog : s.log.beginOp = some { s.log with outstanding := s.log.outstanding + 1 } := by
    unfold Log.beginOp
    rw [if_neg (by simp [h.committing]), if_neg]
    rw [h.lh, h.outstanding]
    decide
  change Fs.beginOp s = _
  unfold Fs.beginOp
  rw [hlog]
  rfl

theorem Quiescent.endOp (h : s.Quiescent) (hlog : s'.log = s.begun.log.writes bs) :
    ops.endOp s' = .ok () { s' with log := s.log } := by
  have hend : s'.log.endOp =
      .ok ({ s'.log with outstanding := 0, committing := true }, true) := by
    unfold Log.endOp
    rw [hlog]
    simp [Log.writes, begun, h.committing, h.outstanding]
  change Fs.endOp s' = _
  unfold Fs.endOp
  rw [hend]
  simp only [hlog]
  congr 2
  simp [Log.writes, begun, ← h.committing, ← h.outstanding, ← h.lh]

include h in
theorem OpenAt.begun : OpenAt s.begun f c off :=
  ⟨h.file, h.unlocked, h.content, h.off⟩

include h in
theorem OpenAt.size_le : c.length ≤ MAXFILE * BSIZE := by
  have hlen := h.file.length
  rw [h.content] at hlen
  rw [hlen]
  by_contra hgt
  have hb := h.file.backed le_rfl MAXFILE (by omega)
  exact absurd hb.1 (lt_irrefl _)

include h in
theorem round_refused (hq : s.Quiescent) (hoff : off < 2 ^ 32)
    (hn : src.length < 2 ^ 32) (hbad : off > c.length ∨ MAXFILE * BSIZE < off + src.length) :
    ∃ s', round f src s = .ok (-1) s' ∧ OpenAt s' f c off ∧ s'.ftable = s.ftable ∧
      s'.toStore = s.toStore := by
  refine ⟨{ s.begun with log := s.log }, ?_, ⟨h.file, h.unlocked, h.content, h.off⟩, rfl, rfl⟩
  unfold round
  rw [bind_ok hq.beginOp, bind_ok (writePiece_refused h.begun hoff hn hbad),
    bind_ok (hq.endOp (show s.begun.log = s.begun.log.writes [] from rfl))]
  rfl

include h in
theorem OpenAt.locked_size (hoff : off ≤ c.length) :
    off ≤ ((s.locked f).icache (s.ftable f).ip).d.size.toNat := by
  have hlen := h.file.length
  rw [h.content] at hlen
  change off ≤ ((s.toStore.relock (s.ftable f).ip (some 0)).icache (s.ftable f).ip).d.size.toNat
  rw [relock_self]
  exact hlen ▸ hoff

include h in
theorem writePiece_begun (hq : s.Quiescent) (hne : src ≠ [])
    (hlen : src.length ≤ maxPiece) (hoff : off ≤ c.length)
    (hmax : off + src.length ≤ MAXFILE * BSIZE) (hL : slotsFor off src.length ⊆ L)
    (hfree : Supply (s.icache (s.ftable f).ip).inum L s.toStore) :
    ∃ s' bs, ops.writePiece f src s.begun = .ok src.length s' ∧
      OpenAt s' f (splice c off src) (off + src.length) ∧ Wrote True L f src s s' ∧
      s'.log = s.begun.log.writes bs := by
  have hb := h.begun
  have hsup : Supply ((s.begun.locked f).icache (s.ftable f).ip).inum L
      (s.begun.locked f).toStore := by
    change Supply ((s.toStore.relock (s.ftable f).ip (some 0)).icache (s.ftable f).ip).inum L
      (s.toStore.relock (s.ftable f).ip (some 0))
    rw [relock_self]
    exact supply_relock h.file.wf hfree
  have hroom : (s.begun.locked f).log.Room (needs s.sb off src.length) := by
    have hr := rounds_piece off hlen
    have hcap := hq.room
    refine ⟨?_, ?_⟩
    · change 1 ≤ s.log.outstanding + 1
      rw [hq.outstanding]
      decide
    · change s.log.lh.length + (s.sb.size / BPB + 3 + rounds off src.length) < s.log.cap
      rw [hq.lh, length_nil]
      omega
  obtain ⟨t, g, bs, hrun, hw⟩ := writei_written (hb.file.relock (l := some 0)) (hb.locked_size hoff) hmax
    hL hsup hroom
  rw [← hb.off] at hrun
  obtain ⟨s', hpiece, ho, hwrote, hlog⟩ := writePiece_ok hb hne hoff hmax hrun hw
  exact ⟨s', bs, hpiece, ho, ⟨hwrote.sb, hwrote.file, hwrote.inum, hwrote.supply⟩, hlog⟩

theorem Quiescent.of_log (hq : s.Quiescent) (hsb : s'.sb = s.sb) (hlog : s'.log = s.log) :
    s'.Quiescent := by
  refine ⟨?_, ?_, ?_, ?_⟩
  · rw [hlog, hq.outstanding]
  · rw [hlog, hq.committing]
  · rw [hlog, hq.lh]
  · rw [hlog, hsb]
    exact hq.room

include h in
theorem round_ok (hq : s.Quiescent) (hne : src ≠ [])
    (hlen : src.length ≤ maxPiece) (hoff : off ≤ c.length)
    (hmax : off + src.length ≤ MAXFILE * BSIZE) (hL : slotsFor off src.length ⊆ L)
    (hfree : Supply (s.icache (s.ftable f).ip).inum L s.toStore) :
    ∃ s', round f src s = .ok src.length s' ∧
      OpenAt s' f (splice c off src) (off + src.length) ∧ Wrote True L f src s s' ∧
      s'.Quiescent := by
  obtain ⟨s', bs, hpiece, ho, hwrote, hlog⟩ := writePiece_begun h hq hne hlen hoff hmax hL hfree
  refine ⟨{ s' with log := s.log }, ?_, ⟨ho.file, ho.unlocked, ho.content, ho.off⟩,
    ⟨hwrote.sb, hwrote.file, hwrote.inum, hwrote.supply⟩, hq.of_log hwrote.sb rfl⟩
  unfold round
  rw [bind_ok hq.beginOp, bind_ok hpiece, bind_ok (hq.endOp hlog)]
  rfl

include h in
theorem writePiece_inv {r : ℤ} (hne : src ≠ []) (hoff : off ≤ c.length)
    (hmax : off + src.length ≤ MAXFILE * BSIZE) (hrun : ops.writePiece f src s = .ok r s') :
    r = src.length ∧ OpenAt s' f (splice c off src) (off + src.length) ∧
      Wrote False (slotsFor off src.length) f src s s' := by
  have hf : FileAt (s.locked f).toStore (s.ftable f).ip := h.file.relock
  have hsize := h.locked_size hoff
  have hrun' := hrun
  rw [writePiece_apply h, Exec.bind_eq_ok] at hrun'
  obtain ⟨r', s2, hwritei, -⟩ := hrun'
  rw [h.off] at hwritei
  have hsave := writei_saves (P := False) hf.wf hf.live hf.type hsize hmax (slots_slotsFor hmax)
    subset_rfl False.elim
  obtain ⟨t, g, bs, rfl, -, -, -, rfl, hw, -⟩ := Exec.wp.of_ok hsave hwritei
  rw [← h.off] at hwritei
  obtain ⟨s3, hrun3, ho, hwrote, -⟩ := writePiece_ok h hne hoff hmax hwritei hw
  obtain ⟨rfl, rfl⟩ := Res.ok.inj (hrun.symm.trans hrun3)
  exact ⟨rfl, ho, hwrote⟩

/-- How many of `n` bytes `filewrite` stores at offset `off` of a file of `size` bytes: the
limit is tested for each piece. -/
def stored (size off n : ℕ) : ℕ :=
  if off > size then 0
  else if off + n ≤ MAXFILE * BSIZE then n
  else (MAXFILE * BSIZE - off) / FsOps.maxPiece * FsOps.maxPiece

theorem stored_le {size n : ℕ} : stored size off n ≤ n := by
  have hmul := Nat.div_mul_le_self (MAXFILE * BSIZE - off) maxPiece
  unfold stored
  split_ifs <;> omega

theorem stored_refused {size n : ℕ} (hsize : size ≤ MAXFILE * BSIZE)
    (hbad : off > size ∨ MAXFILE * BSIZE < off + min maxPiece n) : stored size off n = 0 := by
  unfold stored
  split_ifs with h1 h2
  · rfl
  · omega
  · rw [Nat.div_eq_of_lt (by omega), Nat.zero_mul]

theorem stored_step {size n : ℕ} (hoff : off ≤ size)
    (hfit : off + min maxPiece n ≤ MAXFILE * BSIZE) : stored size off n = min maxPiece n +
      stored (max size (off + min maxPiece n)) (off + min maxPiece n) (n - maxPiece) := by
  have hmax : MAXFILE * BSIZE = 71168 := rfl
  have hpiece : maxPiece = 1536 := rfl
  unfold stored
  rw [hmax, hpiece] at hfit ⊢
  split_ifs <;> omega

theorem take_piece (src : List UInt8) (m w : ℕ) :
    src.take (min m src.length + w) = src.take m ++ (src.drop m).take w := by
  rcases le_total m src.length with h | h
  · rw [min_eq_left h, take_add]
  · rw [min_eq_right h, take_of_length_le (Nat.le_add_right _ _), take_of_length_le h,
      drop_of_length_le h, take_nil, append_nil]

theorem filewriteFrom_stored {k : ℕ} (hk : src.length ≤ k) (h : OpenAt s f c off)
    (hq : s.Quiescent) (hoff : off < 2 ^ 32) (hL : slotsFor off src.length ⊆ L)
    (hfree : Supply (s.icache (s.ftable f).ip).inum L s.toStore) :
    ∃ s', ops.filewriteFrom f k src s =
        .ok (decide (stored c.length off src.length = src.length)) s' ∧
      OpenAt s' f (splice c off (src.take (stored c.length off src.length)))
        (off + stored c.length off src.length) ∧ (s'.ftable f).ip = (s.ftable f).ip ∧
      (s'.icache (s.ftable f).ip).inum = (s.icache (s.ftable f).ip).inum := by
  induction k generalizing s c off src with
  | zero =>
    obtain rfl : src = [] := eq_nil_of_length_eq_zero (by omega)
    have h0 : stored c.length off 0 = 0 := Nat.le_zero.mp stored_le
    refine ⟨s, ?_, ?_, rfl, rfl⟩
    · rw [length_nil, h0]
      rfl
    · rw [length_nil, h0, take_nil, splice_nil]
      exact h
  | succ k ih =>
    rw [filewriteFrom_succ]
    by_cases hsrc : src = []
    · subst hsrc
      have h0 : stored c.length off 0 = 0 := Nat.le_zero.mp stored_le
      refine ⟨s, ?_, ?_, rfl, rfl⟩
      · rw [length_nil, h0]
        rfl
      · rw [length_nil, h0, take_nil, splice_nil]
        exact h
    have hempty : src.isEmpty = false := by simpa using hsrc
    have hpos : 0 < maxPiece := by decide
    have hlen : (src.take maxPiece).length = min maxPiece src.length := length_take
    have hslen := length_pos_of_ne_nil hsrc
    rw [hempty, if_neg (by simp)]
    by_cases hbad : off > c.length ∨ MAXFILE * BSIZE < off + min maxPiece src.length
    · have h0 := stored_refused h.size_le hbad
      obtain ⟨s', hrun, ho, hft, hst⟩ := round_refused h hq hoff
        (show (src.take maxPiece).length < 2 ^ 32 by
          rw [hlen]
          exact (min_le_left _ _).trans_lt (by decide)) (hlen.symm ▸ hbad)
      refine ⟨s', ?_, ?_, by rw [hft], by rw [hst]⟩
      · rw [bind_ok hrun, h0, if_pos (by decide), decide_eq_false (by omega)]
        rfl
      · rw [h0, take_zero, splice_nil]
        exact ho
    · have hfit : off + min maxPiece src.length ≤ MAXFILE * BSIZE := by omega
      have hle : off ≤ c.length := by omega
      have hstep := stored_step hle hfit
      obtain ⟨s1, hrun, ho, hwrote, hq1⟩ := round_ok h hq (L := L)
        (show src.take maxPiece ≠ [] by
          intro e
          rw [e, length_nil] at hlen
          omega) (hlen ▸ min_le_left _ _) hle (hlen.symm ▸ hfit)
        ((slotsFor_subset le_rfl (by rw [hlen]; omega)).trans hL) hfree
      rw [hlen] at ho
      have hip : (s1.ftable f).ip = (s.ftable f).ip := by rw [hwrote.file]
      have hclen : (splice c off (src.take maxPiece)).length =
          max c.length (off + min maxPiece src.length) := by
        rw [length_splice hle, hlen]
      have hdlen : (src.drop maxPiece).length = src.length - maxPiece := length_drop
      have hdk : (src.drop maxPiece).length ≤ k := by omega
      obtain ⟨s', hrest, ho', hip', hinum'⟩ := ih hdk ho hq1 (by
          simp only [MAXFILE, NDIRECT, NINDIRECT, BSIZE] at hfit
          omega) ((slotsFor_subset (by omega) (by omega)).trans hL)
        (by rw [hip, hwrote.inum]; exact hwrote.supply trivial)
      rw [hclen, hdlen] at hrest ho'
      refine ⟨s', ?_, ?_, hip'.trans hip, ?_⟩
      · have hge : ¬((src.take maxPiece).length : ℤ) < 0 := by omega
        rw [bind_ok hrun, if_neg hge, bind_ok (panicIf_of_not (by simp) s1), hrest, hstep]
        congr 1
        rw [decide_eq_decide]
        omega
      · rw [← hlen, splice_splice hle] at ho'
        rwa [hstep, ← Nat.add_assoc, take_piece, ← hlen]
      · rw [hip] at hinum'
        rw [hinum', hwrote.inum]

include h in
theorem filewrite_stored (htype : (s.ftable f).type = .inode)
    (hwr : (s.ftable f).writable = true) (hq : s.Quiescent) (hoff : off < 2 ^ 32)
    (hfree : Supply (s.icache (s.ftable f).ip).inum (slotsFor off src.length) s.toStore)
    (pipe : ℤ) : ∃ s', ops.filewrite f src pipe s =
        .ok (if stored c.length off src.length = src.length then src.length else -1) s' ∧
      OpenAt s' f (splice c off (src.take (stored c.length off src.length)))
        (off + stored c.length off src.length) ∧ (s'.ftable f).ip = (s.ftable f).ip ∧
      (s'.icache (s.ftable f).ip).inum = (s.icache (s.ftable f).ip).inum := by
  obtain ⟨s', hrun, hrest⟩ := filewriteFrom_stored le_rfl h hq hoff subset_rfl hfree
  refine ⟨s', ?_, hrest⟩
  have hfile : ops.file f s = .ok (s.ftable f) s := rfl
  unfold FsOps.filewrite
  rw [bind_ok hfile, hwr, htype]
  change (ops.filewriteFrom f src.length src >>= _) s = _
  rw [bind_ok hrun]
  simp only [decide_eq_true_eq]
  rfl

/-- A `filewrite` stores all of its bytes or none, but for the writes that start inside the
file, reach beyond the largest size and have a first piece that fits: those fail after they
have stored some pieces. -/
theorem filewrite_all_or_nothing_iff {s : Fs} {f : Fin NFILE} {c : List UInt8} {off : ℕ}
    (h : OpenAt s f c off) (htype : (s.ftable f).type = .inode)
    (hwr : (s.ftable f).writable = true) (hq : s.Quiescent) (hoff : off < 2 ^ 32)
    (src : List UInt8) (pipe : ℤ)
    (hfree : Store.Supply (s.icache (s.ftable f).ip).inum (slotsFor off src.length) s.toStore) :
    ∃ r s', ops.filewrite f src pipe s = .ok r s' ∧
      (((r = src.length ∧
            s'.toStore.content (s.icache (s.ftable f).ip).inum = splice c off src ∧
            (s'.ftable f).off = off + src.length) ∨
          (r = -1 ∧ s'.toStore.content (s.icache (s.ftable f).ip).inum = c ∧
            (s'.ftable f).off = off)) ↔
        off > c.length ∨ off + src.length ≤ MAXFILE * BSIZE ∨
          MAXFILE * BSIZE < off + min FsOps.maxPiece src.length) := by
  obtain ⟨s', hrun, ho, hip, hinum⟩ := filewrite_stored h htype hwr hq hoff hfree pipe
  have hcontent := ho.content
  rw [hip, hinum] at hcontent
  refine ⟨_, s', hrun, ?_⟩
  rw [hcontent, ho.off]
  have hsize := h.size_le
  constructor
  · intro hor
    by_contra hno
    have hmax : MAXFILE * BSIZE = 71168 := rfl
    have hpiece : maxPiece = 1536 := rfl
    -- some pieces are stored, but not all
    have hsome : 0 < stored c.length off src.length ∧
        stored c.length off src.length < src.length := by
      unfold stored
      rw [hmax, hpiece] at hno ⊢
      split_ifs <;> omega
    rcases hor with ⟨hr, -⟩ | ⟨-, -, hoff'⟩
    · rw [if_neg (by omega)] at hr
      omega
    · omega
  · intro hor
    by_cases hall : stored c.length off src.length = src.length
    · left
      rw [if_pos hall, hall, take_length]
      exact ⟨rfl, rfl, rfl⟩
    · have h0 : stored c.length off src.length = 0 := by
        apply stored_refused hsize
        unfold stored at hall
        split_ifs at hall <;> omega
      right
      rw [if_neg hall, h0, take_zero, splice_nil]
      exact ⟨rfl, rfl, rfl⟩

theorem fileFs_openAt : OpenAt (fileFs none 0) ⟨0, by decide⟩ [] 0 where
  file := fileFs_fileAt none 0
  unlocked := rfl
  content := eq_nil_of_length_eq_zero (fileFs_fileAt none 0).length
  off := rfl

theorem fileFs_quiescent : (fileFs none 0).Quiescent := ⟨rfl, rfl, rfl, by decide⟩

theorem filewrite_all_or_nothing_small :
    ∃ r s', ops.filewrite ⟨0, by decide⟩ [1, 2, 3] 0 (fileFs none 0) = .ok r s' ∧
      ((r = 3 ∧ s'.toStore.content 2 = [1, 2, 3] ∧ (s'.ftable ⟨0, by decide⟩).off = 3) ∨
        (r = -1 ∧ s'.toStore.content 2 = [] ∧ (s'.ftable ⟨0, by decide⟩).off = 0)) := by
  obtain ⟨r, s', hrun, hiff⟩ := filewrite_all_or_nothing_iff fileFs_openAt rfl rfl fileFs_quiescent
    (by decide) [1, 2, 3] 0 (fileFs_supply _ _ _ (by decide))
  exact ⟨r, s', hrun, hiff.mpr (by decide)⟩

/-- One byte more than the largest file, written to an empty one: the call fails after 46
pieces, which stay in the file. -/
theorem filewrite_fails_halfway :
    ∃ s', ops.filewrite ⟨0, by decide⟩ (List.replicate 71169 1) 0 (fileFs none 0) = .ok (-1) s' ∧
      s'.toStore.content 2 = List.replicate 70656 1 ∧ (s'.ftable ⟨0, by decide⟩).off = 70656 := by
  have hstored : stored 0 0 71169 = 70656 := by decide
  have hfree : Supply 2 (slotsFor 0 (replicate 71169 (1 : UInt8)).length)
      (fileFs none 0).toStore := fileFs_supply _ _ _ ((slotsFor_le _ _).trans (by decide))
  obtain ⟨s', hrun, ho, hip, hinum⟩ := filewrite_stored fileFs_openAt rfl rfl fileFs_quiescent
    (by decide) hfree 0
  have hcontent := ho.content
  have hoff := ho.off
  rw [hip, hinum] at hcontent
  rw [length_replicate, length_nil, hstored] at hrun hcontent hoff
  refine ⟨s', ?_, ?_, ?_⟩
  · rw [hrun, if_neg (by decide)]
  · rw [take_replicate, splice, take_nil, drop_nil, nil_append,
      append_nil] at hcontent
    exact hcontent
  · rw [hoff]

end Fs

end Xv6
