import Xv6.Proofs.Discipline
import Xv6.Spec.BlockStorage

/-! The functions on disk blocks change no inode but the one they are given, and of that one only the
copy of the disk inode; they write to the log without ending a transaction. -/

namespace Xv6

variable {α β : Type} {A : Set Ptr}

namespace Volume.Near

variable {T : Type} {u v w : Volume T}

theorem refl (A : Set Ptr) (v : Volume T) : Near A v v :=
  ⟨rfl, rfl, fun _ => rfl, fun _ => rfl, fun _ _ => rfl⟩

theorem trans (h : Near A u v) (h' : Near A v w) : Near A u w where
  outstanding := h'.outstanding.trans h.outstanding
  committing := h'.committing.trans h.committing
  lock ip := (h'.lock ip).trans (h.lock ip)
  ref ip := (h'.ref ip).trans (h.ref ip)
  fields ip hip := (h'.fields ip hip).trans (h.fields ip hip)

end Volume.Near

namespace Fs

open Volume (Near)

/-- Whatever the outcome of `m`, the volume is near the one before; and `m` does not panic in
`log_write` for want of a transaction when there is one. -/
structure Tame (A : Set Ptr) (m : FsM α) : Prop where
  near : ∀ s : Fs, Near A s.volume (m s).state.volume
  outside : ∀ s t : Fs, m s = .halt (.panic (.log .outsideTrans)) t → s.log.outstanding < 1

namespace Tame

variable {m : FsM α} {f : α → FsM β}

theorem pure (a : α) : Tame A (Pure.pure a) := ⟨fun s => .refl A s.volume, nofun⟩

theorem panic {e : Panic} (he : ∀ x, e ≠ .log x) : Tame A (Fs.panic e : FsM α) where
  near s := .refl A s.volume
  outside s t h := by
    injection h with h
    exact absurd (Stop.panic.inj h) (he _)

theorem get : Tame A Exec.get := ⟨fun s => .refl A s.volume, nofun⟩

theorem modify {g : Fs → Fs} (h : ∀ s, Near A s.volume (g s).volume) : Tame A (Exec.modify g) :=
  ⟨h, nofun⟩

theorem bind (hm : Tame A m) (hf : ∀ a, Tame A (f a)) : Tame A (m >>= f) where
  near s := by
    have hs := hm.near s
    rw [Exec.bind_apply]
    cases h : m s with
    | ok a s' =>
      rw [h] at hs
      exact hs.trans ((hf a).near s')
    | halt e s' =>
      rw [h] at hs
      exact hs
  outside s t ht := by
    have hs := hm.near s
    rw [Exec.bind_apply] at ht
    cases h : m s with
    | ok a s' =>
      rw [h] at hs ht
      have hout : s'.log.outstanding = s.log.outstanding := hs.outstanding
      rw [← hout]
      exact (hf a).outside s' t ht
    | halt e s' =>
      rw [h] at ht
      injection ht with he
      subst he
      exact hm.outside s s' h

theorem ite {c : Prop} [Decidable c] {m' : FsM α} (hm : Tame A m) (hm' : Tame A m') :
    Tame A (if c then m else m') := by
  split_ifs
  · exact hm
  · exact hm'

end Tame

theorem tame_bread (b : ℕ) : Tame A (bread b) := .bind .get fun _ => .pure _

theorem tame_inode (ip : Ptr) : Tame A (inode ip) := .bind .get fun _ => .pure _

theorem tame_bstore (b : ℕ) (data : Block) : Tame A (bstore b data) :=
  .modify fun _ => ⟨rfl, rfl, fun _ => rfl, fun _ => rfl, fun _ _ => rfl⟩

theorem tame_logWrite (b : ℕ) : Tame A (logWrite b) where
  near s := by
    unfold logWrite Log.logWrite
    split_ifs
    · exact .refl A _
    · exact .refl A _
    · exact ⟨rfl, rfl, fun _ => rfl, fun _ => rfl, fun _ _ => rfl⟩
  outside s t h := by
    unfold logWrite Log.logWrite at h
    split_ifs at h with hbig hout
    · cases h
    · exact hout

theorem tame_setAddr (ip : Ptr) (k b : ℕ) : Tame {ip} (setAddr ip k b) := by
  refine ⟨fun s => ?_, nofun⟩
  have hcache : ∀ jp, ((setAddr ip k b) s).state.icache jp =
      if jp = ip then { s.icache ip with d := (s.icache ip).d.setAddr k b } else s.icache jp :=
    fun jp => Function.update_apply ..
  refine ⟨rfl, rfl, fun jp => ?_, fun jp => ?_, fun jp hjp => ?_⟩
  · change (((setAddr ip k b) s).state.icache jp).lock = (s.icache jp).lock
    rw [hcache]
    split_ifs with hj
    · rw [hj]
    · rfl
  · change (((setAddr ip k b) s).state.icache jp).ref = (s.icache jp).ref
    rw [hcache]
    split_ifs with hj
    · rw [hj]
    · rfl
  · change (((setAddr ip k b) s).state.icache jp).d = (s.icache jp).d
    have hne : jp ≠ ip := hjp
    rw [hcache, if_neg hne]

theorem tame_ballocFrom (sb : Superblock) (bs : List ℕ) : Tame A (ballocFrom sb bs) := by
  induction bs with
  | nil => exact .panic (by simp)
  | cons b bs ih =>
    refine .bind (tame_bread _) fun bp => ?_
    cases firstFree sb.size b bp with
    | none => exact ih
    | some bi =>
      refine .bind (tame_bstore _ _) fun _ => .bind (tame_logWrite _) fun _ => ?_
      exact .bind (.bind (tame_bstore _ _) fun _ => tame_logWrite _) fun _ => .pure _

theorem tame_balloc : Tame A balloc := by
  refine .bind .get fun s => .bind (tame_ballocFrom _ _) fun b => .bind (.modify fun _ => ?_)
    fun _ => .pure _
  exact ⟨rfl, rfl, fun _ => rfl, fun _ => rfl, fun _ _ => rfl⟩

theorem tame_bfree (b : ℕ) : Tame A (bfree b) := by
  refine .bind .get fun s => .bind (tame_bread _) fun bp => .ite (.panic (by simp)) ?_
  exact .bind (tame_bstore _ _) fun _ => tame_logWrite _

theorem tame_setDinode (inum : ℕ) (d : Dinode) : Tame A (setDinode inum d) :=
  .bind .get fun _ => .bind (tame_bread _) fun _ => .bind (tame_bstore _ _) fun _ => tame_logWrite _

theorem tame_bmapAddr (ip : Ptr) (k : ℕ) : Tame {ip} (bmapAddr ip k) := by
  refine .bind (tame_inode ip) fun n => .ite ?_ (.pure _)
  exact .bind tame_balloc fun _ => .bind (tame_setAddr ip k _) fun _ => .pure _

theorem tame_bmap (ip : Ptr) (bn : ℕ) : Tame {ip} (bmap ip bn) := by
  refine .ite (tame_bmapAddr ip bn) (.ite ?_ (.panic (by simp)))
  refine .bind (tame_bmapAddr ip _) fun ind => .bind (tame_bread ind) fun a => .ite ?_ (.pure _)
  refine .bind tame_balloc fun _ => .bind (tame_bread ind) fun _ => ?_
  exact .bind (tame_bstore _ _) fun _ => .bind (tame_logWrite _) fun _ => .pure _

theorem tame_truncDirect (ip : Ptr) (is : List ℕ) : Tame {ip} (truncDirect ip is) := by
  induction is with
  | nil => exact .pure _
  | cons i is ih =>
    refine .bind (tame_inode ip) fun n => .ite ih ?_
    exact .bind (tame_bfree _) fun _ => .bind (tame_setAddr ip _ _) fun _ => ih

theorem tame_truncIndirect (a : Block) (js : List ℕ) : Tame A (truncIndirect a js) := by
  induction js with
  | nil => exact .pure _
  | cons j js ih => exact .ite ih (.bind (tame_bfree _) fun _ => ih)

theorem tame_truncBlocks (ip : Ptr) : Tame {ip} (truncBlocks ip) := by
  refine .bind (tame_truncDirect ip _) fun _ => .bind (tame_inode ip) fun n => .ite (.pure _) ?_
  refine .bind (tame_bread _) fun a => .bind (tame_truncIndirect a _) fun _ => ?_
  exact .bind (tame_bfree _) fun _ => tame_setAddr ip _ _

theorem tame_readFrom (ip : Ptr) (off len : ℕ) : Tame {ip} (readFrom ip off len) := by
  induction off, len using readFrom.induct with
  | case1 off =>
    unfold readFrom
    exact .pure _
  | case2 off len hlen ih =>
    unfold readFrom
    rw [if_neg hlen]
    exact .bind (tame_bmap ip _) fun b => .bind (tame_bread b) fun bp => .bind ih fun _ => .pure _

theorem tame_writeFrom (ip : Ptr) (off : ℕ) (src : List UInt8) : Tame {ip} (writeFrom ip off src) := by
  induction off, src using writeFrom.induct with
  | case1 off src hsrc =>
    unfold writeFrom
    rw [if_pos hsrc]
    exact .pure _
  | case2 off src hsrc ih =>
    unfold writeFrom
    rw [if_neg hsrc]
    refine .bind (tame_bmap ip _) fun b => .bind (tame_bread b) fun bp => ?_
    exact .bind (tame_bstore _ _) fun _ => .bind (tame_logWrite b) fun _ => ih

theorem Tame.onVolume {m : FsM α} (h : Tame A m) : Volume.Tame A (Fs.onVolume m) where
  near v := by
    have hv := h.near (ofVolume v)
    unfold Fs.onVolume Exec.zoom
    cases hm : m (ofVolume v) with
    | ok a s =>
      rw [hm] at hv
      exact hv
    | halt e s =>
      rw [hm] at hv
      exact hv
  outside v u hu := by
    unfold Fs.onVolume Exec.zoom at hu
    cases hm : m (ofVolume v) with
    | ok a s =>
      rw [hm] at hu
      cases hu
    | halt e s =>
      rw [hm] at hu
      injection hu with he
      subst he
      exact h.outside _ s hm

end Fs

theorem blockStorage_tame : blockStorage.Tame where
  setDinode inum d := (Fs.tame_setDinode inum d).onVolume
  truncBlocks ip := (Fs.tame_truncBlocks ip).onVolume
  readFrom ip off len := (Fs.tame_readFrom ip off len).onVolume
  writeFrom ip off src := (Fs.tame_writeFrom ip off src).onVolume

/-! ### Reading outside of a transaction -/

def Mapped (t : Medium) (d : Dinode) : Prop :=
  ∀ bn < (d.size.toNat + BSIZE - 1) / BSIZE,
    if bn < NDIRECT then d.addr bn ≠ 0
    else d.addr NDIRECT ≠ 0 ∧ (t.blocks (d.addr NDIRECT)).word 4 (4 * (bn - NDIRECT)) ≠ 0

instance (t : Medium) (d : Dinode) : Decidable (Mapped t d) :=
  inferInstanceAs (Decidable (∀ bn < (d.size.toNat + BSIZE - 1) / BSIZE, _))

namespace Fs

variable {s : Fs} {ip : Ptr} {bn off len : ℕ}

def Reads (m : FsM α) (s : Fs) : Prop :=
  (∃ a, m s = .ok a s) ∨ m s = .halt (.panic .bmapOutOfRange) s

theorem Reads.bind {m : FsM α} {f : α → FsM β} (hm : Reads m s) (hf : ∀ a, Reads (f a) s) :
    Reads (m >>= f) s := by
  obtain ⟨a, ha⟩ | ha := hm
  · obtain ⟨b, hb⟩ | hb := hf a
    · exact .inl ⟨b, by rw [Exec.bind_apply, ha]; exact hb⟩
    · exact .inr (by rw [Exec.bind_apply, ha]; exact hb)
  · exact .inr (by rw [Exec.bind_apply, ha])

theorem reads_bmapAddr {j : ℕ} (h : (s.icache ip).d.addr j ≠ 0) :
    bmapAddr ip j s = .ok ((s.icache ip).d.addr j) s := by
  unfold bmapAddr
  rw [Exec.bind_apply]
  change (if (s.icache ip).d.addr j = 0 then _ else _ : FsM ℕ) s = _
  rw [if_neg h]
  rfl

theorem reads_bmap (h : Mapped s.volume.data (s.icache ip).d)
    (hbn : bn < ((s.icache ip).d.size.toNat + BSIZE - 1) / BSIZE) : Reads (bmap ip bn) s := by
  have hmap := h bn hbn
  unfold bmap
  by_cases hdirect : bn < NDIRECT
  · rw [if_pos hdirect] at hmap ⊢
    exact .inl ⟨_, reads_bmapAddr hmap⟩
  · rw [if_neg hdirect] at hmap ⊢
    by_cases hrange : bn - NDIRECT < NINDIRECT
    · rw [if_pos hrange]
      obtain ⟨hind, hword⟩ := hmap
      replace hword : (s.blocks ((s.icache ip).d.addr NDIRECT)).word 4 (4 * (bn - NDIRECT)) ≠ 0 := hword
      refine .inl ⟨(s.blocks ((s.icache ip).d.addr NDIRECT)).word 4 (4 * (bn - NDIRECT)), ?_⟩
      have hread : bread ((s.icache ip).d.addr NDIRECT) s =
          .ok (s.blocks ((s.icache ip).d.addr NDIRECT)) s := rfl
      rw [Exec.bind_apply, reads_bmapAddr hind]
      dsimp only
      rw [Exec.bind_apply, hread]
      dsimp only
      rw [if_neg hword]
      rfl
    · rw [if_neg hrange]
      exact .inr rfl

theorem reads_readFrom (h : Mapped s.volume.data (s.icache ip).d)
    (hle : off + len ≤ (s.icache ip).d.size.toNat) : Reads (readFrom ip off len) s := by
  induction off, len using readFrom.induct with
  | case1 off =>
    unfold readFrom
    exact .inl ⟨[], rfl⟩
  | case2 off len hlen ih =>
    unfold readFrom
    rw [if_neg hlen]
    have hbn : off / BSIZE < ((s.icache ip).d.size.toNat + BSIZE - 1) / BSIZE := by
      unfold BSIZE
      omega
    refine (reads_bmap h hbn).bind fun b => .bind (.inl ⟨_, rfl⟩) fun bp => ?_
    exact (ih (by omega)).bind fun _ => .inl ⟨_, rfl⟩

end Fs

def Kernel.NoHoles {n : ℕ} (k : Kernel Medium n) : Prop :=
  ∀ ip : Ptr, (k.icache ip).lock ≠ none → Mapped k.data (k.icache ip).d

instance {n : ℕ} (k : Kernel Medium n) : Decidable k.NoHoles :=
  inferInstanceAs (Decidable (∀ _ : Ptr, _))

theorem blockStorage_backed {n : ℕ} {r : Rules Medium n} (h : ∀ k, r.given k → k.NoHoles) :
    r.Backed blockStorage := by
  intro _ k hk ip off len hlock hle e u hu
  have hread : Fs.Reads (Fs.readFrom ip off len) (Fs.ofVolume k.toVolume) :=
    Fs.reads_readFrom (h k hk ip hlock) hle
  change Fs.onVolume (Fs.readFrom ip off len) k.toVolume = _ at hu
  unfold Fs.onVolume Exec.zoom at hu
  obtain ⟨a, ha⟩ | ha := hread
  · rw [ha] at hu
    cases hu
  · rw [ha] at hu
    cases hu

end Xv6
