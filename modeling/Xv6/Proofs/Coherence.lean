import Xv6.Proofs.BufRing

/-! What keeps the buffer cache transparent: a valid buffer that is saved holds the bytes
most recently stored in its block, and the disk holds them for every block without a dirty
buffer. -/

open Function

namespace Xv6.Bio

variable {P : Type} {s s' : Bio P} {p : P} {i j : Fin NBUF} {d : ℕ → Block} {evs : List BioEvent}
  {dev b : ℕ}

/-! ### Histories -/

theorem latest_snoc (d : ℕ → Block) (evs : List BioEvent) (e : BioEvent) :
    latest d (evs ++ [e]) = match e with
      | .written b data => update (latest d evs) b data
      | .logged b data => update (latest d evs) b data
      | .copied l _ data => update (latest d evs) l data
      | _ => latest d evs := by
  rw [latest, List.foldl_append]
  cases e <;> rfl

theorem pinned_snoc (evs : List BioEvent) (e : BioEvent) : pinned (evs ++ [e]) = match e with
      | .logged b _ => update (pinned evs) b true
      | .installed b => update (pinned evs) b false
      | _ => pinned evs := by
  rw [pinned, List.foldl_append]
  cases e <;> rfl

theorem transparent_nil (d : ℕ → Block) : Transparent d [] := by
  intro pre e post h
  simp at h

theorem Transparent.snoc {e : BioEvent} (h : Transparent d evs) (he : EventOk d evs e) :
    Transparent d (evs ++ [e]) := by
  intro pre e' post heq
  rcases List.eq_nil_or_concat post with rfl | ⟨post, e'', rfl⟩
  · obtain ⟨rfl, hee⟩ := List.append_inj' heq rfl
    obtain rfl : e = e' := by simpa using hee
    exact he
  · have heq' : evs ++ [e] = (pre ++ e' :: post) ++ [e''] := by simpa using heq
    obtain ⟨hpre, -⟩ := List.append_inj' heq' rfl
    exact h pre e' post hpre

/-! ### The invariant -/

/-- A buffer agrees with the contents `L` of the blocks, unless it is changed and not saved. -/
structure BufOk (L : ℕ → Block) (b : Buf P) (unsaved : Bool) : Prop where
  dev : b.valid = true → b.dev = ROOTDEV
  held : b.lock ≠ none → b.valid = true
  data : b.valid = true → unsaved = false → b.data = L b.blockno
  saved : b.lock = none → unsaved = false
  dirty : b.dirty = true → b.valid = true

def DirtyAt (s : Bio P) (b : ℕ) : Prop := ∃ i, (s.buf i).dirty = true ∧ (s.buf i).blockno = b

structure Coherent (d : ℕ → Block) (s : Bio P) : Prop where
  bufs : ∀ i, BufOk (latest d s.trace) (s.buf i) (s.unsaved i)
  disk : ∀ b, s.disk b = latest d s.trace b ∨ s.DirtyAt b
  pinned : ∀ b, pinned s.trace b = true → b ∈ s.log.lh ∧ s.DirtyAt b
  area : ∀ b ∈ s.log.lh, ¬s.log.InArea b
  room : s.log.lh ≠ [] → s.log.lh.length < s.log.size
  commit : ∀ p, s.committer = some p → s.log.committing = true ∧ s.log.outstanding = 0
  transparent : Transparent d s.trace

theorem coherent_binit (start size disksize : ℕ) (d : ℕ → Block) :
    Coherent d (binit start size disksize d : Bio P) where
  bufs := fun i => by constructor <;> simp [binit]
  disk := fun _ => .inl rfl
  pinned := fun b hb => by simp [binit, Bio.pinned] at hb
  area := fun b hb => by simp [binit] at hb
  room := fun hne => absurd rfl hne
  commit := fun p hp => by simp [binit] at hp
  transparent := transparent_nil d

theorem Coherent.unique (h : Coherent d s) (hw : s.Wf) (hi : (s.buf i).dev = ROOTDEV)
    (hj : (s.buf j).valid = true) (hb : (s.buf j).blockno = (s.buf i).blockno) : j = i :=
  hw.uniq j i ((h.bufs j).dev hj) hi hb

/-- Only buffer `i` changes, and with it the contents of no block that another valid buffer
holds. -/
theorem Coherent.bufs_update {L : ℕ → Block} {b : Buf P} (h : Coherent d s)
    (hbuf : s'.buf = update s.buf i b) (hun : ∀ j, j ≠ i → s'.unsaved j = s.unsaved j)
    (hL : ∀ j, j ≠ i → (s.buf j).valid = true →
      L (s.buf j).blockno = latest d s.trace (s.buf j).blockno)
    (hi : BufOk L b (s'.unsaved i)) (j : Fin NBUF) : BufOk L (s'.buf j) (s'.unsaved j) := by
  by_cases hj : j = i
  · subst hj
    rw [hbuf, update_self]
    exact hi
  · rw [hbuf, update_of_ne hj, hun j hj]
    obtain ⟨h1, h2, h3, h4, h5⟩ := h.bufs j
    exact ⟨h1, h2, fun hv hu => (h3 hv hu).trans (hL j hj hv).symm, h4, h5⟩

theorem DirtyAt.update {b : ℕ} {b' : Buf P} (hbuf : s'.buf = update s.buf i b')
    (hb : (s.buf i).dirty = true → (s.buf i).blockno = b → b'.dirty = true ∧ b'.blockno = b)
    (h : s.DirtyAt b) : s'.DirtyAt b := by
  obtain ⟨j, hj, hno⟩ := h
  refine ⟨j, ?_⟩
  by_cases hji : j = i
  · subst hji
    rw [hbuf, update_self]
    exact hb hj hno
  · rw [hbuf, update_of_ne hji]
    exact ⟨hj, hno⟩

theorem Coherent.update {b : Buf P} (h : Coherent d s)
    (hbuf : s'.buf = update s.buf i b) (hun : ∀ j, j ≠ i → s'.unsaved j = s.unsaved j)
    (hdisk : s'.disk = s.disk) (hlog : s'.log = s.log) (hcom : s'.committer = s.committer)
    (hlat : latest d s'.trace = latest d s.trace) (hpin : Bio.pinned s'.trace = Bio.pinned s.trace)
    (htr : Transparent d s'.trace)
    (hdirty : (s.buf i).dirty = true → b.dirty = true ∧ b.blockno = (s.buf i).blockno)
    (hi : BufOk (latest d s.trace) b (s'.unsaved i)) : Coherent d s' where
  bufs := by
    rw [hlat]
    exact h.bufs_update hbuf hun (fun _ _ _ => rfl) hi
  disk := fun b' => by
    rw [hdisk, hlat]
    exact (h.disk b').imp id (DirtyAt.update hbuf fun hd hb => hb ▸ hdirty hd)
  pinned := fun b' hp => by
    rw [hpin] at hp
    rw [hlog]
    exact (h.pinned b' hp).imp id (DirtyAt.update hbuf fun hd hb => hb ▸ hdirty hd)
  area := by
    rw [hlog]
    exact h.area
  room := by
    rw [hlog]
    exact h.room
  commit := by
    rw [hlog, hcom]
    exact h.commit
  transparent := htr

theorem Coherent.ref (h : Coherent d s) (p : P) (i : Fin NBUF) : Coherent d (s.ref p i) := by
  obtain ⟨h1, h2, h3, h4, h5⟩ := h.bufs i
  exact h.update rfl (fun _ _ => rfl) rfl rfl rfl rfl rfl h.transparent (fun hd => ⟨hd, rfl⟩)
    ⟨h1, h2, h3, h4, h5⟩

theorem Coherent.unref [DecidableEq P] (h : Coherent d s) (p : P) (i : Fin NBUF) :
    Coherent d (s.unref p i) := by
  obtain ⟨h1, h2, h3, h4, h5⟩ := h.bufs i
  exact h.update rfl (fun _ _ => rfl) rfl rfl rfl rfl rfl h.transparent (fun hd => ⟨hd, rfl⟩)
    ⟨h1, h2, h3, h4, h5⟩

theorem Wf.lock_of_free (h : s.Wf) (hf : (s.buf i).refcnt = 0) : (s.buf i).lock = none := by
  cases hl : (s.buf i).lock with
  | none => rfl
  | some q =>
    have hpos : 0 < s.users.countP (·.2 = i) :=
      List.countP_pos_iff.mpr ⟨(q, i), h.locked i q hl, by simp⟩
    rw [← h.count, hf] at hpos
    omega

section

variable (h : Coherent d s)
include h

theorem Coherent.recycle (hw : s.Wf) (hf : s.Free i) (p : P) (dev b : ℕ) :
    Coherent d (s.recycle p i dev b) := by
  have hnl := hw.lock_of_free hf.1
  refine h.update rfl (fun _ _ => rfl) rfl rfl rfl (latest_snoc ..) (pinned_snoc ..)
    (h.transparent.snoc fun hdev => ?_) (fun hd => ?_) ?_
  · -- a pinned block has a dirty buffer, which would be this one
    by_contra hne
    obtain ⟨-, j, hj, hb⟩ := h.pinned _ (by simpa using hne)
    obtain rfl := h.unique hw hdev ((h.bufs j).dirty hj) hb
    simp [hf.2] at hj
  · simp [hf.2] at hd
  · exact ⟨by simp, fun hl => absurd hnl hl, by simp, fun _ => (h.bufs i).saved hnl, by simp⟩

/-- The end of `bread`: the lock is taken and, unless the buffer is valid already, it is filled
from the disk. -/
theorem Coherent.bread (hw : s.Wf) (hl : (s.buf i).lock = none) (p : P)
    (data : Block) (hdev : (s.buf i).dev = ROOTDEV)
    (hdata : data = if (s.buf i).valid then (s.buf i).data else s.disk (s.buf i).blockno) :
    Coherent d ((s.setBuf i { s.buf i with lock := some p, valid := true, data := data }).note
      (.returned ROOTDEV (s.buf i).blockno data)) ∧ data = latest d s.trace (s.buf i).blockno := by
  have hsaved := (h.bufs i).saved hl
  have hd : data = latest d s.trace (s.buf i).blockno := by
    cases hv : (s.buf i).valid with
    | true =>
      rw [hv, if_pos rfl] at hdata
      exact hdata.trans ((h.bufs i).data hv hsaved)
    | false =>
      rw [hv, if_neg (by simp)] at hdata
      rcases h.disk (s.buf i).blockno with he | ⟨j, hj, hb⟩
      · exact hdata.trans he
      · -- the dirty buffer of the block is valid, this one is not
        obtain rfl := h.unique hw hdev ((h.bufs j).dirty hj) hb
        simp [(h.bufs j).dirty hj] at hv
  refine ⟨h.update rfl (fun _ _ => rfl) rfl rfl rfl (latest_snoc ..) (pinned_snoc ..)
    (h.transparent.snoc ⟨rfl, hd⟩) (fun hdi => ⟨hdi, rfl⟩) ?_, hd⟩
  exact ⟨fun _ => hdev, fun _ => rfl, fun _ _ => hd, fun hn => by simp at hn, fun _ => rfl⟩

theorem Coherent.unlock (hs : s.unsaved i = false) :
    Coherent d (s.setBuf i { s.buf i with lock := none }) := by
  obtain ⟨h1, -, h3, -, h5⟩ := h.bufs i
  exact h.update rfl (fun _ _ => rfl) rfl rfl rfl rfl rfl h.transparent (fun hd => ⟨hd, rfl⟩)
    ⟨h1, fun hl => absurd rfl hl, h3, fun _ => hs, h5⟩

theorem Coherent.memmove (hl : (s.buf i).lock = some p) (data : Block) :
    Coherent d { s.setBuf i { s.buf i with data := data } with
      unsaved := Function.update s.unsaved i true } := by
  obtain ⟨h1, h2, -, -, h5⟩ := h.bufs i
  refine h.update rfl (fun j hj => update_of_ne hj ..) rfl rfl rfl rfl rfl h.transparent
    (fun hd => ⟨hd, rfl⟩) ⟨h1, h2, fun _ hu => ?_, fun hn => ?_, h5⟩
  · simp at hu
  · simp [hl] at hn

/-- The holder of the lock writes the buffer to the disk. The event `e` says why: either it
stores the bytes, or they are the ones stored before. -/
theorem Coherent.flush {e : BioEvent} (hw : s.Wf) (hl : (s.buf i).lock = some p)
    (hlat : latest d (s.trace ++ [e]) =
      Function.update (latest d s.trace) (s.buf i).blockno (s.buf i).data)
    (hpin : ∀ b, Bio.pinned (s.trace ++ [e]) b = true →
      Bio.pinned s.trace b = true ∧ b ≠ (s.buf i).blockno) (he : EventOk d s.trace e) :
    Coherent d { (s.setBuf i { s.buf i with dirty := false, valid := true }).note e with
      disk := Function.update s.disk (s.buf i).blockno (s.buf i).data
      unsaved := Function.update s.unsaved i false } := by
  have hv := (h.bufs i).held (by simp [hl])
  have hdev := (h.bufs i).dev hv
  -- the other blocks keep their dirty buffers
  have hdirty : ∀ b, b ≠ (s.buf i).blockno → s.DirtyAt b →
      DirtyAt { (s.setBuf i { s.buf i with dirty := false, valid := true }).note e with
        disk := Function.update s.disk (s.buf i).blockno (s.buf i).data
        unsaved := Function.update s.unsaved i false } b :=
    fun b hb => DirtyAt.update rfl fun _ hno => absurd hno.symm hb
  refine ⟨h.bufs_update rfl (fun j hj => update_of_ne hj ..) (fun j hj hvj => ?_) ?_,
    fun b => ?_, fun b hp => ?_, h.area, h.room, h.commit, h.transparent.snoc he⟩
  · change latest d (s.trace ++ [e]) _ = _
    have hne : (s.buf j).blockno ≠ (s.buf i).blockno := fun hb => hj (h.unique hw hdev hvj hb)
    rw [hlat, update_of_ne hne]
  · refine ⟨fun _ => hdev, fun _ => rfl, fun _ _ => ?_, fun hn => by simp [hl] at hn, fun _ => rfl⟩
    change _ = latest d (s.trace ++ [e]) _
    rw [hlat, update_self]
  · change Function.update s.disk _ _ b = latest d (s.trace ++ [e]) b ∨ _
    rw [hlat]
    by_cases hb : b = (s.buf i).blockno
    · left
      rw [hb, update_self, update_self]
    · rw [update_of_ne hb, update_of_ne hb]
      exact (h.disk b).imp id (hdirty b hb)
  · obtain ⟨hp', hb⟩ := hpin b hp
    exact (h.pinned b hp').imp id (hdirty b hb)

end

theorem mem_absorb {lh : List ℕ} {b c : ℕ} : c ∈ Log.absorb lh b ↔ c = b ∨ c ∈ lh := by
  induction lh with
  | nil => simp [Log.absorb]
  | cons a lh ih =>
    rw [Log.absorb]
    split_ifs with hab
    · subst hab
      simp
    · simp only [List.mem_cons, ih]
      tauto

theorem length_absorb_le (lh : List ℕ) (b : ℕ) : (Log.absorb lh b).length ≤ lh.length + 1 := by
  induction lh with
  | nil => simp [Log.absorb]
  | cons a lh ih =>
    rw [Log.absorb]
    split_ifs
    · simp
    · simpa using ih

theorem Coherent.logWrite (h : Coherent d s) (hw : s.Wf) (hl : (s.buf i).lock = some p)
    (harea : ¬s.log.InArea (s.buf i).blockno) {log : Log}
    (hlog : s.log.logWrite (s.buf i).blockno = .ok log) :
    Coherent d { (s.setBuf i { s.buf i with dirty := true }).note
        (.logged (s.buf i).blockno (s.buf i).data) with
      log := log, unsaved := Function.update s.unsaved i false } := by
  have hv := (h.bufs i).held (by simp [hl])
  have hdev := (h.bufs i).dev hv
  have hlat : latest d (s.trace ++ [.logged (s.buf i).blockno (s.buf i).data]) =
      Function.update (latest d s.trace) (s.buf i).blockno (s.buf i).data := latest_snoc ..
  have hpin : Bio.pinned (s.trace ++ [.logged (s.buf i).blockno (s.buf i).data]) =
      Function.update (Bio.pinned s.trace) (s.buf i).blockno true := pinned_snoc ..
  simp only [Log.logWrite] at hlog
  split_ifs at hlog with hbig hout
  obtain rfl := Except.ok.inj hlog
  rw [not_or] at hbig
  have hdirty : ∀ b, (b = (s.buf i).blockno ∨ s.DirtyAt b) →
      DirtyAt { (s.setBuf i { s.buf i with dirty := true }).note
          (.logged (s.buf i).blockno (s.buf i).data) with
        log := { s.log with lh := Log.absorb s.log.lh (s.buf i).blockno }
        unsaved := Function.update s.unsaved i false } b := by
    rintro b (rfl | hb)
    · exact ⟨i, by simp [note]⟩
    · exact DirtyAt.update rfl (fun _ hno => ⟨rfl, hno⟩) hb
  refine ⟨h.bufs_update rfl (fun j hj => update_of_ne hj ..) (fun j hj hvj => ?_) ?_,
    fun b => ?_, fun b hp => ?_, fun b hb => ?_, fun _ => ?_, fun q hq => ?_, h.transparent.snoc trivial⟩
  · change latest d (s.trace ++ [_]) _ = _
    have hne : (s.buf j).blockno ≠ (s.buf i).blockno := fun hb => hj (h.unique hw hdev hvj hb)
    rw [hlat, update_of_ne hne]
  · refine ⟨fun _ => hdev, fun _ => hv, fun _ _ => ?_, fun hn => by simp [hl] at hn, fun _ => hv⟩
    change _ = latest d (s.trace ++ [_]) _
    rw [hlat, update_self]
  · change s.disk b = latest d (s.trace ++ [_]) b ∨ _
    rw [hlat]
    by_cases hb : b = (s.buf i).blockno
    · exact .inr (hdirty b (.inl hb))
    · rw [update_of_ne hb]
      exact (h.disk b).imp id fun hb => hdirty b (.inr hb)
  · change Bio.pinned (s.trace ++ [_]) b = true at hp
    rw [hpin] at hp
    by_cases hb : b = (s.buf i).blockno
    · exact ⟨mem_absorb.mpr (.inl hb), hdirty b (.inl hb)⟩
    · rw [update_of_ne hb] at hp
      obtain ⟨hm, hd⟩ := h.pinned b hp
      exact ⟨mem_absorb.mpr (.inr hm), hdirty b (.inr hd)⟩
  · rcases mem_absorb.mp hb with rfl | hb
    · exact harea
    · exact h.area b hb
  · have := length_absorb_le s.log.lh (s.buf i).blockno
    change (Log.absorb s.log.lh (s.buf i).blockno).length < s.log.size
    omega
  · -- while a process commits no operation is outstanding
    have := (h.commit q hq).2
    omega

end Xv6.Bio
