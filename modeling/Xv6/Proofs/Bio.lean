import Xv6.Proofs.Coherence

/-! The processes of the buffer cache follow one protocol: they keep its structure, and as
far as they are disciplined they keep it coherent. `δ` says that they are, so that one proof
for each function of `bio.c` and `log.c` serves both. -/

open Function Prog List Option

namespace Xv6.Bio

variable {P : Type} {δ : Prop} {d : ℕ → Block} {p q : P} {s s' s'' s₀ : Bio P}
  {i j : Fin NBUF} {dev b : ℕ} {X Y : Set (Fin NBUF)}

structure HoldsStill (δ : Prop) (p : P) (i : Fin NBUF) (s s' : Bio P) : Prop where
  lock : (s'.buf i).lock = some p
  dev : (s'.buf i).dev = (s.buf i).dev
  blockno : (s'.buf i).blockno = (s.buf i).blockno
  same : δ → (s'.buf i).valid = (s.buf i).valid ∧ (s'.buf i).data = (s.buf i).data ∧
    s'.unsaved i = s.unsaved i

/-- What the committing process `p` counts on: nobody else touches the log, and the contents
of the log area and of the recorded blocks stay. -/
structure SameTxn (d : ℕ → Block) (p : P) (s s' : Bio P) : Prop where
  committer : s'.committer = some p
  log : s'.log = s.log
  pinned : pinned s'.trace = pinned s.trace
  latest : ∀ b, s.log.InArea b ∨ b ∈ s.log.lh → latest d s'.trace b = latest d s.trace b

structure Own (δ : Prop) (d : ℕ → Block) (p : P) (X : Set (Fin NBUF)) (s s' : Bio P) : Prop where
  held : ∀ i, i ∉ X → (s.buf i).lock = some p → HoldsStill δ p i s s'
  txn : δ → s.committer = some p → SameTxn d p s s'

structure Keeps (δ : Prop) (d : ℕ → Block) (p : P) (s s' : Bio P) : Prop where
  own : Own δ d p ∅ s s'
  users : ∀ i, (p, i) ∈ s.users → (p, i) ∈ s'.users ∧ (s'.buf i).dev = (s.buf i).dev ∧
    (s'.buf i).blockno = (s.buf i).blockno
  lock : ∀ i, (s'.buf i).lock = some p → (s.buf i).lock = some p

theorem HoldsStill.trans (h : HoldsStill δ p i s s') (h' : HoldsStill δ p i s' s'') :
    HoldsStill δ p i s s'' where
  lock := h'.lock
  dev := h'.dev.trans h.dev
  blockno := h'.blockno.trans h.blockno
  same := fun hδ => ⟨(h'.same hδ).1.trans (h.same hδ).1, (h'.same hδ).2.1.trans (h.same hδ).2.1,
    (h'.same hδ).2.2.trans (h.same hδ).2.2⟩

theorem SameTxn.trans (h : SameTxn d p s s') (h' : SameTxn d p s' s'') : SameTxn d p s s'' where
  committer := h'.committer
  log := h'.log.trans h.log
  pinned := h'.pinned.trans h.pinned
  latest := fun b hb => (h'.latest b (h.log ▸ hb)).trans (h.latest b hb)

theorem Own.refl (s : Bio P) : Own δ d p X s s where
  held := fun _ _ hl => ⟨hl, rfl, rfl, fun _ => ⟨rfl, rfl, rfl⟩⟩
  txn := fun _ hc => ⟨hc, rfl, rfl, fun _ _ => rfl⟩

theorem Own.trans (h : Own δ d p X s s') (h' : Own δ d p Y s' s'') : Own δ d p (X ∪ Y) s s'' where
  held := fun i hi hl => by
    rw [Set.mem_union, not_or] at hi
    have hs := h.held i hi.1 hl
    exact hs.trans (h'.held i hi.2 hs.lock)
  txn := fun hδ hc => by
    have hs := h.txn hδ hc
    exact hs.trans (h'.txn hδ hs.committer)

theorem Keeps.refl (p : P) (s : Bio P) : Keeps δ d p s s :=
  ⟨.refl s, fun _ hu => ⟨hu, rfl, rfl⟩, fun _ hl => hl⟩

theorem Keeps.trans (h : Keeps δ d p s s') (h' : Keeps δ d p s' s'') : Keeps δ d p s s'' where
  own := by simpa using h.own.trans h'.own
  users := fun i hu => by
    obtain ⟨h1, h2, h3⟩ := h.users i hu
    obtain ⟨h4, h5, h6⟩ := h'.users i h1
    exact ⟨h4, h5.trans h2, h6.trans h3⟩
  lock := fun i hl => h.lock i (h'.lock i hl)

def protocol (δ : Prop) (d : ℕ → Block) : Protocol P (Bio P) where
  inv s := s.Wf ∧ (δ → Coherent d s)
  keeps := Keeps δ d
  refl := Keeps.refl
  trans := Keeps.trans
  idle _ _ := True
  idle_keeps _ _ := trivial
  given _ := True

def Done (δ : Prop) (d : ℕ → Block) (p : P) : Unit → Bio P → Bio P → Prop :=
  fun _ s₀ s => (protocol δ d).inv s ∧ (protocol δ d).Spares p s₀ s

def Halts (δ : Prop) (d : ℕ → Block) (s : Bio P) : Prop := s.Wf ∧ (δ → Transparent d s.trace)

theorem spares_of_update {b' : Buf P} (hw : s.Wf) (hbuf : s'.buf = update s.buf i b')
    (hun : ∀ j, j ≠ i → s'.unsaved j = s.unsaved j)
    (husers : ∀ q, q ≠ p → ∀ j, (q, j) ∈ s.users → (q, j) ∈ s'.users)
    (hid : ∀ q, q ≠ p → (q, i) ∈ s.users →
      b'.dev = (s.buf i).dev ∧ b'.blockno = (s.buf i).blockno)
    (hlock : ∀ q, q ≠ p → (b'.lock = some q ↔ (s.buf i).lock = some q))
    (hsame : δ → ∀ q, q ≠ p → (s.buf i).lock = some q →
      b'.valid = (s.buf i).valid ∧ b'.data = (s.buf i).data ∧ s'.unsaved i = s.unsaved i)
    (htxn : δ → ∀ q, q ≠ p → s.committer = some q → SameTxn d q s s') :
    (protocol δ d).Spares p s s' := by
  intro q hq
  have hself : s'.buf i = b' := by rw [hbuf, update_self]
  have hother : ∀ j, j ≠ i → s'.buf j = s.buf j := fun j hj => by rw [hbuf, update_of_ne hj]
  refine ⟨⟨fun j _ hl => ?_, fun hδ => htxn hδ q hq⟩, fun j hu => ?_, fun j hl => ?_⟩
  · by_cases hj : j = i
    · subst hj
      obtain ⟨hd, hb⟩ := hid q hq (hw.locked j q hl)
      refine ⟨?_, ?_, ?_, fun hδ => ?_⟩
      · rw [hself]
        exact (hlock q hq).mpr hl
      · rw [hself, hd]
      · rw [hself, hb]
      · rw [hself]
        exact hsame hδ q hq hl
    · refine ⟨?_, ?_, ?_, fun _ => ⟨?_, ?_, hun j hj⟩⟩ <;> rw [hother j hj]
      exact hl
  · refine ⟨husers q hq j hu, ?_⟩
    by_cases hj : j = i
    · subst hj
      rw [hself]
      exact hid q hq hu
    · rw [hother j hj]
      exact ⟨rfl, rfl⟩
  · by_cases hj : j = i
    · subst hj
      rw [hself] at hl
      exact (hlock q hq).mp hl
    · rwa [hother j hj] at hl

theorem own_of_update {b' : Buf P} (hbuf : s'.buf = update s.buf i b')
    (hun : ∀ j, j ≠ i → s'.unsaved j = s.unsaved j)
    (hi : i ∈ X ∨ (s.buf i).lock ≠ some p) (hlog : s'.log = s.log)
    (hcom : s'.committer = s.committer) (hpin : pinned s'.trace = pinned s.trace)
    (hlat : latest d s'.trace = latest d s.trace) : Own δ d p X s s' where
  held := fun j hj hl => by
    have hji : j ≠ i := by
      rintro rfl
      exact hi.elim hj fun h => h hl
    have hother : s'.buf j = s.buf j := by rw [hbuf, update_of_ne hji]
    refine ⟨?_, ?_, ?_, fun _ => ⟨?_, ?_, hun j hji⟩⟩ <;> rw [hother]
    exact hl
  txn := fun _ hc => ⟨hcom.trans hc, hlog, hpin, fun b _ => by rw [hlat]⟩

/-! ### `bio.c` -/

variable {Q : Unit → Bio P → Bio P → Prop} {R : Fin NBUF → Bio P → Bio P → Prop} {e : BioEvent}

/-- `bget` ends in a step that begins with the requested buffer unlocked and only locks it. -/
theorem bget_safe (hI : (protocol δ d).inv s) (hsp : (protocol δ d).Spares p s₀ s)
    (hR : ∀ i t, (protocol δ d).inv t → Own δ d p ∅ s t → (p, i) ∈ t.users →
      (t.buf i).lock = none → (t.buf i).dev = dev → (t.buf i).blockno = b →
        R i t (t.setBuf i { t.buf i with lock := some p })) :
    Safe (protocol δ d) p (bget p dev b) R (fun _ _ s => Halts δ d s) s₀ s := by
  obtain ⟨hw, hcoh⟩ := hI
  -- the wait for the lock, once the buffer is counted as obtained
  have wait : ∀ i (s' : Bio P), (protocol δ d).inv s' → (protocol δ d).Spares p s s' →
      Own δ d p ∅ s s' → (p, i) ∈ s'.users → (s'.buf i).dev = dev → (s'.buf i).blockno = b →
      Safe (protocol δ d) p (do acquiresleep p i; Pure.pure i : BioM P (Fin NBUF)) R
        (fun _ _ s => Halts δ d s) s₀ s' := by
    intro i s' hI' hsp' hown hu hd hb
    simp only [acquiresleep]
    refine safe_bind.mpr ⟨hI', hsp.trans hsp', fun t hIt _ hk hr => ?_⟩
    obtain ⟨hu', hd', hb'⟩ := hk.users i hu
    refine hR i t hIt ?_ hu' (by simpa using hr) (hd'.trans hd) (hb'.trans hb)
    simpa using hown.trans hk.own
  unfold bget
  refine safe_bind.mpr ?_
  rw [safe_get]
  split
  · rename_i i hc
    obtain ⟨hd, hb⟩ := hw.cached_some hc
    refine safe_bind.mpr (wait i (s.ref p i) ⟨hw.ref p i, fun hδ => (hcoh hδ).ref p i⟩ ?_ ?_ ?_ ?_ ?_)
    · refine spares_of_update hw rfl (fun _ _ => rfl) (fun q _ j hu => ?_) (fun _ _ _ => ⟨rfl, rfl⟩)
        (fun _ _ => Iff.rfl) (fun _ _ _ _ => ⟨rfl, rfl, rfl⟩) fun _ _ _ hc => ?_
      · exact mem_cons_of_mem _ hu
      · exact ⟨hc, rfl, rfl, fun _ _ => rfl⟩
    · refine ⟨fun j _ hl => ?_, fun _ hc => ⟨hc, rfl, rfl, fun _ _ => rfl⟩⟩
      by_cases hj : j = i
      · subst hj
        refine ⟨?_, ?_, ?_, fun _ => ⟨?_, ?_, rfl⟩⟩ <;> simp [ref, hl]
      · refine ⟨?_, ?_, ?_, fun _ => ⟨?_, ?_, rfl⟩⟩ <;> simp [ref, setBuf_of_ne hj, hl]
    · exact mem_cons_self
    · simpa [ref] using hd
    · simpa [ref] using hb
  · rename_i hc
    split
    · rename_i i hu
      obtain ⟨hf, -⟩ := hw.unused_some hu
      have hnl := hw.lock_of_free hf.1
      have hno : ∀ q, (q, i) ∉ s.users := fun q hq => by
        have hpos : 0 < s.users.countP (·.2 = i) := countP_pos_iff.mpr ⟨(q, i), hq, by simp⟩
        rw [← hw.count, hf.1] at hpos
        omega
      refine safe_bind.mpr (wait i (s.recycle p i dev b)
        ⟨hw.recycle p hc hf, fun hδ => (hcoh hδ).recycle hw hf p dev b⟩ ?_ ?_ ?_ ?_ ?_)
      · refine spares_of_update hw rfl (fun _ _ => rfl) (fun q _ j hu => ?_)
          (fun q _ hu => absurd hu (hno q)) (fun _ _ => Iff.rfl) (fun _ q _ hl => ?_) fun _ _ _ hc => ?_
        · exact mem_cons_of_mem _ hu
        · simp [hnl] at hl
        · exact ⟨hc, rfl, pinned_snoc .., fun b _ => by
            rw [show latest d (s.recycle p i dev _).trace = _ from latest_snoc ..]⟩
      · exact own_of_update rfl (fun _ _ => rfl) (.inr (by simp [hnl])) rfl rfl (pinned_snoc ..)
          (latest_snoc ..)
      · exact mem_cons_self
      · simp [recycle]
      · simp [recycle]
    · exact ⟨hw, fun hδ => (hcoh hδ).transparent⟩

def flushed (s : Bio P) (i : Fin NBUF) : Bio P :=
  { s.setBuf i { s.buf i with dirty := false, valid := true } with
    disk := Function.update s.disk (s.buf i).blockno (s.buf i).data
    unsaved := Function.update s.unsaved i false }

theorem Wf.flushed (h : s.Wf) (i : Fin NBUF) (e : BioEvent) : ((s.flushed i).note e).Wf :=
  h.update rfl rfl rfl rfl rfl rfl rfl rfl fun q hq => h.locked i q hq

theorem flushed_spares (hw : s.Wf) (hl : (s.buf i).lock = some p)
    (htxn : δ → ∀ q, q ≠ p → s.committer = some q → SameTxn d q s ((s.flushed i).note e)) :
    (protocol δ d).Spares p s ((s.flushed i).note e) := by
  refine spares_of_update hw rfl (fun j hj => update_of_ne hj ..) (fun _ _ _ hm => hm)
    (fun _ _ _ => ⟨rfl, rfl⟩) (fun _ _ => Iff.rfl) (fun _ q hq hlq => ?_) htxn
  exact absurd (some.inj (hlq.symm.trans hl)) hq

variable [DecidableEq P] {t : Bio P}

theorem iderw_safe (hl : (s.buf i).lock = some p) (hE : Halts δ d s)
    (hwr : (s.buf i).dirty = true → (s.buf i).dev = ROOTDEV →
      Q () s₀ { s.setBuf i { s.buf i with dirty := false, valid := true } with
        disk := update s.disk (s.buf i).blockno (s.buf i).data })
    (hrd : (s.buf i).dirty = false → (s.buf i).valid = false → (s.buf i).dev = ROOTDEV →
      Q () s₀ (s.setBuf i { s.buf i with data := s.disk (s.buf i).blockno, valid := true })) :
    Safe (protocol δ d) p (iderw p i) Q (fun _ _ s => Halts δ d s) s₀ s := by
  unfold iderw
  refine safe_bind.mpr ?_
  rw [safe_get]
  rw [if_neg (not_not.mpr hl)]
  split_ifs with h1 h2 h3 h4
  · exact hE
  · exact hE
  · exact hE
  · exact hwr h4 (not_not.mp h2)
  · rw [Bool.not_eq_true] at h4
    refine hrd h4 ?_ (not_not.mp h2)
    simpa [h4] using h1

/-- `bread` returns the buffer of the block, locked, with the bytes most recently stored. -/
theorem bread_safe (hI : (protocol δ d).inv s) (hsp : (protocol δ d).Spares p s₀ s)
    (hR : ∀ i t0 t, (protocol δ d).inv t → (protocol δ d).Spares p t0 t → Own δ d p ∅ s t →
      (s.buf i).lock ≠ some p → (t.buf i).lock = some p → (t.buf i).blockno = b →
      (δ → (t.buf i).data = latest d t.trace b ∧ t.unsaved i = false) → R i t0 t) :
    Safe (protocol δ d) p (bread p dev b) R (fun _ _ s => Halts δ d s) s₀ s := by
  unfold bread
  refine safe_bind.mpr (bget_safe hI hsp fun i t hIt hown hu hnl hd hb => ?_)
  obtain ⟨hw, hcoh⟩ := hIt
  have hnl' : (s.buf i).lock ≠ some p := fun hl => by
    have := (hown.held i (by simp) hl).lock
    simp [hnl] at this
  have hlock : ∀ q, q ≠ p → (some p = some q ↔ (t.buf i).lock = some q) := fun q hq => by
    simp [hnl, Ne.symm hq]
  -- the rest of `bread`, once the buffer is locked and filled
  have last : ∀ (b' : Buf P) (dk : ℕ → Block), b'.dev = dev → b'.blockno = b →
      b'.refcnt = (t.buf i).refcnt → b'.lock = some p →
      (δ → Coherent d (({ t.setBuf i b' with disk := dk } : Bio P).note (.returned dev b b'.data)) ∧
        b'.data = latest d t.trace b) →
      R i t (({ t.setBuf i b' with disk := dk } : Bio P).note (.returned dev b b'.data)) := by
    intro b' dk h1 h2 h3 h4 h5
    have hlat := latest_snoc d t.trace (.returned dev b b'.data)
    have hpin := pinned_snoc t.trace (.returned dev b b'.data)
    have hbuf : (({ t.setBuf i b' with disk := dk } : Bio P).note (.returned dev b b'.data)).buf =
        update t.buf i b' := rfl
    refine hR i t _ ⟨?_, fun hδ => (h5 hδ).1⟩ ?_ ?_ hnl' ?_ ?_ fun hδ => ?_
    · exact hw.update hbuf rfl rfl rfl rfl (h1.trans hd.symm) (h2.trans hb.symm) h3 fun q hq =>
        some.inj (h4.symm.trans hq) ▸ hu
    · refine spares_of_update hw hbuf (fun _ _ => rfl) (fun _ _ _ hm => hm)
        (fun _ _ _ => ⟨h1.trans hd.symm, h2.trans hb.symm⟩) (fun q hq => h4 ▸ hlock q hq)
        (fun _ q _ hl => ?_) fun _ q _ hc => ⟨hc, rfl, hpin, fun _ _ => congrFun hlat _⟩
      simp [hnl] at hl
    · have := hown.trans (own_of_update (δ := δ) (X := ∅) (p := p) hbuf (fun _ _ => rfl)
        (.inr (by simp [hnl])) rfl rfl hpin hlat)
      simpa using this
    · rw [hbuf, update_self, h4]
    · rw [hbuf, update_self, h2]
    · rw [hbuf, update_self]
      exact ⟨(h5 hδ).2.trans (congrFun hlat _).symm, ((hcoh hδ).bufs i).saved hnl⟩
  refine safe_bind.mpr ?_
  rw [safe_get]
  rw [setBuf_self]
  subst hd hb
  cases hv : (t.buf i).valid with
  | true =>
    have := last { t.buf i with lock := some p, valid := true } t.disk rfl rfl rfl rfl fun hδ => by
      have hdev := ((hcoh hδ).bufs i).dev hv
      have := (hcoh hδ).bread hw hnl p (t.buf i).data hdev (by simp [hv])
      rw [← hdev] at this
      exact this
    simp only [hv, Bool.not_true, Bool.false_eq_true, if_false]
    refine safe_bind.mpr ?_
    rw [safe_modify, setBuf_self]
    exact this
  | false =>
    simp only [Bool.not_false, if_true]
    refine safe_bind.mpr (iderw_safe (by simp) ?_ ?_ ?_)
    · refine ⟨hw.update (b := { t.buf i with lock := some p }) ?_ rfl rfl rfl rfl rfl rfl rfl fun q hq => ?_,
        fun hδ => (hcoh hδ).transparent⟩
      · simp [setBuf, hv]
      · exact some.inj hq ▸ hu
    · -- an invalid buffer is not dirty as long as the processes are disciplined
      rw [setBuf_self]
      intro hdirty hdev
      have := last { t.buf i with lock := some p, valid := true, dirty := false }
        (update t.disk (t.buf i).blockno (t.buf i).data) rfl rfl rfl rfl fun hδ => by
          have := ((hcoh hδ).bufs i).dirty hdirty
          simp [hv] at this
      refine safe_bind.mpr ?_
      rw [setBuf_setBuf, safe_modify]
      simp only [setBuf_self]
      exact this
    · rw [setBuf_self]
      intro hdirty _ hdev
      have := last { t.buf i with lock := some p, valid := true, data := t.disk (t.buf i).blockno } t.disk
        rfl rfl rfl rfl fun hδ => by
          have := (hcoh hδ).bread hw hnl p (t.disk (t.buf i).blockno) hdev (by simp [hv])
          rw [← hdev] at this
          exact this
      refine safe_bind.mpr ?_
      rw [setBuf_setBuf, safe_modify, setBuf_self]
      exact this

theorem brelse_safe (hI : (protocol δ d).inv s) (hsp : (protocol δ d).Spares p s₀ s)
    (hs : δ → s.unsaved i = false)
    (hQ : ∀ t0 t, (protocol δ d).inv t → (protocol δ d).Spares p t0 t → Own δ d p {i} s t → Q () t0 t) :
    Safe (protocol δ d) p (brelse p i) Q (fun _ _ s => Halts δ d s) s₀ s := by
  obtain ⟨hw, hcoh⟩ := hI
  unfold brelse
  refine safe_bind.mpr ?_
  rw [safe_get]
  split_ifs with hl
  · exact ⟨hw, fun hδ => (hcoh hδ).transparent⟩
  rw [ne_eq, not_not] at hl
  have hu := hw.locked i p hl
  simp only [releasesleep]
  refine safe_bind.mpr (safe_bind.mpr ⟨⟨?_, fun hδ => (hcoh hδ).unlock (hs hδ)⟩,
    hsp.trans ?_, fun t hIt _ hk _ => ?_⟩)
  · exact hw.update rfl rfl rfl rfl rfl rfl rfl rfl fun q hq => by simp at hq
  · refine spares_of_update hw rfl (fun _ _ => rfl) (fun _ _ _ hm => hm) (fun _ _ _ => ⟨rfl, rfl⟩)
      (fun q hq => ?_) (fun _ q hq hlq => ?_) fun _ _ _ hc => ⟨hc, rfl, rfl, fun _ _ => rfl⟩
    · simp [hl, Ne.symm hq]
    · exact absurd (some.inj (hlq.symm.trans hl)) hq
  · obtain ⟨hwt, hcoht⟩ := hIt
    have hnl : (t.buf i).lock ≠ some p := fun hlt => by
      have := hk.lock i hlt
      simp at this
    refine hQ t (t.unref p i) ⟨hwt.unref (hk.users i hu).1 hnl, fun hδ => (hcoht hδ).unref p i⟩ ?_ ?_
    · refine spares_of_update hwt rfl (fun _ _ => rfl) (fun q hq j hm => ?_) (fun _ _ _ => ⟨rfl, rfl⟩)
        (fun _ _ => Iff.rfl) (fun _ _ _ _ => ⟨rfl, rfl, rfl⟩)
        fun _ _ _ hc => ⟨hc, rfl, rfl, fun _ _ => rfl⟩
      refine (mem_erase_of_ne ?_).mpr hm
      rintro ⟨⟩
      exact hq rfl
    · have h1 : Own δ d p {i} s (s.setBuf i { s.buf i with lock := none }) :=
        own_of_update rfl (fun _ _ => rfl) (.inl rfl) rfl rfl rfl rfl
      have h3 : Own δ d p {i} t (t.unref p i) :=
        own_of_update rfl (fun _ _ => rfl) (.inl rfl) rfl rfl rfl rfl
      simpa using (h1.trans hk.own).trans h3

theorem bwrite_safe (hE : Halts δ d s) (hQ : (s.buf i).lock = some p → Q () s₀ (s.flushed i)) :
    Safe (protocol δ d) p (bwrite p i) Q (fun _ _ s => Halts δ d s) s₀ s := by
  unfold bwrite
  refine safe_bind.mpr ?_
  rw [safe_get]
  split_ifs with hl
  · exact hE
  rw [ne_eq, not_not] at hl
  refine safe_bind.mpr (iderw_safe (by simpa using hl) ⟨?_, hE.2⟩ (fun _ _ => ?_) fun hd => ?_)
  · exact hE.1.update rfl rfl rfl rfl rfl rfl rfl rfl fun q hq => hE.1.locked i q hq
  · have := hQ hl
    simpa [flushed, setBuf] using this
  · simp at hd

/-! ### `commit` -/

/-- Copying into a locked buffer and writing it to the disk, for the reason that the event
`e` records. -/
theorem store_safe {α : Type} {data : Block} {e : Bio P → BioEvent} {rest : BioM P α}
    {R : α → Bio P → Bio P → Prop}
    (hI : (protocol δ d).inv s) (hsp : (protocol δ d).Spares p s₀ s) (hl : (s.buf i).lock = some p)
    (ht : t = { s.setBuf i { s.buf i with data := data } with
      unsaved := update s.unsaved i true }) (hlat : δ → latest d (s.trace ++ [e (t.flushed i)]) =
      update (latest d s.trace) (s.buf i).blockno data)
    (hpin : δ → ∀ b, pinned (s.trace ++ [e (t.flushed i)]) b = true →
      pinned s.trace b = true ∧ b ≠ (s.buf i).blockno)
    (he : δ → EventOk d s.trace (e (t.flushed i))) (hcom : δ → s.committer = some p)
    (hrest : ∀ u, (protocol δ d).inv u → (protocol δ d).Spares p s₀ u →
      u = (t.flushed i).note (e (t.flushed i)) →
      Safe (protocol δ d) p rest R (fun _ _ s => Halts δ d s) s₀ u) :
    Safe (protocol δ d) p (do memmove i fun _ => data; bwrite p i
                              Prog.modify fun u => u.note (e u); rest) R
      (fun _ _ s => Halts δ d s) s₀ s := by
  obtain ⟨hw, hcoh⟩ := hI
  have hlt : (t.buf i).lock = some p := by simpa [ht] using hl
  have hwt : t.Wf := by
    subst ht
    exact hw.update rfl rfl rfl rfl rfl rfl rfl rfl fun q hq => hw.locked i q hq
  have hct : δ → Coherent d t := fun hδ => ht ▸ (hcoh hδ).memmove hl data
  have htr : t.trace = s.trace := by rw [ht]; rfl
  have hno : (t.buf i).blockno = (s.buf i).blockno := by simp [ht]
  have hdata : (t.buf i).data = data := by simp [ht]
  have hspt : (protocol δ d).Spares p s t := by
    subst ht
    refine spares_of_update hw rfl (fun j hj => update_of_ne hj ..) (fun _ _ _ hm => hm)
      (fun _ _ _ => ⟨rfl, rfl⟩) (fun _ _ => Iff.rfl) (fun _ q hq hlq => ?_)
      fun _ _ _ hc => ⟨hc, rfl, rfl, fun _ _ => rfl⟩
    exact absurd (some.inj (hlq.symm.trans hl)) hq
  simp only [memmove, safe_bind, safe_modify]
  rw [← ht]
  refine bwrite_safe ⟨hwt, fun hδ => (hct hδ).transparent⟩ fun _ => hrest _ ⟨?_, fun hδ => ?_⟩ ?_ rfl
  · exact hwt.flushed i _
  · have hflush := (hct hδ).flush (e := e (t.flushed i)) hwt hlt
    rw [htr, hno, hdata] at hflush
    have := hflush (hlat hδ) (hpin hδ) (he hδ)
    rw [← hdata, ← hno] at this
    exact this
  · refine hsp.trans (hspt.trans (flushed_spares hwt hlt fun hδ q hq hc => ?_))
    have hcs : t.committer = s.committer := by rw [ht]; rfl
    exact absurd (some.inj (hc.symm.trans (hcs.trans (hcom hδ)))) hq

/-- Process `p` commits the blocks `lh`: the first `n` of them are copied to the log and the
first `m` are installed. -/
structure Committing (d : ℕ → Block) (p : P) (start : ℕ) (lh : List ℕ) (n m : ℕ) (s : Bio P) :
    Prop where
  committer : s.committer = some p
  logstart : s.log.start = start
  txn : s.log.lh = lh
  copied : ∀ k b, k < n → lh[k]? = some b → latest d s.trace (start + k + 1) = latest d s.trace b
  installed : ∀ k b, k < m → lh[k]? = some b → pinned s.trace b = false

variable {start n m : ℕ} {lh : List ℕ}

omit [DecidableEq P] in
theorem Coherent.inArea (h : Coherent d s) {k b : ℕ} (hk : s.log.lh[k]? = some b) :
    s.log.InArea (s.log.start + k + 1) := by
  obtain ⟨hlt, -⟩ := List.getElem?_eq_some_iff.mp hk
  have := h.room (fun he => by simp [he] at hlt)
  constructor <;> omega

omit [DecidableEq P] in
theorem Committing.own (h : Committing d p start lh n m s) (hδ : δ) (hc : Coherent d s)
    (ho : Own δ d p X s s') : Committing d p start lh n m s' := by
  obtain ⟨h1, rfl, rfl, h4, h5⟩ := h
  obtain ⟨k1, k2, k3, k4⟩ := ho.txn hδ h1
  refine ⟨k1, by rw [k2], by rw [k2], fun k b hk hb => ?_, fun k b hk hb => ?_⟩
  · rw [k4 _ (.inl (hc.inArea hb)), k4 b (.inr (mem_of_getElem? hb))]
    exact h4 k b hk hb
  · rw [k3]
    exact h5 k b hk hb

omit [DecidableEq P] in
theorem Committing.copy (h : Committing d p start lh n m s) (hc : Coherent d s) {b : ℕ}
    (hb : lh[n]? = some b) (htr : t.trace = s.trace ++
      [.copied (start + n + 1) b (latest d s.trace b)]) (hlog : t.log = s.log)
    (hcom : t.committer = s.committer) : Committing d p start lh (n + 1) m t := by
  obtain ⟨h1, rfl, rfl, h4, h5⟩ := h
  have hlat : latest d t.trace =
      update (latest d s.trace) (s.log.start + n + 1) (latest d s.trace b) := by
    rw [htr]
    exact latest_snoc ..
  -- the recorded blocks are not in the log area
  have hne : ∀ k c, s.log.lh[k]? = some c → c ≠ s.log.start + n + 1 := fun k c hk he =>
    hc.area c (mem_of_getElem? hk) (he ▸ hc.inArea hb)
  refine ⟨hcom.trans h1, by rw [hlog], by rw [hlog], fun k c hk hkc => ?_, fun k c hk hkc => ?_⟩
  · rw [hlat, update_of_ne (hne k c hkc)]
    by_cases hkn : k = n
    · subst hkn
      obtain rfl : b = c := some.inj (hb.symm.trans hkc)
      rw [update_self]
    · rw [update_of_ne (by omega)]
      exact h4 k c (by omega) hkc
  · rw [htr, pinned_snoc]
    exact h5 k c hk hkc

omit [DecidableEq P] in
theorem Committing.install (h : Committing d p start lh n m s) {b : ℕ} (hb : lh[m]? = some b)
    (htr : t.trace = s.trace ++ [.installed b]) (hlog : t.log = s.log)
    (hcom : t.committer = s.committer) : Committing d p start lh n (m + 1) t := by
  obtain ⟨h1, rfl, rfl, h4, h5⟩ := h
  have hlat : latest d t.trace = latest d s.trace := by
    rw [htr]
    exact latest_snoc ..
  refine ⟨hcom.trans h1, by rw [hlog], by rw [hlog], fun k c hk hkc => ?_, fun k c hk hkc => ?_⟩
  · rw [hlat]
    exact h4 k c hk hkc
  · rw [htr, pinned_snoc]
    by_cases hcb : c = b
    · rw [hcb]
      exact update_self ..
    · have hkm : k ≠ m := fun he => hcb (some.inj (hkc.symm.trans (he ▸ hb)))
      exact (update_of_ne hcb ..).trans (h5 k c (by omega) hkc)

/-- The common part of the two loops: copy the data of `src` to `dst`, write it and release
both. -/
theorem copy_safe {src dst : Fin NBUF} {rest : BioM P Unit}
    (hI : (protocol δ d).inv s) (hsp : (protocol δ d).Spares p s₀ s)
    (hl : (s.buf dst).lock = some p) (hne : src ≠ dst) (hsaved : δ → s.unsaved src = false)
    (hlat : δ → latest d (s.trace ++ [e]) =
      update (latest d s.trace) (s.buf dst).blockno (s.buf src).data)
    (hpin : δ → ∀ b, pinned (s.trace ++ [e]) b = true →
      pinned s.trace b = true ∧ b ≠ (s.buf dst).blockno)
    (he : δ → EventOk d s.trace e) (hcom : δ → s.committer = some p)
    (hrest : ∀ u t1 t2 t, (protocol δ d).inv u → u.trace = s.trace ++ [e] → u.log = s.log →
      u.committer = s.committer → (protocol δ d).inv t1 → Own δ d p {src} u t1 →
      Own δ d p {dst} t1 t → (protocol δ d).inv t → (protocol δ d).Spares p t2 t →
      Safe (protocol δ d) p rest Q (fun _ _ s => Halts δ d s) t2 t) :
    Safe (protocol δ d) p (do memmove dst fun _ => (s.buf src).data; bwrite p dst
                              Prog.modify fun u => u.note e; brelse p src; brelse p dst; rest)
      Q (fun _ _ s => Halts δ d s) s₀ s := by
  refine store_safe hI hsp hl rfl hlat hpin he hcom fun u hIu hspu hu => ?_
  have hlu : (u.buf dst).lock = some p := by
    rw [hu]
    simpa [note, flushed] using hl
  refine safe_bind.mpr (brelse_safe hIu hspu (fun hδ => ?_) fun t1' t1 hI1 hsp1 ho1 => ?_)
  · rw [hu]
    simpa [note, flushed, update_of_ne hne] using hsaved hδ
  refine safe_bind.mpr (brelse_safe hI1 hsp1 (fun hδ => ?_) fun t2 t hIt hspt ho2 => ?_)
  · rw [((ho1.held dst (Ne.symm hne) hlu).same hδ).2.2, hu]
    simp [note, flushed]
  · refine hrest u t1 t2 t hIu ?_ ?_ ?_ hI1 ho1 ho2 hIt hspt <;> rw [hu] <;> rfl

section

variable (bs : List ℕ) (tail : ℕ) (hbs : ∀ k b, bs[k]? = some b → lh[tail + k]? = some b)
  (hI : (protocol δ d).inv s) (hsp : (protocol δ d).Spares p s₀ s)
include bs tail hbs hI hsp

theorem writeLogFrom_safe (hc : δ → Committing d p start lh tail m s)
    (hQ : ∀ t0 t, (protocol δ d).inv t → (protocol δ d).Spares p t0 t →
      (δ → Committing d p start lh (tail + bs.length) m t) → Q () t0 t) :
    Safe (protocol δ d) p (writeLogFrom p start tail bs) Q (fun _ _ s => Halts δ d s) s₀ s := by
  induction bs generalizing tail s₀ s with
  | nil => exact hQ s₀ s hI hsp hc
  | cons b bs ih =>
    have hb : lh[tail]? = some b := hbs 0 b rfl
    unfold writeLogFrom
    refine safe_bind.mpr (bread_safe hI hsp fun dst t1 u1 hI1 hsp1 ho1 _ hl1 hn1 _ => ?_)
    refine safe_bind.mpr (bread_safe hI1 hsp1 fun src t2 u2 hI2 hsp2 ho2 hne hl2 hn2 hd2 => ?_)
    have hc2 : δ → Committing d p start lh tail m u2 := fun hδ =>
      ((hc hδ).own hδ (hI.2 hδ) ho1).own hδ (hI1.2 hδ) ho2
    have hs := ho2.held dst (by simp) hl1
    have hsd : src ≠ dst := by
      rintro rfl
      exact hne hl1
    refine safe_bind.mpr ?_
    rw [safe_get]
    refine copy_safe hI2 hsp2 hs.lock hsd (fun hδ => (hd2 hδ).2) (fun hδ => ?_) (fun hδ c hcp => ?_)
      (fun hδ => (hd2 hδ).1) (fun hδ => (hc2 hδ).committer)
      fun u t3 t4 t hIu htr hlog hcom hI3 ho3 ho4 hIt hspt => ?_
    · rw [latest_snoc, hs.blockno, hn1]
    · rw [pinned_snoc] at hcp
      refine ⟨hcp, fun he => ?_⟩
      -- a pinned block is recorded, the log block is in the log area
      have harea := (hI2.2 hδ).inArea ((hc2 hδ).txn ▸ hb)
      rw [(hc2 hδ).logstart, ← hn1, ← hs.blockno, ← he] at harea
      exact (hI2.2 hδ).area c ((hI2.2 hδ).pinned c hcp).1 harea
    · refine ih (tail + 1) (fun k c hk => ?_) hIt hspt (fun hδ => ?_) fun t0 t hIt hspt hct => ?_
      · have := hbs (k + 1) c hk
        rwa [show tail + (k + 1) = tail + 1 + k by omega] at this
      · rw [(hd2 hδ).1] at htr
        have hcu := (hc2 hδ).copy (hI2.2 hδ) hb htr hlog hcom
        exact (hcu.own hδ (hIu.2 hδ) ho3).own hδ (hI3.2 hδ) ho4
      · refine hQ t0 t hIt hspt fun hδ => ?_
        have := hct hδ
        rwa [show tail + 1 + bs.length = tail + (b :: bs).length by simp; omega] at this

theorem installFrom_safe (hc : δ → Committing d p start lh lh.length tail s)
    (hQ : ∀ t0 t, (protocol δ d).inv t → (protocol δ d).Spares p t0 t →
      (δ → Committing d p start lh lh.length (tail + bs.length) t) → Q () t0 t) :
    Safe (protocol δ d) p (installFrom p start tail bs) Q (fun _ _ s => Halts δ d s) s₀ s := by
  induction bs generalizing tail s₀ s with
  | nil => exact hQ s₀ s hI hsp hc
  | cons b bs ih =>
    have hb : lh[tail]? = some b := hbs 0 b rfl
    obtain ⟨hlt, -⟩ := List.getElem?_eq_some_iff.mp hb
    unfold installFrom
    refine safe_bind.mpr (bread_safe hI hsp fun lbuf t1 u1 hI1 hsp1 ho1 _ hl1 hn1 hd1 => ?_)
    refine safe_bind.mpr (bread_safe hI1 hsp1 fun dbuf t2 u2 hI2 hsp2 ho2 hne hl2 hn2 hd2 => ?_)
    have hc1 : δ → Committing d p start lh lh.length tail u1 := fun hδ => (hc hδ).own hδ (hI.2 hδ) ho1
    have hc2 : δ → Committing d p start lh lh.length tail u2 := fun hδ => (hc1 hδ).own hδ (hI1.2 hδ) ho2
    have hs := ho2.held lbuf (by simp) hl1
    have hsd : lbuf ≠ dbuf := by
      rintro rfl
      exact hne hl1
    -- the log block holds what the home block holds already
    have hsame : δ → (u2.buf lbuf).data = latest d u2.trace b := fun hδ => by
      rw [(hs.same hδ).2.1, (hd1 hδ).1, (hc1 hδ).copied tail b hlt hb]
      exact ((ho2.txn hδ (hc1 hδ).committer).latest b
        (.inr ((hc1 hδ).txn ▸ mem_of_getElem? hb))).symm
    refine safe_bind.mpr ?_
    rw [safe_get]
    refine copy_safe hI2 hsp2 hl2 hsd (fun hδ => ?_) (fun hδ => ?_) (fun hδ c hcp => ?_)
      (fun hδ => trivial) (fun hδ => (hc2 hδ).committer)
      fun u t3 t4 t hIu htr hlog hcom hI3 ho3 ho4 hIt hspt => ?_
    · rw [(hs.same hδ).2.2, (hd1 hδ).2]
    · rw [latest_snoc, hsame hδ, hn2, update_eq_self]
    · rw [pinned_snoc] at hcp
      rw [hn2]
      by_cases hcb : c = b
      · simp [hcb] at hcp
      · exact ⟨by simpa [update_of_ne hcb] using hcp, hcb⟩
    · refine ih (tail + 1) (fun k c hk => ?_) hIt hspt (fun hδ => ?_) fun t0 t hIt hspt hct => ?_
      · have := hbs (k + 1) c hk
        rwa [show tail + (k + 1) = tail + 1 + k by omega] at this
      · have hcu := (hc2 hδ).install hb htr hlog hcom
        exact (hcu.own hδ (hIu.2 hδ) ho3).own hδ (hI3.2 hδ) ho4
      · refine hQ t0 t hIt hspt fun hδ => ?_
        have := hct hδ
        rwa [show tail + 1 + bs.length = tail + (b :: bs).length by simp; omega] at this

end

theorem writeHead_safe (hI : (protocol δ d).inv s) (hsp : (protocol δ d).Spares p s₀ s)
    (hc : δ → Committing d p start lh n m s)
    (hQ : ∀ t0 t, (protocol δ d).inv t → (protocol δ d).Spares p t0 t →
      (δ → Committing d p start lh n m t) → Q () t0 t) :
    Safe (protocol δ d) p (writeHead p) Q (fun _ _ s => Halts δ d s) s₀ s := by
  unfold writeHead
  refine safe_bind.mpr ?_
  rw [safe_get]
  refine safe_bind.mpr (bread_safe hI hsp fun i t1 u1 hI1 hsp1 ho1 _ hl1 hn1 hd1 => ?_)
  have hc1 : δ → Committing d p start lh n m u1 := fun hδ => (hc hδ).own hδ (hI.2 hδ) ho1
  have hstart : δ → s.log.start = u1.log.start := fun hδ => (hc hδ).logstart.trans (hc1 hδ).logstart.symm
  -- the header block is in the log area, so it is not recorded
  have hne : δ → ∀ b ∈ u1.log.lh, b ≠ u1.log.start := fun hδ b hb he => by
    have := (hI1.2 hδ).room (ne_nil_of_mem hb)
    exact (hI1.2 hδ).area b hb ⟨by omega, by omega⟩
  refine safe_bind.mpr ?_
  rw [safe_get]
  refine store_safe (e := fun u => .written u.log.start (u.buf i).data) hI1 hsp1 hl1 rfl
    (fun hδ => ?_) (fun hδ b hb => ?_) (fun _ => trivial) (fun hδ => (hc1 hδ).committer)
    fun u hIu hspu hu => ?_
  · rw [latest_snoc, hn1, hstart hδ]
    simp [flushed, setBuf]
  · rw [pinned_snoc] at hb
    rw [hn1, hstart hδ]
    exact ⟨hb, hne hδ b ((hI1.2 hδ).pinned b hb).1⟩
  · refine brelse_safe hIu hspu (fun hδ => ?_) fun t0 t hIt hspt ho => hQ t0 t hIt hspt fun hδ => ?_
    · rw [hu]
      simp [note, flushed]
    · refine Committing.own ?_ hδ (hIu.2 hδ) ho
      obtain ⟨h1, rfl, rfl, h4, h5⟩ := hc1 hδ
      have hlat := latest_snoc d u1.trace
      rw [hu]
      refine ⟨h1, rfl, rfl, fun k b hk hb => ?_, fun k b hk hb => ?_⟩
      · simp only [note, flushed, setBuf, hlat]
        rw [update_of_ne (by omega), update_of_ne (hne hδ b (mem_of_getElem? hb))]
        exact h4 k b hk hb
      · simp only [note, flushed, setBuf, pinned_snoc]
        exact h5 k b hk hb

omit [DecidableEq P] in
theorem spares_of_log (hbuf : s'.buf = s.buf) (hun : s'.unsaved = s.unsaved)
    (husers : s'.users = s.users) (htxn : δ → ∀ q, q ≠ p → s.committer = some q → SameTxn d q s s') :
    (protocol δ d).Spares p s s' := by
  intro q hq
  refine ⟨⟨fun j _ hl => ?_, fun hδ => htxn hδ q hq⟩, fun j hu => ?_, fun j hl => ?_⟩
  · rw [← hbuf] at hl
    exact ⟨hl, by rw [hbuf], by rw [hbuf], fun _ => ⟨by rw [hbuf], by rw [hbuf], by rw [hun]⟩⟩
  · rw [husers, hbuf]
    exact ⟨hu, rfl, rfl⟩
  · rwa [hbuf] at hl

theorem commit_safe (hI : (protocol δ d).inv s) (hsp : (protocol δ d).Spares p s₀ s)
    (hc : δ → s.committer = some p)
    (hQ : ∀ t0 t, (protocol δ d).inv t → (protocol δ d).Spares p t0 t →
      (δ → t.committer = some p) → Q () t0 t) :
    Safe (protocol δ d) p (commit p) Q (fun _ _ s => Halts δ d s) s₀ s := by
  unfold commit
  refine safe_bind.mpr ?_
  rw [safe_get]
  split_ifs with hlen
  · refine safe_bind.mpr (writeLogFrom_safe s.log.lh 0 (by simp) hI hsp
      (fun hδ => (⟨hc hδ, rfl, rfl, by simp, by simp⟩ : Committing d p _ s.log.lh 0 0 s))
      fun t1 u1 hI1 hsp1 hc1 => ?_)
    rw [Nat.zero_add] at hc1
    refine safe_bind.mpr (writeHead_safe hI1 hsp1 hc1 fun t2 u2 hI2 hsp2 hc2 => ?_)
    refine safe_bind.mpr ?_
    rw [safe_get]
    refine safe_bind.mpr (installFrom_safe u2.log.lh 0 (fun k b hk => ?_) hI2 hsp2
      (fun hδ => (?_ : Committing d p u2.log.start u2.log.lh u2.log.lh.length 0 u2))
      fun t3 u3 hI3 hsp3 hc3 => ?_)
    · rwa [Nat.zero_add]
    · obtain ⟨h1, h2, h3, h4, h5⟩ := hc2 hδ
      rw [h2, h3]
      exact ⟨h1, h2, h3, h4, h5⟩
    · refine safe_bind.mpr ?_
      rw [safe_modify]
      refine writeHead_safe ⟨?_, fun hδ => ?_⟩ (hsp3.trans ?_)
        (fun hδ => (?_ : Committing d p u3.log.start [] 0 0 _)) fun t0 t hIt hspt hct => hQ t0 t hIt hspt fun hδ => (hct hδ).committer
      · exact hI3.1.congr rfl rfl rfl rfl (fun _ => rfl) (fun _ => rfl) (fun _ => rfl) hI3.1.locked
      · -- everything recorded has been installed, so nothing is pinned
        obtain ⟨h1, h2, h3, h4, h5, h6, h7⟩ := hI3.2 hδ
        refine ⟨h1, h2, fun b hb => ?_, by simp, by simp, h6, h7⟩
        obtain ⟨k, hk⟩ := getElem?_of_mem (h3 b hb).1
        rw [(hc3 hδ).txn] at hk
        obtain ⟨hlt, -⟩ := List.getElem?_eq_some_iff.mp hk
        rw [(hc3 hδ).installed k b (by omega) hk] at hb
        cases hb
      · refine spares_of_log rfl rfl rfl fun hδ q hq hcq => ?_
        exact absurd (some.inj (hcq.symm.trans (hc3 hδ).committer)) hq
      · exact ⟨(hc3 hδ).committer, rfl, rfl, by simp, by simp⟩
  · exact hQ s₀ s hI hsp hc

omit [DecidableEq P] in
theorem beginOp_safe (hI : (protocol δ d).inv s) :
    Safe (protocol δ d) p (beginOp : BioM P Unit) (Done δ d p) (fun _ _ s => Halts δ d s) s s := by
  unfold beginOp
  refine safe_bind.mpr ⟨hI, .refl _ p s, fun t ⟨hw, hcoh⟩ _ _ hr => ?_⟩
  obtain ⟨log, hlog⟩ := isSome_iff_exists.mp hr
  change Done δ d p () t { t with log := t.log.beginOp.getD t.log }
  rw [hlog, getD_some]
  simp only [Log.beginOp] at hlog
  split_ifs at hlog with hcm hbig
  obtain rfl := some.inj hlog
  -- no process is committing
  have hno : δ → ∀ q, t.committer ≠ some q := fun hδ q hq => hcm ((hcoh hδ).commit q hq).1
  refine ⟨⟨?_, fun hδ => ?_⟩, spares_of_log rfl rfl rfl fun hδ q _ hq => absurd hq (hno hδ q)⟩
  · exact hw.congr rfl rfl rfl rfl (fun _ => rfl) (fun _ => rfl) (fun _ => rfl) hw.locked
  · obtain ⟨h1, h2, h3, h4, h5, -, h7⟩ := hcoh hδ
    exact ⟨h1, h2, h3, h4, h5, fun q hq => absurd hq (hno hδ q), h7⟩

omit [DecidableEq P] in
theorem Coherent.setLog (h : Coherent d s) {log : Log} {c : Option P} (hlh : log.lh = s.log.lh)
    (hstart : log.start = s.log.start) (hsize : log.size = s.log.size)
    (hc : ∀ q, c = some q → log.committing = true ∧ log.outstanding = 0) :
    Coherent d { s with log := log, committer := c } := by
  obtain ⟨h1, h2, h3, h4, h5, -, h7⟩ := h
  refine ⟨h1, h2, fun b hb => ?_, fun b hb => ?_, fun hne => ?_, hc, h7⟩
  · rw [hlh]
    exact h3 b hb
  · change ¬(log.start ≤ b ∧ b < log.start + log.size)
    rw [hstart, hsize]
    exact h4 b (hlh ▸ hb)
  · change log.lh.length < log.size
    rw [hlh, hsize]
    exact h5 (hlh ▸ hne)

theorem endOp_safe (hI : (protocol δ d).inv s) : Safe (protocol δ d) p (endOp p) (Done δ d p)
      (fun _ _ s => Halts δ d s) s s := by
  obtain ⟨hw, hcoh⟩ := hI
  have hwf : ∀ log c, ({ s with log := log, committer := c } : Bio P).Wf := fun log c =>
    hw.congr rfl rfl rfl rfl (fun _ => rfl) (fun _ => rfl) (fun _ => rfl) hw.locked
  unfold endOp
  refine safe_bind.mpr ?_
  rw [safe_get]
  simp only [Log.endOp]
  split_ifs with hcm hz
  · exact ⟨hw, fun hδ => (hcoh hδ).transparent⟩
  · -- the last operation: this process commits
    have hno : δ → ∀ q, s.committer ≠ some q := fun hδ q hq => hcm ((hcoh hδ).commit q hq).1
    refine safe_bind.mpr (safe_bind.mpr ⟨⟨hwf _ _, fun hδ => ?_⟩, ?_, fun t hIt _ hk _ => ?_⟩)
    · exact (hcoh hδ).setLog rfl rfl rfl fun _ _ => ⟨rfl, hz⟩
    · exact spares_of_log rfl rfl rfl fun hδ q _ hq => absurd hq (hno hδ q)
    · refine safe_bind.mpr (commit_safe hIt (.refl _ p t) (fun hδ => (hk.own.txn hδ rfl).committer)
        fun t0 u hIu hspu hcu => ⟨⟨?_, fun hδ => ?_⟩, hspu.trans ?_⟩)
      · exact hIu.1.congr rfl rfl rfl rfl (fun _ => rfl) (fun _ => rfl) (fun _ => rfl) hIu.1.locked
      · exact (hIu.2 hδ).setLog rfl rfl rfl fun q hq => by simp at hq
      · refine spares_of_log rfl rfl rfl fun hδ q hq hcq => ?_
        exact absurd (some.inj (hcq.symm.trans (hcu hδ))) hq
  · have hno : δ → ∀ q, s.committer ≠ some q := fun hδ q hq => hcm ((hcoh hδ).commit q hq).1
    refine ⟨⟨hwf _ _, fun hδ => ?_⟩, spares_of_log rfl rfl rfl fun hδ q _ hq => absurd hq (hno hδ q)⟩
    exact (hcoh hδ).setLog rfl rfl rfl fun q hq => absurd hq (hno hδ q)

/-! ### The calls of the processes -/

theorem run_safe (k : BioCall) (hI : (protocol δ d).inv s) (hδ : δ → s.Disciplined p k) :
    Safe (protocol δ d) p (run p k) (Done δ d p) (fun _ _ s => Halts δ d s) s s := by
  have hsp := Protocol.Spares.refl (protocol δ d) p s
  obtain ⟨hw, hcoh⟩ := hI
  cases k with
  | bget dev b =>
    refine safe_bind.mpr (bget_safe ⟨hw, hcoh⟩ hsp fun i t ⟨hwt, _⟩ _ hu hnl _ _ =>
      ⟨⟨?_, fun h => (hδ h).1.elim⟩, ?_⟩)
    · exact hwt.update rfl rfl rfl rfl rfl rfl rfl rfl fun q hq => some.inj hq ▸ hu
    · refine spares_of_update hwt rfl (fun _ _ => rfl) (fun _ _ _ hm => hm) (fun _ _ _ => ⟨rfl, rfl⟩)
        (fun q hq => ?_) (fun h => (hδ h).1.elim) fun h => (hδ h).1.elim
      simp [hnl, Ne.symm hq]
  | bread dev b =>
    exact safe_bind.mpr (bread_safe ⟨hw, hcoh⟩ hsp fun i t0 t hIt hspt _ _ _ _ _ => ⟨hIt, hspt⟩)
  | memmove i f =>
    refine ⟨⟨?_, fun h => (hcoh h).memmove (hδ h).1 _⟩, ?_⟩
    · exact hw.update rfl rfl rfl rfl rfl rfl rfl rfl fun q hq => hw.locked i q hq
    · refine spares_of_update hw rfl (fun j hj => update_of_ne hj ..) (fun _ _ _ hm => hm)
        (fun _ _ _ => ⟨rfl, rfl⟩) (fun _ _ => Iff.rfl) (fun h q hq hlq => ?_)
        fun _ _ _ hc => ⟨hc, rfl, rfl, fun _ _ => rfl⟩
      exact absurd (some.inj (hlq.symm.trans (hδ h).1)) hq
  | bwrite i =>
    refine safe_bind.mpr (bwrite_safe ⟨hw, fun h => (hcoh h).transparent⟩ fun hl =>
      ⟨⟨hw.flushed i _, fun h => ?_⟩, ?_⟩)
    · have hno : ((s.flushed i).buf i).blockno = (s.buf i).blockno := by simp [flushed]
      have hdata : ((s.flushed i).buf i).data = (s.buf i).data := by simp [flushed]
      change Coherent d ((s.flushed i).note (.written _ _))
      rw [hno, hdata]
      refine (hcoh h).flush hw hl (latest_snoc ..) (fun b hb => ?_) trivial
      rw [pinned_snoc] at hb
      exact ⟨hb, fun he => (hδ h).2.1 (he ▸ ((hcoh h).pinned b hb).1)⟩
    · refine flushed_spares hw hl fun h q hq hc => ⟨hc, rfl, pinned_snoc .., fun b hb => ?_⟩
      have hlat := latest_snoc d s.trace
        (.written ((s.flushed i).buf i).blockno ((s.flushed i).buf i).data)
      refine (congrFun hlat b).trans (update_of_ne ?_ ..)
      have hno : ((s.flushed i).buf i).blockno = (s.buf i).blockno := by simp [flushed]
      rw [hno]
      rintro rfl
      exact hb.elim (hδ h).2.2 (hδ h).2.1
  | logWrite i =>
    change Safe _ p (logWrite i) _ _ s s
    unfold logWrite
    refine safe_bind.mpr ?_
    rw [safe_get]
    dsimp only
    split
    · exact ⟨hw, fun h => (hcoh h).transparent⟩
    · rename_i log hlog
      refine ⟨⟨?_, fun h => (hcoh h).logWrite hw (hδ h).1 (hδ h).2 hlog⟩, ?_⟩
      · exact hw.update rfl rfl rfl rfl rfl rfl rfl rfl fun q hq => hw.locked i q hq
      · refine spares_of_update hw rfl (fun j hj => update_of_ne hj ..) (fun _ _ _ hm => hm)
          (fun _ _ _ => ⟨rfl, rfl⟩) (fun _ _ => Iff.rfl) (fun h q hq hlq => ?_) fun h q _ hc => ?_
        · exact absurd (some.inj (hlq.symm.trans (hδ h).1)) hq
        · -- while a process commits no operation is outstanding, and `log_write` panics
          have hout := ((hcoh h).commit q hc).2
          simp only [Log.logWrite] at hlog
          split_ifs at hlog
          omega
  | brelse i =>
    exact brelse_safe ⟨hw, hcoh⟩ hsp (fun h => (hδ h).1.2) fun t0 t hIt hspt _ => ⟨hIt, hspt⟩
  | beginOp => exact beginOp_safe ⟨hw, hcoh⟩
  | endOp => exact endOp_safe ⟨hw, hcoh⟩

end Xv6.Bio
