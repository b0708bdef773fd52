import Xv6.Proofs.Blocks
import Xv6.Proofs.GroupCommit
import Xv6.Spec.OpBlocks

/-! What `writei` does to the bytes of the files, which blocks it logs, and the two reasons
for which it can stop: the log is full, or the disk is. -/

namespace Xv6

open List Store Nat

variable {data : Block} {src : List UInt8} {off : ℕ}

namespace Log

variable {log : Log} {b : ℕ} {bs cs : List ℕ}

def writes (log : Log) (bs : List ℕ) : Log :=
  { log with lh := bs.foldr (fun b lh => absorb lh b) log.lh }

theorem writes_append (log : Log) (cs bs : List ℕ) :
    log.writes (cs ++ bs) = (log.writes bs).writes cs := by
  simp [writes, foldr_append]

theorem mem_writes (log : Log) (bs : List ℕ) (x : ℕ) :
    x ∈ (log.writes bs).lh ↔ x ∈ log.lh ∨ x ∈ bs := by
  induction bs with
  | nil => simp [writes]
  | cons b bs ih =>
    change x ∈ absorb (log.writes bs).lh b ↔ _
    rw [mem_absorb, ih, mem_cons]
    tauto

theorem length_writes_le (log : Log) (bs : List ℕ) :
    (log.writes bs).lh.length ≤ log.lh.length + bs.toFinset.card := by
  induction bs with
  | nil => simp [writes]
  | cons b bs ih =>
    change (absorb (log.writes bs).lh b).length ≤ _
    rw [absorb_eq]
    split_ifs with hb
    · have hsub : bs.toFinset.card ≤ (b :: bs).toFinset.card :=
        Finset.card_le_card fun x hx => by simp_all
      omega
    · have hb' : b ∉ bs.toFinset := fun h => hb ((mem_writes log bs b).mpr (.inr (by simpa using h)))
      rw [toFinset_cons, Finset.card_insert_of_notMem hb', length_append,
        length_singleton]
      omega

theorem card_le_length_writes (log : Log) (bs : List ℕ) :
    bs.toFinset.card ≤ (log.writes bs).lh.length := by
  calc bs.toFinset.card ≤ (log.writes bs).lh.toFinset.card :=
        Finset.card_le_card fun x hx => by
          rw [mem_toFinset] at hx ⊢
          exact (mem_writes log bs x).mpr (.inr hx)
    _ ≤ _ := toFinset_card_le _

def cap (log : Log) : ℕ := min LOGSIZE (log.size - 1)

def Room (log : Log) (n : ℕ) : Prop := 1 ≤ log.outstanding ∧ log.lh.length + n < log.cap

theorem Room.logWrite (h : log.Room bs.toFinset.card) (b : ℕ) {e : LogPanic} :
    (log.writes bs).logWrite b ≠ .error e := by
  intro he
  obtain ⟨ho, hn⟩ := h
  have hlen := length_writes_le log bs
  unfold cap at hn
  rcases logWrite_error he with ⟨-, hbig⟩ | ⟨-, hout⟩
  · change _ ∨ log.size - 1 ≤ _ at hbig
    omega
  · change log.outstanding < 1 at hout
    omega

end Log

namespace Store

variable {t t' t'' : Store} {x : Set Ptr} {out : Set ℕ} {W W' : Set (ℕ × ℕ)} {K : Finset ℕ}
  {i k b : ℕ}

/-! The bytes of the files. -/

theorem slot_of_held (h : t.held (i, k) = some b) : t.slot i k = b := (held_iff.mp h).2.2.1

theorem byteAt_of_held (h : t.held (i, slotIdx (k / BSIZE)) = some b) :
    t.byteAt i k = (t.blocks b).get (k % BSIZE) := by
  unfold byteAt
  rw [slot_of_held h]

structure Edits (W : Set (ℕ × ℕ)) (t t' : Store) : Prop where
  held : ∀ y b, t.held y = some b → t'.held y = some b
  byte : ∀ i k b, t.held (i, slotIdx (k / BSIZE)) = some b → (i, k) ∉ W →
    t'.byteAt i k = t.byteAt i k

namespace Edits

theorem refl : Edits W t t := ⟨fun _ _ h => h, fun _ _ _ _ _ => rfl⟩

theorem trans (h : Edits W t t') (h' : Edits W t' t'') : Edits W t t'' where
  held y b hy := h'.held y b (h.held y b hy)
  byte i k b hb hW := (h'.byte i k b (h.held _ _ hb) hW).trans (h.byte i k b hb hW)

theorem mono (h : Edits W t t') (hW : W ⊆ W') : Edits W' t t' :=
  ⟨h.held, fun i k b hb hk => h.byte i k b hb fun hm => hk (hW hm)⟩

theorem of_blocks (hh : ∀ y b, t.held y = some b → t'.held y = some b)
    (hb : ∀ y b, y.2 ≠ NDIRECT → t.held y = some b → t'.blocks b = t.blocks b) : Edits W t t' where
  held := hh
  byte i k b hk _ := by
    rw [byteAt_of_held hk, byteAt_of_held (hh _ _ hk), hb _ _ (Fs.slotIdx_ne _) hk]

end Edits

theorem WfExcept.edits_alloc (h : WfExcept x ∅ t) (hb : b ∈ t.sb.dataBlocks) (hu : ¬t.used b) :
    Edits W t (t.alloc b) := by
  refine .of_blocks (fun y c hy => by rwa [(h.same_alloc hb hu).held]) fun y c _ hy => ?_
  have hcb : c ≠ b := fun e => h.sound.not_held hu y (e ▸ hy)
  have hcm : c ≠ BBLOCK b t.sb := fun e => h.held_ne_map (h.geometry.bblock_mem hb.2) y (e ▸ hy)
  change ((t.mark b).setBlock b Buffer.zero).blocks c = _
  rw [setBlock_ne hcb]
  exact setBlock_ne hcm

theorem WfExcept.edits_indirect (h : WfExcept x out t) (hi : t.held (i, NDIRECT) = some b)
    (hh : ∀ y c, t.held y = some c → (t.setBlock b data).held y = some c) :
    Edits W t (t.setBlock b data) := by
  refine .of_blocks hh fun y c hy hc => setBlock_ne ?_
  rintro rfl
  exact hy (congrArg Prod.snd (h.sound.unique _ _ _ hc hi))

theorem WfExcept.edits_setData (h : WfExcept x out t) {bn o : ℕ}
    (hb : t.held (i, slotIdx bn) = some b) (hW : ∀ j < src.length, (i, bn * BSIZE + o + j) ∈ W) :
    Edits W t (t.setBlock b ((t.blocks b).patch o src)) := by
  have hdata := h.sound.data _ _ hb
  have hno : ∀ j, t.held (j, NDIRECT) ≠ some b := fun j hj =>
    Fs.slotIdx_ne _ (Prod.mk.inj (h.sound.unique _ _ _ hb hj)).2
  have hheld : (t.setBlock b ((t.blocks b).patch o src)).held = t.held :=
    (h.same_setData hdata hno).held
  refine ⟨fun y c hy => by rwa [hheld], fun j k c hc hk => ?_⟩
  rw [byteAt_of_held hc, byteAt_of_held (hheld ▸ hc)]
  by_cases hcb : c = b
  · subst hcb
    obtain ⟨rfl, hidx⟩ := Prod.mk.inj (h.sound.unique _ _ _ hc hb)
    have hbn : k / BSIZE = bn := by
      unfold slotIdx at hidx
      split_ifs at hidx <;> omega
    rw [setBlock_self]
    refine Buffer.get_patch_of_outside _ _ _ ?_
    by_contra hin
    have hkW := hW (k % BSIZE - o) (by omega)
    rw [show bn * BSIZE + o + (k % BSIZE - o) = k by
      have := div_add_mod k BSIZE
      rw [hbn] at this
      rw [mul_comm bn]
      omega] at hkW
    exact hk hkW
  · rw [setBlock_ne hcb]

theorem WfExcept.edits_setDinode (h : WfExcept x out t) (hi : i < t.sb.ninodes) {d : Dinode}
    (hh : (t.setDinode i d).held = t.held) : Edits W t (t.setDinode i d) := by
  refine .of_blocks (fun y c hy => by rwa [hh]) fun y c _ hc => setDinode_blocks_ne ?_
  have hlt := h.geometry.iblock_lt hi
  have hpos : t.sb.bmapstart ≤ c := (le_add_right _ _).trans (h.held_pos hc).1
  omega

/-! Free blocks. -/

def missing (t : Store) (i : ℕ) (K : Finset ℕ) : Finset ℕ := K.filter fun k => t.held (i, k) = none

instance (t : Store) (b : ℕ) : Decidable (t.used b) := inferInstanceAs (Decidable (_ = false))

def free (t : Store) : Finset ℕ := (Finset.range t.sb.size).filter fun b => ¬t.used b

def Supply (i : ℕ) (K : Finset ℕ) (t : Store) : Prop := (t.missing i K).card ≤ t.free.card

theorem mem_free : b ∈ t.free ↔ b < t.sb.size ∧ ¬t.used b := by simp [free]

theorem Supply.exists_free (h : Supply i K t) (hk : k ∈ K) (hn : t.held (i, k) = none) :
    ∃ b < t.sb.size, ¬t.used b := by
  have hpos : 0 < (t.missing i K).card := Finset.card_pos.mpr ⟨k, by simp [missing, hk, hn]⟩
  obtain ⟨b, hb⟩ := Finset.card_pos.mp (hpos.trans_le h)
  exact ⟨b, mem_free.mp hb⟩

theorem missing_subset (hh : ∀ y b, t.held y = some b → t'.held y = some b) :
    t'.missing i K ⊆ t.missing i K := by
  intro k hk
  simp only [missing, Finset.mem_filter] at hk ⊢
  refine ⟨hk.1, Option.eq_none_iff_forall_not_mem.mpr fun b hb => ?_⟩
  rw [hh _ _ hb] at hk
  exact absurd hk.2 (by simp)

theorem Supply.mono (h : Supply i K t) (hh : ∀ y b, t.held y = some b → t'.held y = some b)
    (hsb : t'.sb = t.sb) (hu : ∀ c < t.sb.size, t'.used c → t.used c) : Supply i K t' := by
  refine (Finset.card_le_card (missing_subset hh)).trans (h.trans (Finset.card_le_card ?_))
  intro c hc
  rw [mem_free] at hc ⊢
  exact ⟨hsb ▸ hc.1, fun hc' => hc.2 (hu c hc.1 hc')⟩

theorem Supply.fill (h : Supply i K t) (hk : k ∈ K) (hn : t.held (i, k) = none)
    (hk' : t'.held (i, k) = some b) (hh : ∀ y b, t.held y = some b → t'.held y = some b)
    (hsb : t'.sb = t.sb) (hu : ∀ c < t.sb.size, t'.used c → t.used c ∨ c = b) : Supply i K t' := by
  have hmem : k ∈ t.missing i K := by simp [missing, hk, hn]
  have hsub : t'.missing i K ⊆ (t.missing i K).erase k := by
    intro j hj
    refine Finset.mem_erase.mpr ⟨fun e => ?_, missing_subset hh hj⟩
    rw [e, missing, Finset.mem_filter, hk'] at hj
    exact absurd hj.2 (by simp)
  have hfree : t.free.erase b ⊆ t'.free := by
    intro c hc
    rw [Finset.mem_erase, mem_free] at hc
    rw [mem_free, hsb]
    exact ⟨hc.2.1, fun hc' => (hu c hc.2.1 hc').elim hc.2.2 hc.1⟩
  have h1 := Finset.card_le_card hsub
  have h2 := Finset.card_le_card hfree
  rw [Finset.card_erase_of_mem hmem] at h1
  have h3 := Finset.pred_card_le_card_erase (s := t.free) (a := b)
  unfold Supply at h ⊢
  omega

end Store

namespace Fs

variable {α β : Type} {m : FsM α} {f : α → FsM β} {s : Fs} {P : Prop} {M : Set ℕ} {i k : ℕ}
  {K L : Finset ℕ} {p : Ptr} {g : List (ℕ × Store)} {bs cs : List ℕ} {t t' t₀ : Store} {a : α}

/-- The file system after a computation that left the store `t` and passed the blocks `bs`
to `log_write`. -/
def after (s : Fs) (t : Store) (g : List (ℕ × Store)) (bs : List ℕ) : Fs :=
  s.wrote t ⟨s.log.writes bs, g⟩ bs

@[simp] theorem after_toStore : (s.after t g bs).toStore = t := rfl

@[simp] theorem after_log : (s.after t g bs).log = s.log.writes bs := rfl

theorem after_nil : s.after t s.granted [] = { s with toStore := t } := wrote_self s t

theorem after_after {g' : List (ℕ × Store)} :
    (s.after t g bs).after t' g' cs = s.after t' g' (cs ++ bs) := by
  unfold after
  rw [wrote_wrote, Log.writes_append]
  rfl

inductive Fault (P : Prop) (log : Log) : Stop → Prop where
  | log {b : ℕ} {e : LogPanic} (h : log.logWrite b = .error e) : Fault P log (.panic (.log e))
  | full (h : ¬P) : Fault P log (.panic .ballocOutOfBlocks)

/-- Weakest precondition in terms of the store and the blocks logged, for a computation
that stops for the reasons of `Fault` only. -/
def lwp (P : Prop) (m : FsM α) (Q : α → Store → List ℕ → Prop) (E : Store → List ℕ → Prop)
    (s : Fs) : Prop :=
  Exec.wp m
    (fun a s' => ∃ t g bs, s' = s.after t g bs ∧ Hist.Ok s ⟨s.log.writes bs, g⟩ ∧
      (bs ≠ [] → (s.log.writes bs).lh.length ≤ s.log.cap) ∧ Q a t bs)
    (fun e s' => ∃ t g bs, s' = s.after t g bs ∧ Hist.Ok s ⟨s.log.writes bs, g⟩ ∧
      Fault P s'.log e ∧ E t bs) s

namespace lwp

variable {Q Q' : α → Store → List ℕ → Prop} {E E' : Store → List ℕ → Prop}

theorem mono (h : lwp P m Q E s) (hQ : ∀ a t bs, Q a t bs → Q' a t bs)
    (hE : ∀ t bs, E t bs → E' t bs) : lwp P m Q' E' s := by
  refine Exec.wp.mono h ?_ ?_
  · rintro a s' ⟨t, g, bs, rfl, hg, hcap, hq⟩
    exact ⟨t, g, bs, rfl, hg, hcap, hQ a t bs hq⟩
  · rintro e s' ⟨t, g, bs, rfl, hg, hf, he⟩
    exact ⟨t, g, bs, rfl, hg, hf, hE t bs he⟩

theorem bind {R : β → Store → List ℕ → Prop} (h : lwp P m Q E s)
    (hf : ∀ a t g bs, Q a t bs → lwp P (f a) (fun b t' cs => R b t' (cs ++ bs))
      (fun t' cs => E t' (cs ++ bs)) (s.after t g bs)) : lwp P (m >>= f) R E s := by
  refine Exec.wp.bind h ?_
  rintro a s' ⟨t, g, bs, rfl, hg, hcap, hq⟩
  refine Exec.wp.mono (hf a t g bs hq) ?_ ?_
  · rintro b s' ⟨t', g', cs, rfl, hg', hcap', hr⟩
    refine ⟨t', g', cs ++ bs, after_after, Hist.Ok.trans hg hg', fun hne => ?_, hr⟩
    rw [Log.writes_append]
    cases cs with
    | nil => exact hcap hne
    | cons c cs => exact hcap' (cons_ne_nil c cs)
  · rintro e s' ⟨t', g', cs, rfl, hg', hfault, he⟩
    exact ⟨t', g', cs ++ bs, after_after, Hist.Ok.trans hg hg', hfault, he⟩

theorem of_store (hm : m s = .ok a { s with toStore := t }) (h : Q a t []) : lwp P m Q E s := by
  unfold lwp Exec.wp
  rw [hm]
  exact ⟨t, s.granted, [], after_nil.symm, fun _ => .inl, fun hne => absurd rfl hne, h⟩

theorem pure (h : Q a s.toStore []) : lwp P (Pure.pure a) Q E s := of_store rfl h

theorem bstore {b : ℕ} {Q : Unit → Store → List ℕ → Prop}
    (h : Q () (s.toStore.setBlock b data) []) : lwp P (Fs.bstore b data) Q E s := of_store rfl h

theorem setInode {n : Inode} {Q : Unit → Store → List ℕ → Prop}
    (h : Q () (s.toStore.setInode p n) []) : lwp P (Fs.setInode p n) Q E s := of_store rfl h

theorem setAddr {b : ℕ} {Q : Unit → Store → List ℕ → Prop}
    (h : Q () (s.toStore.setAddr p k b) []) : lwp P (Fs.setAddr p k b) Q E s := of_store rfl h

theorem logWrite {b : ℕ} {Q : Unit → Store → List ℕ → Prop} (hQ : Q () s.toStore [b])
    (hE : E s.toStore []) : lwp P (Fs.logWrite b) Q E s := by
  unfold lwp Exec.wp Fs.logWrite
  cases h : s.log.logWrite b with
  | ok log =>
    obtain ⟨h1, h2, -, rfl⟩ := Log.logWrite_ok h
    refine ⟨s.toStore, s.granted, [b], ?_, fun _ => .inl, fun _ => ?_, hQ⟩
    · unfold after wrote
      cases s.brackets <;> rfl
    · have hlen := Log.length_writes_le s.log [b]
      simp only [toFinset_cons, toFinset_nil, insert_empty_eq, Finset.card_singleton] at hlen
      unfold Log.cap
      omega
  | error e => exact ⟨s.toStore, s.granted, [], after_nil.symm, fun _ => .inl, .log h, hE⟩

theorem bread_bind {b : ℕ} {f : Block → FsM α} :
    lwp P (bread b >>= f) Q E s ↔ lwp P (f (s.blocks b)) Q E s := Iff.rfl

end lwp

theorem lwp.exists_ok {Q : α → Store → List ℕ → Prop} {E : Store → List ℕ → Prop} (h : lwp P m Q E s)
    (hP : P) (hroom : ∀ t bs, E t bs → s.log.Room bs.toFinset.card) :
    ∃ a t g bs, m s = .ok a (s.after t g bs) ∧ Q a t bs := by
  have hno : Exec.wp m (fun a s' => ∃ t g bs, s' = s.after t g bs ∧ Q a t bs)
      (fun _ _ => False) s := by
    refine Exec.wp.mono h ?_ ?_
    · rintro a s' ⟨t, g, bs, rfl, -, -, hq⟩
      exact ⟨t, g, bs, rfl, hq⟩
    · rintro e s' ⟨t, g, bs, rfl, -, hfault, he⟩
      cases hfault with
      | log h => exact (hroom t bs he).logWrite _ h
      | full h => exact h hP
  obtain ⟨a, s', hm, t, g, bs, rfl, hq⟩ := hno.exists_ok
  exact ⟨a, t, g, bs, hm, hq⟩

/-! Blocks. -/

theorem ballocFrom_lwp (hw : s.toStore.Wf) (bl : List ℕ) (hbl : ∀ b ∈ bl, b = b / BPB * BPB)
    (hP : P → ∃ c < s.sb.size, ¬s.toStore.used c ∧ c / BPB * BPB ∈ bl) : lwp P (ballocFrom s.sb bl)
      (fun b t bs => b ∈ s.sb.dataBlocks ∧ ¬s.toStore.used b ∧ t = s.toStore.alloc b ∧
        bs = [b, BBLOCK b s.sb])
      (fun t bs => t.held = s.toStore.held ∧ ∀ b ∈ bs, b ∈ s.sb.mapBlocks) s := by
  induction bl with
  | nil =>
    refine ⟨s.toStore, s.granted, [], after_nil.symm, fun _ => .inl, .full fun h => ?_, rfl, by simp⟩
    obtain ⟨c, -, -, hc⟩ := hP h
    exact absurd hc not_mem_nil
  | cons b bl ih =>
    have hb := hbl b mem_cons_self
    rw [ballocFrom, lwp.bread_bind]
    generalize b / BPB = q at hb
    rw [hb] at hP ⊢
    cases hf : firstFree s.sb.size (q * BPB) (s.blocks (BBLOCK (q * BPB) s.sb)) with
    | none =>
      rw [Option.elim_none]
      apply ih fun c hc => hbl c (mem_cons_of_mem _ hc)
      intro h
      obtain ⟨c, hc, hu, hmem⟩ := hP h
      refine ⟨c, hc, hu, (mem_cons.mp hmem).resolve_left fun e => hu ?_⟩
      -- the block would have been found in this map block
      have hBPB : 0 < BPB := by decide
      have hq : c / BPB = q := eq_of_mul_eq_mul_right hBPB e
      have hdiv := div_add_mod c BPB
      have hmod : c % BPB < BPB := mod_lt _ hBPB
      have hcq : q * BPB + c % BPB = c := by
        rw [mul_comm, ← hq]
        exact hdiv
      have hnot := find?_eq_none.mp hf (c % BPB) (mem_range.mpr hmod)
      rw [hcq, (bblock_base s.sb q hmod).1, hcq] at hnot
      simp only [Bool.and_eq_true, decide_eq_true_eq, not_and, Bool.not_eq_true] at hnot
      exact hnot hc
    | some bi =>
      obtain ⟨hbi, hlt, hclear⟩ := firstFree_some hf
      obtain ⟨hdata, hfree, hmap, hmark⟩ := clear_bit hw hbi hlt hclear
      have hheld := (hw.same_mark hlt).held
      have hheld' := (hw.same_alloc hdata hfree).held
      rw [Option.elim_some, ballocAt]
      refine lwp.bind (Q := fun _ t bs => t = s.toStore.mark (q * BPB + bi) ∧ bs = [])
        (.bstore ⟨hmark, rfl⟩) ?_
      rintro _ t g bs ⟨rfl, rfl⟩
      refine lwp.bind (Q := fun _ t bs => t = s.toStore.mark (q * BPB + bi) ∧
        bs = [BBLOCK (q * BPB) s.sb]) (.logWrite ⟨rfl, rfl⟩ ⟨hheld, by simp⟩) ?_
      rintro _ t g bs ⟨rfl, rfl⟩
      refine lwp.bind (Q := fun _ t bs => t = s.toStore.alloc (q * BPB + bi) ∧
        bs = [q * BPB + bi]) ?_ ?_
      · refine lwp.bind (Q := fun _ t bs => t = s.toStore.alloc (q * BPB + bi) ∧ bs = [])
          (.bstore ⟨rfl, rfl⟩) ?_
        rintro _ t g bs ⟨rfl, rfl⟩
        exact .logWrite ⟨rfl, rfl⟩ ⟨hheld', by simpa using hmap⟩
      · rintro _ t g bs ⟨rfl, rfl⟩
        exact .pure ⟨hdata, hfree, rfl, by simp [bblock_base s.sb q hbi]⟩

theorem balloc_lwp (hw : s.toStore.Wf) (hP : P → ∃ c < s.sb.size, ¬s.toStore.used c) : lwp P balloc
      (fun b t bs => b ∈ s.sb.dataBlocks ∧ ¬s.toStore.used b ∧ t = s.toStore.alloc b ∧
        bs = [b, BBLOCK b s.sb])
      (fun t bs => t.held = s.toStore.held ∧ ∀ b ∈ bs, b ∈ s.sb.mapBlocks) s := by
  change lwp P (ballocFrom s.sb _ >>= _) _ _ s
  refine lwp.bind (ballocFrom_lwp hw _ (fun b hb => ?_) fun h => ?_) fun b t g bs hb => ?_
  · obtain ⟨q, -, rfl⟩ := mem_map.mp hb
    rw [Nat.mul_div_cancel q (by decide)]
  · obtain ⟨c, hc, hu⟩ := hP h
    refine ⟨c, hc, hu, mem_map.mpr ⟨c / BPB, mem_range.mpr ?_, rfl⟩⟩
    simp only [BPB, BSIZE]
    omega
  · refine ⟨t, (b, s.toStore) :: g, [], ?_, fun x hx => ?_, fun hne => absurd rfl hne, hb⟩
    · rw [after_after]
      rfl
    · rcases mem_cons.mp hx with rfl | hx
      · exact .inr ⟨hw.sound.not_reserved hb.2.1, hw.sound.not_held hb.2.1⟩
      · exact .inl hx

/-- The blocks `bs` logged on the way from `t₀` to `t` are in `M` or in the slots `K` of
inode `i`, and slots have kept their blocks. -/
structure Spent (M : Set ℕ) (i : ℕ) (K : Finset ℕ) (t₀ t : Store) (bs : List ℕ) : Prop where
  held : ∀ y b, t₀.held y = some b → t.held y = some b
  logged : ∀ b ∈ bs, b ∈ M ∨ ∃ k ∈ K, t.held (i, k) = some b

theorem Spent.trans (h : Spent M i K t₀ t bs) (h' : Spent M i K t t' cs) :
    Spent M i K t₀ t' (cs ++ bs) where
  held y b hy := h'.held y b (h.held y b hy)
  logged b hb := by
    rcases mem_append.mp hb with hb | hb
    · exact h'.logged b hb
    · exact (h.logged b hb).imp_right fun ⟨k, hk, hb⟩ => ⟨k, hk, h'.held _ _ hb⟩

theorem Spent.nil (hh : ∀ y b, t₀.held y = some b → t.held y = some b) :
    Spent M i K t₀ t [] := ⟨hh, by simp⟩

theorem Spent.card_le {N : Finset ℕ} (h : Spent N i K t₀ t bs) :
    bs.toFinset.card ≤ N.card + K.card := by
  have hsub : bs.toFinset ⊆ N ∪ K.image fun k => t.slot i k := by
    intro b hb
    rw [Finset.mem_union, Finset.mem_image]
    refine (h.logged b (mem_toFinset.mp hb)).imp_right fun ⟨k, hk, hb⟩ => ⟨k, hk, ?_⟩
    exact slot_of_held hb
  calc bs.toFinset.card ≤ (N ∪ K.image fun k => t.slot i k).card := Finset.card_le_card hsub
    _ ≤ N.card + (K.image fun k => t.slot i k).card := Finset.card_union_le _ _
    _ ≤ N.card + K.card := Nat.add_le_add_left Finset.card_image_le _

theorem Spent.spread (h : Spent M i K t₀ t bs) : Spread M K.card bs := by
  refine ⟨K.image fun k => t.slot i k, Finset.card_image_le, fun b hb => ?_⟩
  refine (h.logged b hb).imp_right fun ⟨k, hk, hb⟩ => Finset.mem_image.mpr ⟨k, hk, ?_⟩
  exact slot_of_held hb

/-- The computation ends with `R`; whether it ends or stops, what it has logged is `Spent`. -/
def Saves (P : Prop) (M : Set ℕ) (i : ℕ) (K : Finset ℕ) (m : FsM α)
    (R : α → Store → List ℕ → Prop) (s : Fs) : Prop :=
  lwp P m (fun a t bs => Spent M i K s.toStore t bs ∧ R a t bs) (Spent M i K s.toStore) s

theorem ops_note_bind {a : Access} {f : Unit → FsM β} : (ops.note a p >>= f) = f () := rfl

namespace Saves

variable {R R' : α → Store → List ℕ → Prop}

theorem mono (h : Saves P M i K m R s) (hR : ∀ a t bs, R a t bs → R' a t bs) :
    Saves P M i K m R' s :=
  lwp.mono h (fun a t bs hr => ⟨hr.1, hR a t bs hr.2⟩) fun _ _ he => he

theorem bind {S : β → Store → List ℕ → Prop} (h : Saves P M i K m R s) (hf : ∀ a t g bs, R a t bs →
      Saves P M i K (f a) (fun b t' cs => S b t' (cs ++ bs)) (s.after t g bs)) :
    Saves P M i K (m >>= f) S s := by
  refine lwp.bind h fun a t g bs hr => ?_
  exact lwp.mono (hf a t g bs hr.2) (fun b t' cs hs => ⟨hr.1.trans hs.1, hs.2⟩)
    fun t' cs he => hr.1.trans he

theorem does {n : ℕ} (h : Saves P M i K m R s) (hn : K.card ≤ n) :
    Does M n m (fun a t => ∃ bs, R a t bs) s := by
  refine Exec.wp.mono h ?_ ?_
  · rintro a s' ⟨t, g, bs, rfl, hg, -, hspent, hr⟩
    exact ⟨t, _, bs, rfl, hg, hspent.spread.mono subset_rfl hn, bs, hr⟩
  · rintro e s' ⟨t, g, bs, rfl, hg, hfault, hspent⟩
    refine ⟨t, _, bs, rfl, hg, hspent.spread.mono subset_rfl hn, ?_⟩
    cases hfault <;> simp

theorem pure (h : R a s.toStore []) : Saves P M i K (Pure.pure a) R s :=
  lwp.pure ⟨.nil fun _ _ hy => hy, h⟩

theorem bstore {b : ℕ}
    (h : ∀ y c, s.toStore.held y = some c → (s.toStore.setBlock b data).held y = some c) :
    Saves P M i K (Fs.bstore b data) (fun _ t bs => t = s.toStore.setBlock b data ∧ bs = []) s :=
  lwp.bstore ⟨.nil h, rfl, rfl⟩

theorem logWrite {b : ℕ} (h : b ∈ M ∨ ∃ k ∈ K, s.toStore.held (i, k) = some b) :
    Saves P M i K (Fs.logWrite b) (fun _ t bs => t = s.toStore ∧ bs = [b]) s :=
  lwp.logWrite ⟨⟨fun _ _ hy => hy, by simpa using h⟩, rfl, rfl⟩ (.nil fun _ _ hy => hy)

theorem bread_bind {b : ℕ} {f : Block → FsM α} :
    Saves P M i K (bread b >>= f) R s ↔ Saves P M i K (f (s.blocks b)) R s := Iff.rfl

theorem inode_bind {f : Inode → FsM α} :
    Saves P M i K (inode p >>= f) R s ↔ Saves P M i K (f (s.icache p)) R s := Iff.rfl

theorem ops_inode_bind {f : Inode → FsM α} :
    Saves P M i K (ops.inode p >>= f) R s ↔ Saves P M i K (f (s.icache p)) R s := Iff.rfl

theorem get_bind {f : Fs → FsM α} :
    Saves P M i K (Exec.get >>= f) R s ↔ Saves P M i K (f s) R s := Iff.rfl

theorem setInode {n : Inode}
    (h : ∀ y c, s.toStore.held y = some c → (s.toStore.setInode p n).held y = some c) :
    Saves P M i K (ops.setInode p n) (fun _ t bs => t = s.toStore.setInode p n ∧ bs = []) s :=
  lwp.setInode ⟨.nil h, rfl, rfl⟩

theorem iupdate (ht : s.toStore = t) (hI : IBLOCK (t.icache p).inum t.sb ∈ M)
    (h : (t.setDinode (t.icache p).inum (t.icache p).d).held = t.held) :
    Saves P M i K (ops.iupdate p)
      (fun _ t' _ => t' = t.setDinode (t.icache p).inum (t.icache p).d) s := by
  subst ht
  rw [FsOps.iupdate, ops_note_bind, ops_inode_bind]
  change Saves P M i K (setDinode _ _) _ s
  rw [setDinode, get_bind, bread_bind]
  refine (bstore fun y c hy => (congrFun h y).trans hy).bind fun _ t g bs ht => ?_
  exact (logWrite (.inl hI)).mono fun _ t' _ ht' => ht'.1.trans ht.1

end Saves

/-- Slot `k` of the inode at `p` has been looked up, or filled with a free block: it holds
`a` now. -/
structure Mapped (P : Prop) (p : Ptr) (L : Finset ℕ) (t₀ t : Store) (k a : ℕ) : Prop where
  wf : t.Wf
  grow : Grow p t₀ t
  edits : Edits ∅ t₀ t
  held : t.held ((t₀.icache p).inum, k) = some a
  supply : P → Supply (t₀.icache p).inum L t

variable (hw : s.toStore.Wf) (hp : (s.icache p).Live)

include hw hp in
theorem slot_live (hk : k ≤ NDIRECT) :
    s.toStore.slot (s.icache p).inum k = (s.icache p).d.addr k := by
  unfold slot
  rw [hw.unique.view_live hp, slotOf_le hk]

theorem used_alloc_iff (hw : t.Wf) {b c : ℕ} (hb : b ∈ t.sb.dataBlocks) (hc : c < t.sb.size) :
    (t.alloc b).used c ↔ t.used c ∨ c = b :=
  ((hw.mark hb.2).used_setData hb hc).trans used_mark

include hw hp in
theorem bmapAddr_saves (hk : k ≤ NDIRECT) (hkK : k ∈ K) (hKL : K ⊆ L) (hM : s.sb.mapBlocks ⊆ M)
    (hP : P → Supply (s.icache p).inum L s.toStore) : Saves P M (s.icache p).inum K (bmapAddr p k)
      (fun a t _ => Mapped P p L s.toStore t k a) s := by
  have hslot := slot_live hw hp hk
  rw [bmapAddr, Saves.inode_bind]
  split_ifs with hz
  · have hnone : s.toStore.held ((s.icache p).inum, k) = none := by
      refine Option.eq_none_iff_forall_not_mem.mpr fun b hb => ?_
      obtain ⟨-, -, hb, hb0⟩ := held_iff.mp hb
      exact hb0 (by rw [← hb, hslot, hz])
    refine lwp.bind (lwp.mono (balloc_lwp hw fun h => (hP h).exists_free (hKL hkK) hnone)
      (fun _ _ _ h => h) fun t bs h => ⟨fun y b hy => by rwa [h.1], fun b hb => .inl (hM (h.2 b hb))⟩)
      fun b t g bs ht => ?_
    obtain ⟨hb, hu, rfl, rfl⟩ := ht
    have hw' := hw.alloc hb hu
    have hsame := hw.same_alloc hb hu
    obtain ⟨hgrow, hheld⟩ := hw'.grow_attach (p := p) hp hk hz hb
    have hmono := (hsame.grow.trans hgrow).held
    refine lwp.bind (Q := fun _ t bs => t = (s.toStore.alloc b).setAddr p k b ∧ bs = [])
      (.setAddr ⟨rfl, rfl⟩) fun _ t g bs ht => ?_
    obtain ⟨rfl, rfl⟩ := ht
    refine .pure ⟨⟨hmono, ?_⟩, ?_⟩
    · intro c hc
      rcases mem_cons.mp hc with rfl | hc
      · exact .inr ⟨k, hkK, hheld⟩
      · rw [mem_singleton.mp hc]
        exact .inl (hM (hw.geometry.bblock_mem hb.2))
    · refine ⟨hw'.attach hp hk hz hb ?_ (hw.used_alloc hb) fun _ => alloc_blocks,
        hsame.grow.trans hgrow, ?_, hheld, fun h => ?_⟩
      · rw [hsame.held]
        exact hw.sound.not_held hu
      · exact (hw.edits_alloc hb hu).trans (.of_blocks hgrow.held fun _ _ _ _ => rfl)
      · exact (hP h).fill (hKL hkK) hnone hheld hmono rfl fun c hc hc' =>
          (used_alloc_iff hw hb hc).mp hc'
  · have hheld := held_iff.mpr ⟨(hw.loaded p hp).1, hk.trans (by decide), hslot, hz⟩
    refine Saves.pure ?_
    exact ⟨hw, .refl, .refl, hheld, hP⟩

def Slots (K : Finset ℕ) (off len : ℕ) : Prop :=
  ∀ bn, off / BSIZE ≤ bn → bn * BSIZE < off + len → 0 < len →
    slotIdx bn ∈ K ∧ (NDIRECT ≤ bn → NDIRECT ∈ K)

include hw hp in
theorem bmap_saves {bn : ℕ} (hbn : bn < MAXFILE)
    (hK : slotIdx bn ∈ K) (hK' : NDIRECT ≤ bn → NDIRECT ∈ K) (hKL : K ⊆ L) (hM : s.sb.mapBlocks ⊆ M)
    (hP : P → Supply (s.icache p).inum L s.toStore) : Saves P M (s.icache p).inum K (bmap p bn)
      (fun a t _ => Mapped P p L s.toStore t (slotIdx bn) a) s := by
  unfold bmap
  by_cases hd : bn < NDIRECT
  · rw [if_pos hd, slotIdx, if_pos hd]
    rw [slotIdx, if_pos hd] at hK
    exact bmapAddr_saves hw hp hd.le hK hKL hM hP
  have hi : bn - NDIRECT < NINDIRECT := by
    simp only [MAXFILE] at hbn
    omega
  have hidx : slotIdx bn = NDIRECT + 1 + (bn - NDIRECT) := by
    rw [slotIdx, if_neg hd]
    omega
  rw [if_neg hd, if_pos hi]
  refine (bmapAddr_saves hw hp le_rfl (hK' (by omega)) hKL hM hP).bind fun ind t g bs hind => ?_
  have hia := held_iff.mp hind.held
  have hview : (t.view (s.icache p).inum).addr NDIRECT = ind :=
    hia.2.2.1 ▸ (slotOf_le le_rfl).symm
  have hslot : t.slot (s.icache p).inum (slotIdx bn) =
      (t.blocks ind).word 4 (4 * (bn - NDIRECT)) := by
    unfold slot
    rw [hidx, slotOf_gt (by omega), hview, if_neg hia.2.2.2,
      show NDIRECT + 1 + (bn - NDIRECT) - NDIRECT - 1 = bn - NDIRECT by omega]
  rw [Saves.bread_bind]
  change Saves P M _ K (if (t.blocks ind).word 4 (4 * (bn - NDIRECT)) = 0 then _ else _) _ _
  split_ifs with hz
  · have hnone : t.held ((s.icache p).inum, slotIdx bn) = none := by
      refine Option.eq_none_iff_forall_not_mem.mpr fun b hb => ?_
      obtain ⟨-, -, hb, hb0⟩ := held_iff.mp hb
      exact hb0 (by rw [← hb, hslot, hz])
    have hmap : t.sb.mapBlocks ⊆ M := by rwa [hind.grow.sb]
    refine lwp.bind (lwp.mono (balloc_lwp (s := s.after t g bs) hind.wf
      fun h => (hind.supply h).exists_free (hKL hK) hnone) (fun _ _ _ h => h)
      fun t' cs h => ⟨fun y b hy => by rwa [h.1], fun b hb => .inl (hmap (h.2 b hb))⟩)
      fun b t' g' cs ht' => ?_
    obtain ⟨hb, hu, rfl, rfl⟩ := ht'
    change b ∈ t.sb.dataBlocks at hb
    change ¬t.used b at hu
    have hsame := hind.wf.same_alloc hb hu
    have hw' := hind.wf.alloc hb hu
    have hblk : (t.alloc b).blocks ind = t.blocks ind := by
      have := hsame.indirect _ hia.1 (hview ▸ hia.2.2.2)
      rwa [hview] at this
    have hind' : (t.alloc b).held ((s.icache p).inum, NDIRECT) = some ind := by
      rw [hsame.held]
      exact hind.held
    have hfree : ∀ y, (t.alloc b).held y ≠ some b := by
      rw [hsame.held]
      exact hind.wf.sound.not_held hu
    obtain ⟨hgrow, hheld⟩ := hw'.grow_attachIndirect (p := p) hind' hi (hblk ▸ hz) hb
    have hatt := hw'.attachIndirect hind' hi hb hfree (hind.wf.used_alloc hb)
    rw [← hidx] at hheld
    have hmono := (hsame.grow.trans hgrow).held
    -- what is logged once the block is in the indirect block
    have hspent : Spent M (s.icache p).inum K t ((t.alloc b).setBlock ind
        (((t.alloc b).blocks ind).setWord 4 (4 * (bn - NDIRECT)) b)) [b, BBLOCK b t.sb] := by
      refine ⟨hmono, fun c hc => ?_⟩
      rcases mem_cons.mp hc with rfl | hc
      · exact .inr ⟨_, hK, hheld⟩
      · rw [mem_singleton.mp hc]
        exact .inl (hmap (hind.wf.geometry.bblock_mem hb.2))
    rw [lwp.bread_bind]
    refine lwp.bind (Q := fun _ t1 bs => t1 = (t.alloc b).setBlock ind
      (((t.alloc b).blocks ind).setWord 4 (4 * (bn - NDIRECT)) b) ∧ bs = [])
      (.bstore ⟨rfl, rfl⟩) fun _ t1 g1 bs1 h₁ => ?_
    obtain ⟨rfl, rfl⟩ := h₁
    refine lwp.bind (Q := fun _ t1 bs => t1 = (t.alloc b).setBlock ind
      (((t.alloc b).blocks ind).setWord 4 (4 * (bn - NDIRECT)) b) ∧ bs = [ind])
      (.logWrite ⟨rfl, rfl⟩ hspent) fun _ t1 g1 bs1 h₁ => ?_
    obtain ⟨rfl, rfl⟩ := h₁
    refine .pure ⟨hspent.trans ⟨fun _ _ hy => hy, fun c hc => ?_⟩, hatt, ?_, ?_, hheld, fun h => ?_⟩
    · have hc : c = ind := by simpa using hc
      rw [hc]
      exact .inr ⟨_, hK' (by omega), hgrow.held _ _ hind'⟩
    · exact (hind.grow.trans hsame.grow).trans hgrow
    · exact (hind.edits.trans (hind.wf.edits_alloc hb hu)).trans (hw'.edits_indirect hind' hgrow.held)
    · refine (hind.supply h).fill (hKL hK) hnone hheld hmono rfl fun c hc hc' => ?_
      have hused := (hw'.used_setData (hw'.sound.data _ _ hind') hc).mp hc'
      exact (used_alloc_iff hind.wf hb hc).mp hused
  · refine Saves.pure ?_
    refine ⟨hind.wf, hind.grow, hind.edits, held_iff.mpr ⟨hia.1, ?_, hslot, hz⟩, hind.supply⟩
    rw [hidx]
    simp only [NINDIRECT, NDIRECT, MAXFILE, BSIZE] at *
    omega

include hw hp in
theorem bmap_spec (bn : ℕ) : Does Set.univ 0 (bmap p bn) (fun a t => t.Wf ∧ Grow p s.toStore t ∧
      t.held ((s.icache p).inum, slotIdx bn) = some a) s := by
  by_cases hbn : bn < MAXFILE
  · have hsave := bmap_saves (P := False) (K := {slotIdx bn, NDIRECT}) hw hp hbn (by simp)
      (by simp) subset_rfl (Set.subset_univ _) nofun
    refine (hsave.does le_rfl).univ.weaken fun a t ⟨_, h⟩ => ?_
    exact ⟨h.wf, h.grow, h.held⟩
  · unfold bmap
    rw [if_neg (by simp only [MAXFILE] at hbn; omega), if_neg (by simp only [MAXFILE] at hbn; omega)]
    exact .panic (by decide)

theorem readFrom_spec (off len : ℕ) (hw : s.toStore.Wf) (hp : (s.icache p).Live)
    (hg : Grow p t₀ s.toStore) :
    Does Set.univ 0 (readFrom p off len) (fun _ t => t.Wf ∧ Grow p t₀ t) s := by
  induction len using Nat.strong_induction_on generalizing s off with
  | _ len ih =>
    unfold readFrom
    split_ifs with hn
    · exact .pure ⟨hw, hg⟩
    · refine (bmap_spec hw hp _).seq fun b t _ _ ht => ?_
      obtain ⟨hw', hg', -⟩ := ht
      rw [does_bread_bind]
      have hlt : off % BSIZE < BSIZE := mod_lt _ (by decide)
      refine (ih _ (by omega) _ hw' ((hg'.live p).mpr hp) (hg.trans hg')).seq
        fun _ t' _ _ ht' => .pure ht'

def span (i off n : ℕ) : Set (ℕ × ℕ) := {y | y.1 = i ∧ off ≤ y.2 ∧ y.2 < off + n}

structure Filled (P : Prop) (p : Ptr) (L : Finset ℕ) (t₀ t : Store) (off : ℕ) (src : List UInt8)
    (bs : List ℕ) : Prop where
  wf : t.Wf
  grow : Grow p t₀ t
  edits : Edits (span (t₀.icache p).inum off src.length) t₀ t
  bytes : ∀ j < src.length, src[j]? = some (t.byteAt (t₀.icache p).inum (off + j))
  blocks : ∀ bn, off / BSIZE ≤ bn → bn * BSIZE < off + src.length → 0 < src.length →
    ∃ b ∈ bs, t.held ((t₀.icache p).inum, slotIdx bn) = some b
  supply : P → Supply (t₀.icache p).inum L t

theorem Filled.nil (hw : t.Wf) (hP : P → Supply (t.icache p).inum L t) :
    Filled P p L t t off [] bs :=
  ⟨hw, .refl, .refl, by simp, fun _ _ _ h => absurd h (lt_irrefl 0), hP⟩

theorem Filled.cons {off m b : ℕ} {t1 t2 : Store} (hsrc : src ≠ [])
    (hm : m = min src.length (BSIZE - off % BSIZE))
    (h₁ : Mapped P p L t t1 (slotIdx (off / BSIZE)) b)
    (ht2 : t2 = t1.setBlock b ((t1.blocks b).patch (off % BSIZE) (src.take m)))
    (h₂ : Filled P p L t2 t' (off + m) (src.drop m) cs) (hb : b ∈ bs) :
    Filled P p L t t' off src (cs ++ bs) := by
  have hlt : off % BSIZE < BSIZE := mod_lt _ (by decide)
  have hlen : 0 < src.length := length_pos_of_ne_nil hsrc
  have hdrop : (src.drop m).length = src.length - m := length_drop
  have hno : ∀ i, t1.held (i, NDIRECT) ≠ some b := fun i hi =>
    slotIdx_ne _ (Prod.mk.inj (h₁.wf.sound.unique _ _ _ h₁.held hi)).2
  have hsame : SameInodes t1 t2 :=
    ht2 ▸ h₁.wf.same_setData (h₁.wf.sound.data _ _ h₁.held) hno
  have hinum : (t2.icache p).inum = (t.icache p).inum := by
    rw [hsame.icache, h₁.grow.inum p]
  obtain ⟨hw', hgrow, hedits, hbytes, hblocks, hsupply⟩ := h₂
  rw [hinum, hdrop] at hedits
  rw [hinum] at hsupply
  simp only [hinum, hdrop] at hbytes hblocks
  have hheld2 : t2.held ((t.icache p).inum, slotIdx (off / BSIZE)) = some b := by
    rw [hsame.held]
    exact h₁.held
  have hedits2 : Edits (span (t.icache p).inum off src.length) t1 t2 := by
    subst ht2
    refine h₁.wf.edits_setData h₁.held fun j hj => ?_
    rw [length_take] at hj
    have := div_add_mod off BSIZE
    rw [mul_comm] at this
    exact ⟨rfl, by omega, by omega⟩
  refine ⟨hw', (h₁.grow.trans hsame.grow).trans hgrow, ?_, fun j hj => ?_, fun bn h1 h2 _ => ?_,
    hsupply⟩
  · refine ((h₁.edits.mono (Set.empty_subset _)).trans hedits2).trans (hedits.mono ?_)
    rintro ⟨i, k⟩ ⟨hi, h1, h2⟩
    exact ⟨hi, by omega, by omega⟩
  · by_cases hjm : j < m
    · -- a byte of the first round, which the others leave alone
      have hdiv : (off + j) / BSIZE = off / BSIZE := by
        simp only [BSIZE] at *
        omega
      have hmod : (off + j) % BSIZE = off % BSIZE + j := by
        simp only [BSIZE] at *
        omega
      have hheld := hdiv.symm ▸ hheld2
      rw [hedits.byte _ _ _ hheld fun hin => absurd hin.2.1 (by omega),
        byteAt_of_held hheld, ht2, setBlock_self, hmod,
        Buffer.get_patch _ _ _ (by omega), if_pos (by omega), Nat.add_sub_cancel_left,
        getElem?_take_of_lt hjm, getElem?_eq_getElem hj]
      rfl
    · have := hbytes (j - m) (by omega)
      rwa [getElem?_drop, show m + (j - m) = j by omega,
        show off + m + (j - m) = off + j by omega] at this
  · by_cases hbn : bn = off / BSIZE
    · exact ⟨b, mem_append_right cs hb, hgrow.held _ _ (hbn ▸ hheld2)⟩
    · have hmore : (off + m) / BSIZE ≤ bn ∧ bn * BSIZE < off + m + (src.length - m) ∧
          0 < src.length - m := by
        simp only [BSIZE] at *
        omega
      obtain ⟨c, hc, hheld⟩ := hblocks bn hmore.1 hmore.2.1 hmore.2.2
      exact ⟨c, mem_append_left bs hc, hheld⟩

theorem lt_rounds_iff {off bn len : ℕ} (hlen : len ≠ 0) :
    bn < off / BSIZE + rounds off len ↔ bn * BSIZE < off + len := by
  unfold rounds
  rw [if_neg hlen]
  simp only [BSIZE]
  omega

def slotsFor (off len : ℕ) : Finset ℕ :=
  (((Finset.Ico (off / BSIZE) (off / BSIZE + rounds off len)).image slotIdx) ∪
    if NDIRECT * BSIZE < off + len then {NDIRECT} else ∅).filter (· ≤ MAXFILE)

theorem slotIdx_le {bn : ℕ} (h : bn < MAXFILE) : slotIdx bn ≤ MAXFILE := by
  unfold slotIdx
  split_ifs <;> omega

theorem slots_slotsFor {off len : ℕ} (hmax : off + len ≤ MAXFILE * BSIZE) :
    Slots (slotsFor off len) off len := by
  intro bn h1 h2 h3
  have hmem := (lt_rounds_iff h3.ne').mpr h2
  have hbn : bn < MAXFILE := Nat.lt_of_mul_lt_mul_right (h2.trans_le hmax)
  refine ⟨Finset.mem_filter.mpr ⟨Finset.mem_union_left _ ?_, slotIdx_le hbn⟩, fun hd =>
    Finset.mem_filter.mpr ⟨Finset.mem_union_right _ ?_, by decide⟩⟩
  · exact Finset.mem_image_of_mem _ (Finset.mem_Ico.mpr ⟨h1, hmem⟩)
  · have : NDIRECT * BSIZE ≤ bn * BSIZE := mul_le_mul_right _ hd
    rw [if_pos (by omega)]
    exact Finset.mem_singleton_self _

theorem card_slotsFor (off len : ℕ) : (slotsFor off len).card ≤ rounds off len + 1 := by
  refine (Finset.card_filter_le _ _).trans ((Finset.card_union_le _ _).trans (Nat.add_le_add ?_ ?_))
  · refine Finset.card_image_le.trans ?_
    rw [Nat.card_Ico, Nat.add_sub_cancel_left]
  · split_ifs <;> simp

theorem Slots.step {off len m : ℕ} (h : Slots K off len) (hm : m ≤ len) :
    Slots K (off + m) (len - m) :=
  fun bn h1 h2 h3 => h bn ((Nat.div_le_div_right (Nat.le_add_right off m)).trans h1) (by omega)
    (by omega)

theorem writeFrom_saves (off : ℕ) (src : List UInt8) (hw : s.toStore.Wf) (hp : (s.icache p).Live)
    (hi : (s.icache p).inum = i) (hmax : off + src.length ≤ MAXFILE * BSIZE)
    (hK : Slots K off src.length) (hKL : K ⊆ L) (hM : s.sb.mapBlocks ⊆ M)
    (hP : P → Supply i L s.toStore) :
    Saves P M i K (writeFrom p off src) (fun off' t bs => off' = off + src.length ∧
      Filled P p L s.toStore t off src bs) s := by
  induction hlen : src.length using Nat.strong_induction_on generalizing s off src with
  | _ len ih =>
    subst hlen hi
    unfold writeFrom
    split_ifs with hn
    · refine Saves.pure ⟨by rw [hn]; rfl, ?_⟩
      rw [eq_nil_of_length_eq_zero hn]
      exact .nil hw hP
    have hlt : off % BSIZE < BSIZE := mod_lt _ (by decide)
    have hdm := div_add_mod off BSIZE
    obtain ⟨hk, hk'⟩ := hK (off / BSIZE) le_rfl (by rw [mul_comm]; omega) (by omega)
    have hbn : off / BSIZE < MAXFILE := by
      have : off < MAXFILE * BSIZE := by omega
      exact (div_lt_iff_lt_mul (by decide)).mpr this
    refine (bmap_saves hw hp hbn hk hk' hKL hM hP).bind fun b t g bs hb => ?_
    rw [Saves.bread_bind]
    set m := min src.length (BSIZE - off % BSIZE) with hm
    have hno : ∀ i, t.held (i, NDIRECT) ≠ some b := fun i hi =>
      slotIdx_ne _ (Prod.mk.inj (hb.wf.sound.unique _ _ _ hb.held hi)).2
    have hdata := hb.wf.sound.data _ _ hb.held
    have hsame : SameInodes t
        (t.setBlock b ((t.blocks b).patch (off % BSIZE) (src.take m))) :=
      hb.wf.same_setData hdata hno
    refine Saves.bind (Saves.bstore (s := s.after t g bs) fun y c hy => by
      rw [← hy]; exact congrFun hsame.held y) fun _ t2 g2 bs2 h₂ => ?_
    obtain ⟨rfl, rfl⟩ := h₂
    refine Saves.bind (Saves.logWrite (.inr ⟨_, hk, ?_⟩)) fun _ t3 g3 bs3 h₃ => ?_
    · exact (congrFun hsame.held _).trans hb.held
    obtain ⟨rfl, rfl⟩ := h₃
    have hinum : (t.icache p).inum = (s.icache p).inum := hb.grow.inum p
    have hsupply : P → Supply (s.icache p).inum L
        (t.setBlock b ((t.blocks b).patch (off % BSIZE) (src.take m))) := fun h =>
      (hb.supply h).mono (hsame.grow (p := p)).held rfl fun c hc hu =>
        (hb.wf.used_setData hdata hc).mp hu
    refine Saves.mono (ih (src.length - m) (by omega) (off + m) (src.drop m) ?_ ?_ hinum ?_ ?_ ?_
      hsupply (by simp)) fun off' t' cs h => ?_
    · exact hb.wf.setData hdata hno
    · exact (hb.grow.live p).mpr hp
    · rw [length_drop]
      omega
    · rw [length_drop]
      exact hK.step (by omega)
    · exact (congrArg Superblock.mapBlocks hb.grow.sb).trans_subset hM
    · obtain ⟨rfl, h⟩ := h
      have hfill : Filled P p L s.toStore t' off src (cs ++ b :: bs) :=
        .cons (fun e => hn (by rw [e]; rfl)) hm hb rfl h mem_cons_self
      exact ⟨by omega, by simpa using hfill⟩

def resized (t : Store) (p : Ptr) (z : BitVec 32) : Store :=
  (t.setInode p { t.icache p with d := { (t.icache p).d with size := z } }).setDinode
    (t.icache p).inum { (t.icache p).d with size := z }

theorem resized_spec (hw : t.Wf) (hp : (t.icache p).Live) (z : BitVec 32) :
    (resized t p z).Wf ∧ (resized t p z).held = t.held ∧ Edits ∅ t (resized t p z) ∧
      (∀ b, (resized t p z).used b ↔ t.used b) ∧
      (t.setInode p { t.icache p with d := { (t.icache p).d with size := z } }).held = t.held := by
  set n : Inode := { t.icache p with d := { (t.icache p).d with size := z } } with hn
  have hq := hw.quiet_fields (n := n) hp.1 hp.1 rfl rfl rfl fun _ => (hw.loaded p hp).2
  have hw1 := hw.quiet hq
  have hheld := hq.held hw.unique
  have hself : (t.setInode p n).icache p = n := setInode_self
  have hp1 : ((t.setInode p n).icache p).Live := by rwa [hself]
  have hw2 := hw1.iupdate hp1
  have hup := hw1.held_iupdate hp1
  have hlt := (hw1.loaded p hp1).1.1
  rw [hself] at hw2 hup hlt
  rw [Set.empty_sdiff] at hw2
  refine ⟨hw2, hup.trans hheld, ?_, fun b => hw1.used_setDinode hlt, hheld⟩
  have hedits : Edits ∅ t (t.setInode p n) :=
    .of_blocks (fun y c hy => (congrFun hheld y).trans hy) fun _ _ _ _ => rfl
  exact hedits.trans (hw1.edits_setDinode hlt hup)

def Full (t : Store) (p : Ptr) : Prop :=
  ∀ bn, bn * BSIZE < (t.icache p).d.size.toNat →
    ∃ b, t.held ((t.icache p).inum, slotIdx bn) = some b

structure Written (P : Prop) (p : Ptr) (L : Finset ℕ) (t₀ t : Store) (off : ℕ)
    (src : List UInt8) : Prop where
  wf : t.Wf
  sb : t.sb = t₀.sb
  others : ∀ q, q ≠ p → t.icache q = t₀.icache q
  self : ∃ addrs, t.icache p = { t₀.icache p with d := { (t₀.icache p).d with
    addrs := addrs
    size := .ofNat 32 (max (t₀.icache p).d.size.toNat (off + src.length)) } }
  dinode : ∀ i < t₀.sb.ninodes, i ≠ (t₀.icache p).inum → t.dinode i = t₀.dinode i
  saved : t.dinode (t₀.icache p).inum = t₀.dinode (t₀.icache p).inum ∨
    t.dinode (t₀.icache p).inum = (t.icache p).d
  edits : Edits (span (t₀.icache p).inum off src.length) t₀ t
  bytes : ∀ j < src.length, src[j]? = some (t.byteAt (t₀.icache p).inum (off + j))
  full : Full t₀ p → ∀ bn, bn * BSIZE < max (t₀.icache p).d.size.toNat (off + src.length) →
    ∃ b, t.held ((t₀.icache p).inum, slotIdx bn) = some b
  supply : P → Supply (t₀.icache p).inum L t

section

variable (h : Filled P p L t₀ t off src bs)
include h

theorem Filled.full (hsize : off ≤ (t₀.icache p).d.size.toNat) (hfull : Full t₀ p) (bn : ℕ)
    (hbn : bn * BSIZE < max (t₀.icache p).d.size.toNat (off + src.length)) :
    ∃ b, t.held ((t₀.icache p).inum, slotIdx bn) = some b := by
  by_cases hold : bn * BSIZE < (t₀.icache p).d.size.toNat
  · obtain ⟨b, hb⟩ := hfull bn hold
    exact ⟨b, h.grow.held _ _ hb⟩
  · have hin : off / BSIZE ≤ bn ∧ bn * BSIZE < off + src.length ∧ 0 < src.length := by
      simp only [BSIZE] at *
      omega
    obtain ⟨b, -, hb⟩ := h.blocks bn hin.1 hin.2.1 hin.2.2
    exact ⟨b, hb⟩

theorem Filled.written
    (hlt : (t₀.icache p).inum < t₀.sb.ninodes) (hoff : off ≤ (t₀.icache p).d.size.toNat)
    (hno : ¬(0 < src.length ∧ off + src.length > (t.icache p).d.size.toNat)) :
    Written P p L t₀ t off src := by
  obtain ⟨addrs, hself⟩ := h.grow.self
  have hsize : (t.icache p).d.size = (t₀.icache p).d.size := by rw [hself]
  have hmax : max (t₀.icache p).d.size.toNat (off + src.length) = (t₀.icache p).d.size.toNat := by
    rw [hsize] at hno
    omega
  refine ⟨h.wf, h.grow.sb, h.grow.others, ⟨addrs, ?_⟩, fun i hi _ => h.grow.dinode i hi,
    .inl (h.grow.dinode _ hlt), h.edits, h.bytes, h.full hoff, h.supply⟩
  rw [hmax, BitVec.ofNat_toNat, BitVec.setWidth_eq]
  exact hself

theorem Filled.written_resized (hp : (t₀.icache p).Live) (hoff : off ≤ (t₀.icache p).d.size.toNat)
    (hmore : off + src.length > (t.icache p).d.size.toNat) :
    Written P p L t₀ (resized t p (.ofNat 32 (off + src.length))) off src := by
  obtain ⟨addrs, hself⟩ := h.grow.self
  have hsize : (t.icache p).d.size = (t₀.icache p).d.size := by rw [hself]
  have hinum : (t.icache p).inum = (t₀.icache p).inum := by rw [hself]
  have hmax : max (t₀.icache p).d.size.toNat (off + src.length) = off + src.length := by
    rw [← hsize]
    omega
  obtain ⟨hw, hheld, hedits, hused, -⟩ :=
    resized_spec h.wf ((h.grow.live p).mpr hp) (.ofNat 32 (off + src.length))
  refine ⟨hw, h.grow.sb, fun q hq => ?_, ⟨addrs, ?_⟩, fun i hi hne => ?_, .inr ?_,
    h.edits.trans (hedits.mono (Set.empty_subset _)), fun j hj => ?_, fun hfull bn hbn => ?_,
    fun hP => ?_⟩
  · exact (setInode_ne hq).trans (h.grow.others q hq)
  · rw [hmax]
    refine setInode_self.trans ?_
    rw [hself]
  · unfold resized
    rw [setDinode_dinode, if_neg (hinum ▸ hne)]
    exact h.grow.dinode i hi
  · unfold resized
    rw [setDinode_dinode, if_pos hinum.symm, setDinode_icache, setInode_self]
  · obtain ⟨b, -, hb⟩ := h.blocks ((off + j) / BSIZE) (Nat.div_le_div_right (Nat.le_add_right _ _))
      ((Nat.div_mul_le_self _ _).trans_lt (by omega)) (by omega)
    rw [h.bytes j hj, hedits.byte _ _ _ hb (Set.notMem_empty _)]
  · rw [hheld]
    exact h.full hoff hfull bn hbn
  · exact (h.supply hP).mono hedits.held rfl fun c _ hc => (hused c).mp hc

end

/-- The blocks `writei` logs for inode `i` besides those of its slots: the free map and the
block of the inode itself. -/
def metaOf (sb : Superblock) (i : ℕ) : Finset ℕ :=
  insert (IBLOCK i sb) (Finset.Ico sb.bmapstart sb.datastart)

theorem card_metaOf (sb : Superblock) (i : ℕ) : (metaOf sb i).card ≤ sb.size / BPB + 2 := by
  refine (Finset.card_insert_le _ _).trans ?_
  rw [Nat.card_Ico, Superblock.datastart, Nat.add_sub_cancel_left]

include hw hp in
theorem writei_saves (hdev : (s.icache p).d.type ≠ T_DEV) (hoff : off ≤ (s.icache p).d.size.toNat)
    (hmax : off + src.length ≤ MAXFILE * BSIZE) (hK : Slots K off src.length) (hKL : K ⊆ L)
    (hP : P → Supply (s.icache p).inum L s.toStore) :
    Saves P (metaOf s.sb (s.icache p).inum) (s.icache p).inum K (ops.writei p src off)
      (fun r t bs => r = src.length ∧ Written P p L s.toStore t off src ∧
        ∀ bn, off / BSIZE ≤ bn → bn * BSIZE < off + src.length → 0 < src.length →
          ∃ b ∈ bs, t.held ((s.icache p).inum, slotIdx bn) = some b) s := by
  have hlt : off + src.length < 2 ^ 32 := by
    simp only [MAXFILE, NDIRECT, NINDIRECT, BSIZE] at hmax
    omega
  have hM : s.sb.mapBlocks ⊆ metaOf s.sb (s.icache p).inum := fun b hb =>
    Finset.mem_insert_of_mem (Finset.mem_Ico.mpr hb)
  rw [FsOps.writei, ops_note_bind]
  change Saves P _ _ K (if (s.icache p).d.type = T_DEV then _ else if off > _ ∨ _ then _ else
    if _ then _ else _) _ s
  rw [if_neg hdev, if_neg (by rw [mod_eq_of_lt hlt]; omega), if_neg (by omega)]
  refine Saves.bind (writeFrom_saves off src hw hp rfl hmax hK hKL hM hP) fun off' t g bs h => ?_
  obtain ⟨rfl, h⟩ := h
  have hp1 : (t.icache p).Live := (h.grow.live p).mpr hp
  change Saves P _ _ K (if 0 < src.length ∧ off + src.length > (t.icache p).d.size.toNat
    then _ else _) _ _
  split_ifs with hgrow
  · obtain ⟨-, hheld, -, -, hheld1⟩ :=
      resized_spec h.wf hp1 (.ofNat 32 (off + src.length))
    have hdone := h.written_resized hp hoff hgrow.2
    have hself : resized t p (.ofNat 32 (off + src.length)) = (t.setInode p
        { t.icache p with d := { (t.icache p).d with size := .ofNat 32 (off + src.length) } }).setDinode
        (t.icache p).inum { (t.icache p).d with size := .ofNat 32 (off + src.length) } := rfl
    rw [hself] at hheld hdone
    generalize BitVec.ofNat 32 (off + src.length) = z at *
    refine (Saves.setInode fun y c hy => (congrFun hheld1 y).trans hy).bind fun _ t2 g2 bs2 h₂ => ?_
    obtain ⟨h₂, rfl⟩ := h₂
    have hn : t2.icache p = { t.icache p with d := { (t.icache p).d with size := z } } := by
      rw [h₂]
      exact setInode_self
    have hsave : t2.setDinode (t2.icache p).inum (t2.icache p).d = (t.setInode p
        { t.icache p with d := { (t.icache p).d with size := z } }).setDinode
        (t.icache p).inum { (t.icache p).d with size := z } := by
      rw [hn, h₂]
      rfl
    refine (Saves.iupdate (t := t2) rfl ?_ ?_).bind fun _ t3 g3 bs3 h₃ => Saves.pure ?_
    · rw [hn, h₂]
      change IBLOCK (t.icache p).inum t.sb ∈ metaOf s.sb (s.icache p).inum
      rw [h.grow.inum p, h.grow.sb]
      exact Finset.mem_insert_self _ _
    · rw [hsave, hheld, h₂]
      exact hheld1.symm
    rw [after_toStore, h₃, hsave]
    refine ⟨rfl, hdone, fun bn h1 h2 h3 => ?_⟩
    obtain ⟨b, hb, hbn⟩ := h.blocks bn h1 h2 h3
    exact ⟨b, by simp [hb], by rw [hheld]; exact hbn⟩
  · exact Saves.pure ⟨rfl, h.written (hw.loaded p hp).1.1 hoff hgrow, h.blocks⟩

end Fs

end Xv6
