import Xv6.Proofs.FileBlocks

/-! What the inode layer does on disk blocks: one specification per function of the inode
cache, of inode contents and of directories. -/

namespace Xv6

open Store

variable {i : ℕ}

namespace Store

variable {t t' : Store} {x : Set Ptr} {out : Set ℕ} {p : Ptr}

structure Touch (p : Ptr) (t t' : Store) : Prop where
  sb : t'.sb = t.sb
  others : ∀ q, q ≠ p → t'.icache q = t.icache q
  inum : (t'.icache p).inum = (t.icache p).inum
  ref : (t'.icache p).ref = (t.icache p).ref
  valid : (t'.icache p).valid = (t.icache p).valid
  held : ∀ y b, t.held y = some b → t'.held y = some b

theorem Touch.refl : Touch p t t := ⟨rfl, fun _ _ => rfl, rfl, rfl, rfl, fun _ _ h => h⟩

theorem Touch.trans {t'' : Store} (h : Touch p t t') (h' : Touch p t' t'') : Touch p t t'' where
  sb := h'.sb.trans h.sb
  others q hq := (h'.others q hq).trans (h.others q hq)
  inum := h'.inum.trans h.inum
  ref := h'.ref.trans h.ref
  valid := h'.valid.trans h.valid
  held y b hy := h'.held y b (h.held y b hy)

theorem Touch.live (h : Touch p t t') (q : Ptr) : (t'.icache q).Live ↔ (t.icache q).Live := by
  by_cases hq : q = p
  · unfold Inode.Live
    rw [hq, h.ref, h.valid]
  · rw [h.others q hq]

theorem WfExcept.touch_iupdate (h : WfExcept x out t) (hp : (t.icache p).Live) :
    Touch p t (t.setDinode (t.icache p).inum (t.icache p).d) :=
  ⟨rfl, fun _ _ => rfl, rfl, rfl, rfl, fun y b hy => by rwa [h.held_iupdate hp]⟩

theorem Quiet.touch {n : Inode} (h : Quiet t p n) (hu : t.Unique)
    (hi : n.inum = (t.icache p).inum) (hr : n.ref = (t.icache p).ref)
    (hv : n.valid = (t.icache p).valid) : Touch p t (t.setInode p n) where
  sb := rfl
  others _ hq := setInode_ne hq
  inum := by rwa [setInode_self]
  ref := by rwa [setInode_self]
  valid := by rwa [setInode_self]
  held y b hy := by rwa [h.held hu]

theorem setInode_setInode {a b : Inode} : (t.setInode p a).setInode p b = t.setInode p b := by
  simp [setInode]

theorem setInode_setDinode {a : Inode} {d : Dinode} :
    (t.setInode p a).setDinode i d = (t.setDinode i d).setInode p a := rfl

theorem WfExcept.free (h : WfExcept x out t) {n : Inode} {d : Dinode} (hx : p ∉ x)
    (hp : (t.icache p).Live) (hi : n.inum = (t.icache p).inum) (hv : n.valid = false)
    (hd : d.type = 0) : WfExcept x out ((t.setInode p n).setDinode (t.icache p).inum d) := by
  have hn : ¬n.Live := fun hl => absurd hl.2 (by simp [hv])
  refine (h.drop hx hn fun _ q hq hr e => hq (h.unique q p hr hp.1 (e.trans hi))).clear
    (h.loaded p hp).1.1 ?_ (.inl hd)
  intro q
  rw [setInode_icache]
  split_ifs with hq
  · exact fun hl => absurd hl hn
  · exact fun hl e => hq (h.unique q p hl.1 hp.1 e)

end Store

namespace Fs

variable {α β : Type} {m : FsM α} {f : α → FsM β} {s : Fs} {X Y : Set ℕ} {n k : ℕ} {p : Ptr}
  {S : β → Store → Prop}

theorem does_ops_inode_bind {f : Inode → FsM β} :
    Does X n (ops.inode p >>= f) S s ↔ Does X n (f (s.icache p)) S s := Iff.rfl

theorem does_ops_devsw_bind {f : (Fin NDEV → Devsw) → FsM β} :
    Does X n (ops.devsw >>= f) S s ↔ Does X n (f s.devsw) S s := Iff.rfl

theorem does_ops_cwd_bind {f : Option Ptr → FsM β} :
    Does X n (ops.cwd >>= f) S s ↔ Does X n (f s.cwd) S s := Iff.rfl

theorem does_ops_icache_bind {f : (Ptr → Inode) → FsM β} :
    Does X n (ops.icache >>= f) S s ↔ Does X n (f s.icache) S s := Iff.rfl

theorem does_ops_dinode_bind {f : Dinode → FsM β} :
    Does X n (ops.dinode i >>= f) S s ↔ Does X n (f (s.toStore.dinode i)) S s := Iff.rfl

theorem Does.panicIf_bind {c : Prop} [Decidable c] {e : Panic} {f : Unit → FsM β}
    (he : e ≠ .freeingFreeBlock) (h : ¬c → Does X n (f ()) S s) :
    Does X n (ops.panicIf c e >>= f) S s := by
  unfold FsOps.panicIf
  split_ifs with hc
  · exact swp.halt ⟨.nil, fun h => he (Stop.panic.inj h)⟩
  · exact h hc

theorem does_panicIf {c : Prop} [Decidable c] {e : Panic} (he : e ≠ .freeingFreeBlock) :
    Does X n (ops.panicIf c e) (fun _ t => ¬c ∧ t = s.toStore) s := by
  unfold FsOps.panicIf
  split_ifs with hc
  · exact swp.halt ⟨.nil, fun h => he (Stop.panic.inj h)⟩
  · exact .pure ⟨hc, rfl⟩

theorem does_modifyInode (p : Ptr) (g : Inode → Inode) :
    Does X n (ops.modifyInode p g) (fun _ t => t = s.toStore.setInode p (g (s.icache p))) s :=
  does_setInode p _

theorem does_setDinode (hi : IBLOCK i s.sb ∈ X) (d : Dinode) :
    Does X n (ops.setDinode i d) (fun _ t => t = s.toStore.setDinode i d) s := by
  change Does X n (setDinode i d) _ s
  rw [setDinode, does_get_bind, does_bread_bind]
  refine (does_bstore _ _).seq fun _ t _ _ ht => ?_
  exact (does_logWrite hi).weaken fun _ t' ht' => ht'.trans ht

theorem does_iupdate (hi : IBLOCK (s.icache p).inum s.sb ∈ X) : Does X n (ops.iupdate p)
      (fun _ t => t = s.toStore.setDinode (s.icache p).inum (s.icache p).d) s := by
  rw [FsOps.iupdate, ops_note_bind, does_ops_inode_bind]
  exact does_setDinode hi _

theorem acquiresleep_apply (ip : Ptr) (s : Fs) : ops.acquiresleep ip s =
    if (s.icache ip).lock.isSome then .halt .sleep s
    else .ok () { s with toStore := s.toStore.setInode ip { s.icache ip with lock := some 0 } } := by
  change (if (s.icache ip).lock.isSome then (Exec.halt Stop.sleep : FsM Unit)
    else setInode ip { s.icache ip with lock := some 0 }) s = _
  split_ifs <;> rfl

theorem does_acquiresleep (p : Ptr) :
    Does X n (ops.acquiresleep p) (fun _ t => (s.icache p).lock = none ∧
      t = s.toStore.setInode p { s.icache p with lock := some 0 }) s := by
  change Does X n (acquiresleep p) _ s
  rw [acquiresleep, does_inode_bind]
  split_ifs with hl
  · exact swp.halt ⟨.nil, by simp⟩
  · exact (does_setInode p _).weaken fun _ t ht => ⟨by simpa using hl, ht⟩

theorem does_releasesleep (p : Ptr) : Does X n (ops.releasesleep p)
      (fun _ t => t = s.toStore.setInode p { s.icache p with lock := none }) s :=
  does_setInode p _

/-! The inode cache. -/

section

variable (hw : s.toStore.Wf) (hp : (s.icache p).Live) (hX : s.sb.mapBlocks ⊆ X)
  (hI : IBLOCK (s.icache p).inum s.sb ∈ X)
include hw hp hX hI

theorem itrunc_spec : Does X 0 (ops.itrunc p) (fun _ t => t.Wf ∧ t.sb = s.sb ∧
      (∀ q, q ≠ p → t.icache q = s.icache q) ∧
      (∃ addrs, t.icache p =
        { s.icache p with d := { (s.icache p).d with addrs := addrs, size := 0 } }) ∧
      ∀ k b, s.toStore.held ((s.icache p).inum, k) = some b → ¬t.used b) s := by
  rw [FsOps.itrunc, ops_note_bind]
  refine ((truncBlocks_spec hw hp).mono hX le_rfl fun _ _ h => h).seq fun _ t h bs ht => ?_
  obtain ⟨hw1, ho, hfree⟩ := ht
  have hp1 : (t.icache p).Live := (ho.live p).mpr hp
  obtain ⟨addrs, hself⟩ := ho.self
  have hq := hw1.quiet_fields (n := { t.icache p with d := { (t.icache p).d with size := 0 } })
    hp1.1 hp1.1 rfl rfl rfl fun _ => (hw1.loaded p hp1).2
  refine (does_modifyInode p _).seq fun _ t2 h2 bs2 ht2 => ?_
  rw [wrote_toStore] at ht2
  have hw2 := hw1.quiet hq
  subst ht2
  set t2 := t.setInode p { t.icache p with d := { (t.icache p).d with size := 0 } } with ht2
  have hself2 : t2.icache p = { t.icache p with d := { (t.icache p).d with size := 0 } } :=
    setInode_self
  have hp2 : (t2.icache p).Live := by rwa [hself2]
  have hI2 : IBLOCK (t2.icache p).inum t2.sb ∈ X := by
    rw [hself2, show t2.sb = s.sb from ho.sb]
    change IBLOCK (t.icache p).inum s.sb ∈ X
    rwa [ho.inum p]
  refine (does_iupdate hI2).weaken fun _ t3 ht3 => ?_
  subst ht3
  refine ⟨?_, ho.sb, fun q hqp => ?_, ⟨addrs, ?_⟩, fun k b hb hu => hfree k b hb ?_⟩
  · have hw3 := hw2.iupdate hp2
    rwa [Set.sdiff_self] at hw3
  · exact (setInode_ne hqp).trans (ho.others q hqp)
  · change t2.icache p = _
    rw [hself2, hself]
  · exact (hw2.used_setDinode (hw2.loaded p hp2).1.1).mp hu

theorem ifree_spec : Does X 0 (ops.ifree p) (fun _ t => t.Wf ∧ t.sb = s.sb ∧
      (∀ q, q ≠ p → t.icache q = s.icache q) ∧ (t.icache p).inum = (s.icache p).inum ∧
      (t.icache p).ref = (s.icache p).ref ∧ (t.icache p).lock = (s.icache p).lock ∧
      (t.icache p).valid = false ∧ (t.dinode (s.icache p).inum).type = 0 ∧
      ∀ k b, s.toStore.held ((s.icache p).inum, k) = some b → ¬t.used b) s := by
  unfold FsOps.ifree
  refine (itrunc_spec hw hp hX hI).seq fun _ t h bs ht => ?_
  obtain ⟨hw1, hsb, hothers, ⟨addrs, hself⟩, hfree⟩ := ht
  have hp1 : (t.icache p).Live := by rwa [hself]
  have hinum : (t.icache p).inum = (s.icache p).inum := by rw [hself]
  refine (does_modifyInode p _).seq fun _ t2 h2 bs2 ht2 => ?_
  rw [wrote_toStore] at ht2
  subst ht2
  set n2 : Inode := { t.icache p with d := { (t.icache p).d with type := 0 } } with hn2
  have hI2 : IBLOCK ((t.setInode p n2).icache p).inum (t.setInode p n2).sb ∈ X := by
    rw [setInode_self, setInode_sb, hsb]
    change IBLOCK (t.icache p).inum s.sb ∈ X
    rwa [hinum]
  refine (does_iupdate hI2).seq fun _ t3 h3 bs3 ht3 => ?_
  refine (does_modifyInode p _).weaken fun _ t4 ht4 => ?_
  rw [wrote_toStore] at ht4
  subst ht3 ht4
  simp only [wrote_toStore, setInode_self, setDinode_icache,
    ← setInode_setDinode, setInode_setInode]
  have hlt := (hw1.loaded p hp1).1.1
  refine ⟨hw1.free (Set.notMem_empty p) hp1 rfl rfl rfl, hsb, fun q hq => ?_, ?_, ?_, ?_, trivial,
    ?_, fun k b hb hu => hfree k b hb ?_⟩
  · rw [setInode_ne hq, hothers q hq]
  · rw [hn2, hinum]
  · rw [hn2, hself]
  · rw [hn2, hself]
  · rw [setDinode_dinode, if_pos hinum.symm]
  · exact (hw1.used_setDinode hlt).mp hu

end

theorem wf_unref {t : Store} (hw : t.Wf) :
    (t.setInode p { t.icache p with ref := (t.icache p).ref - 1 }).Wf := by
  by_cases hr : 0 < (t.icache p).ref - 1
  · refine hw.quiet (hw.quiet_fields (by omega) hr rfl rfl rfl fun hp => (hw.loaded p hp).2)
  · exact hw.drop (Set.notMem_empty p) (fun hl => hr hl.1) fun h => absurd h hr

theorem iput_spec (hw : s.toStore.Wf) (hX : s.sb.mapBlocks ⊆ X)
    (hI : IBLOCK (s.icache p).inum s.sb ∈ X) :
    Does X 0 (ops.iput p) (fun _ t => t.Wf ∧ t.sb = s.sb ∧
      (∀ q, q ≠ p → t.icache q = s.icache q) ∧ (t.icache p).inum = (s.icache p).inum ∧
      (t.icache p).ref = (s.icache p).ref - 1) s := by
  rw [FsOps.iput, ops_note_bind]
  refine (does_acquiresleep p).seq fun _ t h bs ht => ?_
  replace ht := ht.2
  have hw1 : t.Wf := ht ▸ hw.quiet (hw.quiet_lock _)
  have hself : t.icache p = { s.icache p with lock := some 0 } := by rw [ht, setInode_self]
  have hothers : ∀ q, q ≠ p → t.icache q = s.icache q := fun q hq => by
    rw [ht, setInode_ne hq]
  have hsb : t.sb = s.sb := by rw [ht, setInode_sb]
  have hinum : (t.icache p).inum = (s.icache p).inum := by rw [hself]
  have href : (t.icache p).ref = (s.icache p).ref := by rw [hself]
  rw [does_ops_inode_bind]
  have hmid : Does X 0 (if ((t.icache p).valid && (t.icache p).d.nlink == 0 &&
      (t.icache p).ref == 1) = true then ops.ifree p else pure ()) (fun _ t' => t'.Wf ∧ t'.sb = s.sb ∧
      (∀ q, q ≠ p → t'.icache q = s.icache q) ∧ (t'.icache p).inum = (s.icache p).inum ∧
      (t'.icache p).ref = (s.icache p).ref) (s.wrote t h bs) := by
    split_ifs with hf
    · simp only [Bool.and_eq_true, beq_iff_eq] at hf
      have hp1 : (t.icache p).Live := ⟨by omega, hf.1.1⟩
      have hI1 : IBLOCK (t.icache p).inum t.sb ∈ X := by rwa [hinum, hsb]
      refine (ifree_spec hw1 hp1 (hsb ▸ hX) hI1).weaken fun _ t' h' => ?_
      obtain ⟨hw', hsb', ho', hi', hr', -⟩ := h'
      exact ⟨hw', hsb'.trans hsb, fun q hq => (ho' q hq).trans (hothers q hq), hi'.trans hinum,
        hr'.trans href⟩
    · exact .pure ⟨hw1, hsb, hothers, hinum, href⟩
  refine hmid.seq fun _ t2 h2 bs2 ht2 => ?_
  obtain ⟨hw2, hsb2, ho2, hi2, hr2⟩ := ht2
  refine (does_releasesleep p).seq fun _ t3 h3 bs3 ht3 => ?_
  rw [wrote_toStore] at ht3
  have hw3 : t3.Wf := ht3 ▸ hw2.quiet (hw2.quiet_lock _)
  have hself3 : t3.icache p = { t2.icache p with lock := none } := by rw [ht3, setInode_self]
  refine (does_modifyInode p _).weaken fun _ t4 ht4 => ?_
  rw [wrote_toStore] at ht4
  subst ht4
  refine ⟨wf_unref hw3, ?_, fun q hq => ?_, ?_, ?_⟩
  · rw [setInode_sb, ht3, setInode_sb, hsb2]
  · rw [setInode_ne hq, ht3, setInode_ne hq, ho2 q hq]
  · rw [setInode_self, hself3, hi2]
  · rw [setInode_self, hself3, hr2]

theorem idup_spec (hw : s.toStore.Wf) (hr : 0 < (s.icache p).ref) :
    Does X n (ops.idup p) (fun _ t => t.Wf ∧
      t = s.toStore.setInode p { s.icache p with ref := (s.icache p).ref + 1 }) s := by
  refine (does_modifyInode p _).weaken fun _ t ht => ⟨?_, ht⟩
  subst ht
  exact hw.quiet (hw.quiet_fields hr (Int.add_pos hr one_pos) rfl rfl rfl fun hp =>
    (hw.loaded p hp).2)

/-- The entry that `iget` returns: another reference to the entry of `i`, or a recycled
entry. -/
def IgetTo (t : Store) (i : ℕ) (p : Ptr) (n : Inode) : Prop :=
  (0 < (t.icache p).ref ∧ (t.icache p).inum = i ∧
    n = { t.icache p with ref := (t.icache p).ref + 1 }) ∨
  ((t.icache p).ref = 0 ∧ (∀ q, 0 < (t.icache q).ref → (t.icache q).inum ≠ i) ∧
    n = { t.icache p with inum := i, ref := 1, valid := false })

theorem IgetTo.quiet {t : Store} {x : Set Ptr} {out : Set ℕ} {a : Inode}
    (h : IgetTo t i p a) (hw : t.WfExcept x out) : t.Quiet p a := by
  rcases h with ⟨hr, -, rfl⟩ | ⟨hr, hno, rfl⟩
  · exact hw.quiet_fields hr (Int.add_pos hr one_pos) rfl rfl rfl fun hp => (hw.loaded p hp).2
  · refine ⟨fun _ q _ hq => hno q hq, fun hp => ?_, fun _ hn => ?_, fun hn => ?_⟩
    · exact absurd hp.1 (by omega)
    · exact absurd hn.2 Bool.false_ne_true
    · exact absurd hn.2 Bool.false_ne_true

theorem iget_spec (hw : s.toStore.Wf) (i : ℕ) :
    Does X n (ops.iget i) (fun p t => t.Wf ∧ ∃ a, IgetTo s.toStore i p a ∧
      t = s.toStore.setInode p a) s := by
  rw [FsOps.iget, does_ops_icache_bind]
  cases hf : (List.finRange NINODE).find? fun p =>
      0 < (s.icache p).ref && (s.icache p).inum == i with
  | some p =>
    have hp := List.find?_some hf
    simp only [Bool.and_eq_true, decide_eq_true_eq, beq_iff_eq] at hp
    have hto : IgetTo s.toStore i p { s.icache p with ref := (s.icache p).ref + 1 } :=
      .inl ⟨hp.1, hp.2, rfl⟩
    refine Does.seq (does_setInode p _) fun _ t _ _ ht => .pure ⟨?_, _, hto, ht⟩
    rw [wrote_toStore, ht]
    exact hw.quiet (hto.quiet hw)
  | none =>
    have hno : ∀ q, 0 < (s.icache q).ref → (s.icache q).inum ≠ i := by
      intro q hq e
      have := List.find?_eq_none.mp hf q (List.mem_finRange q)
      simp [hq, e] at this
    cases hf' : (List.finRange NINODE).find? fun p => (s.icache p).ref == 0 with
    | some p =>
      have hp := List.find?_some hf'
      have hto : IgetTo s.toStore i p { s.icache p with inum := i, ref := 1, valid := false } :=
        .inr ⟨by simpa using hp, hno, rfl⟩
      refine Does.seq (does_setInode p _) fun _ t _ _ ht => .pure ⟨?_, _, hto, ht⟩
      rw [wrote_toStore, ht]
      exact hw.quiet (hto.quiet hw)
    | none => exact .panic (by decide)

def lockedInode (t : Store) (p : Ptr) : Inode :=
  { t.icache p with
    lock := some 0
    valid := true
    d := if (t.icache p).valid then (t.icache p).d else t.dinode (t.icache p).inum }

theorem ilock_spec (hw : s.toStore.Wf)
    (hi : 0 < (s.icache p).ref → (s.icache p).inum < s.sb.ninodes) :
    Does X n (ops.ilock p) (fun _ t => s.toStore.Quiet p (lockedInode s.toStore p) ∧
      0 < (s.icache p).ref ∧ (s.icache p).lock = none ∧
      t = s.toStore.setInode p (lockedInode s.toStore p)) s := by
  rw [FsOps.ilock, does_ops_inode_bind]
  refine .panicIf_bind (by decide) fun hr => ?_
  replace hr : 0 < (s.icache p).ref := by omega
  refine (does_acquiresleep p).seq fun _ t h bs ht => ?_
  obtain ⟨hlock, rfl⟩ := ht
  rw [does_ops_inode_bind]
  simp only [wrote_toStore, setInode_self]
  split_ifs with hv
  · have hl : lockedInode s.toStore p = { s.icache p with lock := some 0 } := by
      unfold lockedInode
      rw [if_pos hv, ← hv]
    rw [hl]
    exact .pure ⟨hw.quiet_lock _, hr, hlock, rfl⟩
  · have hl : lockedInode s.toStore p = { s.icache p with
        lock := some 0, valid := true, d := s.toStore.dinode (s.icache p).inum } := by
      unfold lockedInode
      rw [if_neg hv]
    rw [does_ops_dinode_bind]
    refine Does.seq (does_setInode p _) fun _ t2 _ _ ht2 => ?_
    refine (does_panicIf (by decide)).weaken fun _ t3 ht3 => ?_
    obtain ⟨hty, rfl⟩ := ht3
    rw [wrote_toStore] at ht2
    rw [ht2, setInode_setInode, hl]
    refine ⟨⟨fun _ q hq hq' e => hq (hw.unique q p hq' hr e), fun hp => absurd hp.2 hv,
      fun _ _ => rfl, fun _ => ⟨⟨hi hr, hty⟩, hty⟩⟩, hr, hlock, rfl⟩

theorem iunlock_held : Does X n (ops.iunlock p) (fun _ t => (s.icache p).lock = some 0 ∧
      t = s.toStore.setInode p { s.icache p with lock := none }) s := by
  unfold FsOps.iunlock
  change Does X n (FsOps.panicIf ops ((!((s.icache p).lock == some 0)) = true ∨ (s.icache p).ref < 1)
    _ >>= _) _ s
  refine .panicIf_bind (by decide) fun hheld => (does_releasesleep p).weaken fun _ t ht => ⟨?_, ht⟩
  simpa using (not_or.mp hheld).1

theorem iunlock_spec : Does X n (ops.iunlock p)
      (fun _ t => t = s.toStore.setInode p { s.icache p with lock := none }) s :=
  iunlock_held.weaken fun _ _ ht => ht.2

/-- What the console does to the inode: nobody else is there to change it while it is unlocked. -/
theorem relock_spec {a : α} (hw : s.toStore.Wf) (hp : (s.icache p).Live) :
    Does X n (ops.iunlock p >>= fun _ => ops.ilock p >>= fun _ => Pure.pure a)
      (fun _ t => t = s.toStore) s := by
  refine (iunlock_held (n := 0)).seq fun _ t h bs ⟨hlock, ht⟩ => ?_
  have hself : t.icache p = { s.icache p with lock := none } := by
    rw [ht, setInode_self]
  refine (ilock_spec (s := s.wrote t h bs) ?_ fun _ => ?_).seq fun _ u _ _ hu => .pure ?_
  · rw [wrote_toStore, ht]
    exact hw.quiet (hw.quiet_lock none)
  · change (t.icache p).inum < t.sb.ninodes
    rw [hself, ht]
    exact (hw.loaded p hp).1.1
  · obtain ⟨-, -, -, hu⟩ := hu
    have hback : lockedInode t p = s.icache p := by
      rw [lockedInode, hself, if_pos hp.2, ← hp.2, ← hlock]
    rw [wrote_toStore, hback, ht] at hu
    rw [wrote_toStore, hu, Store.setInode, Store.setInode, Function.update_idem,
      Function.update_eq_self]

theorem ialloc_spec (hw : s.toStore.Wf) (type : Short) :
    Does X 1 (ops.ialloc type) (fun p t => t.Wf ∧ ∃ i a, i < s.sb.ninodes ∧
      (s.toStore.dinode i).type = 0 ∧
      IgetTo (s.toStore.setDinode i { Dinode.zero with type := type, mode := 493 }) i p a ∧
      t = (s.toStore.setDinode i { Dinode.zero with type := type, mode := 493 }).setInode p a) s := by
  have hloop : ∀ is : List ℕ, (∀ i ∈ is, i < s.sb.ninodes) →
      Does X 1 (ops.iallocFrom type is) (fun p t => t.Wf ∧ ∃ i a, i < s.sb.ninodes ∧
        (s.toStore.dinode i).type = 0 ∧
        IgetTo (s.toStore.setDinode i { Dinode.zero with type := type, mode := 493 }) i p a ∧
        t = (s.toStore.setDinode i { Dinode.zero with type := type, mode := 493 }).setInode p a)
        s := by
    intro is his
    induction is with
    | nil => exact .panic (by decide)
    | cons i is ih =>
      rw [FsOps.iallocFrom, does_ops_dinode_bind]
      split_ifs with hty
      · have hi := his i List.mem_cons_self
        refine Does.of_insert (c := IBLOCK i s.sb) ?_
        refine (does_setDinode (Set.mem_insert _ _) _).seq fun _ t h bs ht => ?_
        have hw1 : t.Wf := by
          rw [ht]
          refine hw.clear hi (fun p hp e => ?_) (.inr (Dinode.addr_of_zero rfl))
          exact (hw.loaded p hp).1.2 (e ▸ hty)
        refine (iget_spec hw1 i).weaken fun p t' ht' => ?_
        obtain ⟨hw', a, hto, rfl⟩ := ht'
        rw [wrote_toStore, ht] at hto
        rw [wrote_toStore, ht] at hw' ⊢
        exact ⟨hw', i, a, hi, hty, hto, rfl⟩
      · exact ih fun j hj => his j (List.mem_cons_of_mem i hj)
  unfold FsOps.ialloc
  change Does X 1 (ops.iallocFrom type (List.range' 1 (s.sb.ninodes - 1))) _ s
  refine hloop _ fun i hi => ?_
  have := List.mem_range'_1.mp hi
  omega

/-! Inode content. -/

theorem readi_spec (hw : s.toStore.Wf) (hp : (s.icache p).Live) (off len : ℕ) :
    Does Set.univ 0 (ops.readi p off len) (fun _ t => t.Wf ∧ Store.Grow p s.toStore t) s := by
  rw [FsOps.readi, ops_note_bind, does_ops_inode_bind]
  dsimp only
  split_ifs
  · rw [FsOps.device, bind_assoc, does_ops_devsw_bind, pure_bind]
    split
    · refine (relock_spec hw hp).weaken fun _ t ht => ?_
      rw [ht]
      exact ⟨hw, .refl⟩
    · exact .pure ⟨hw, .refl⟩
  · exact .pure ⟨hw, .refl⟩
  · exact Does.seq (readFrom_spec off _ hw hp .refl) fun _ _ _ _ ht => .pure ht
  · exact Does.seq (readFrom_spec off _ hw hp .refl) fun _ _ _ _ ht => .pure ht

/-- `writei` leaves the store as it is or writes all of `src`; it logs the map, the block of the inode
and at most two blocks for each block of data: the data block itself and the indirect block. -/
theorem writei_does (hw : s.toStore.Wf) (hp : (s.icache p).Live) (src : List UInt8) (off : ℕ) :
    Does (metaOf s.sb (s.icache p).inum) (2 * rounds off src.length) (ops.writei p src off)
      (fun _ t => t = s.toStore ∨ ∃ L, Written False p L s.toStore t off src) s := by
  by_cases hok : (s.icache p).d.type ≠ T_DEV ∧ off ≤ (s.icache p).d.size.toNat ∧
      off + src.length ≤ MAXFILE * BSIZE
  · obtain ⟨hdev, hoff, hmax⟩ := hok
    have hslots : ∃ K, Slots K off src.length ∧ K.card ≤ 2 * rounds off src.length := by
      by_cases hn : src.length = 0
      · exact ⟨∅, fun _ _ _ h => absurd h (by omega), by simp⟩
      · have hpos : 0 < rounds off src.length := by
          rw [rounds, if_neg hn]
          exact Nat.succ_pos _
        exact ⟨slotsFor off src.length, slots_slotsFor hmax, (card_slotsFor _ _).trans (by omega)⟩
    obtain ⟨K, hK, hcard⟩ := hslots
    refine ((writei_saves (P := False) hw hp hdev hoff hmax hK subset_rfl nofun).does hcard).weaken ?_
    rintro r t ⟨bs, -, hwr, -⟩
    exact .inr ⟨K, hwr⟩
  · rw [FsOps.writei, ops_note_bind, does_ops_inode_bind]
    dsimp only
    split_ifs with hdev hoff hmax
    · rw [FsOps.device, bind_assoc, does_ops_devsw_bind, pure_bind]
      split
      · exact (relock_spec hw hp).weaken fun _ t ht => .inl ht
      · exact .pure (.inl rfl)
    · exact .pure (.inl rfl)
    · exact .pure (.inl rfl)
    · exact absurd ⟨hdev, by omega, by omega⟩ hok

theorem Written.touch {P : Prop} {L : Finset ℕ} {t t' : Store} {off : ℕ} {src : List UInt8}
    (h : Written P p L t t' off src) : Store.Touch p t t' := by
  obtain ⟨addrs, hself⟩ := h.self
  exact ⟨h.sb, h.others, by rw [hself], by rw [hself], by rw [hself], h.edits.held⟩

theorem writei_spec (hw : s.toStore.Wf) (hp : (s.icache p).Live) (hX : s.sb.mapBlocks ⊆ X)
    (hI : IBLOCK (s.icache p).inum s.sb ∈ X) (src : List UInt8) (off : ℕ) :
    Does X (2 * rounds off src.length) (ops.writei p src off)
      (fun _ t => t.Wf ∧ Store.Touch p s.toStore t ∧
        (t.icache p).d.type = (s.icache p).d.type ∧ (Full s.toStore p → Full t p)) s := by
  refine (writei_does hw hp src off).mono (fun b hb => ?_) le_rfl ?_
  · rcases Finset.mem_insert.mp hb with rfl | hb
    · exact hI
    · exact hX (Finset.mem_Ico.mp hb)
  · rintro _ t (rfl | ⟨L, h⟩)
    · exact ⟨hw, .refl, rfl, id⟩
    · obtain ⟨addrs, hself⟩ := h.self
      refine ⟨h.wf, h.touch, by rw [hself], fun hfull bn hbn => ?_⟩
      rw [h.touch.inum]
      refine h.full hfull bn (hbn.trans_le ?_)
      rw [hself]
      exact Nat.mod_le _ _

/-! Directories. -/

section

variable (hw : s.toStore.Wf) (hp : (s.icache p).Live)
include hw hp

theorem scan_spec {err : Panic} (herr : err ≠ .freeingFreeBlock) (stop : Dirent → Bool)
    (fuel off : ℕ) {t0 : Store} (hg : Store.Grow p t0 s.toStore) :
    Does Set.univ 0 (ops.scan p err stop fuel off) (fun _ t => t.Wf ∧ Store.Grow p t0 t) s := by
  induction fuel generalizing s off with
  | zero => exact .pure ⟨hw, hg⟩
  | succ fuel ih =>
    rw [FsOps.scan, does_ops_inode_bind]
    split_ifs
    · refine (readi_spec hw hp off DIRENTSIZE).seq fun r t _ _ ht => ?_
      obtain ⟨hw', hg'⟩ := ht
      refine .panicIf_bind herr fun _ => ?_
      dsimp only
      split_ifs
      · exact .pure ⟨hw', hg.trans hg'⟩
      · exact ih hw' ((hg'.live p).mpr hp) _ (hg.trans hg')
    · exact .pure ⟨hw, hg⟩

theorem scanAll_spec {err : Panic} (herr : err ≠ .freeingFreeBlock) (stop : Dirent → Bool)
    (off : ℕ) : Does Set.univ 0 (ops.scanAll p err stop off)
      (fun _ t => t.Wf ∧ Store.Grow p s.toStore t) s := by
  rw [FsOps.scanAll, does_ops_inode_bind]
  exact scan_spec hw hp herr stop _ off .refl

theorem dirlookup_spec (name : Str) : Does Set.univ 0 (ops.dirlookup p name)
      (fun r t => t.Wf ∧ (r = none → Store.Grow p s.toStore t)) s := by
  rw [FsOps.dirlookup, does_ops_inode_bind]
  refine .panicIf_bind (by decide) fun _ => ?_
  refine (scanAll_spec hw hp (by decide) _ 0).seq fun r t _ _ ht => ?_
  obtain ⟨hw', hg⟩ := ht
  cases r.1 with
  | none => exact .pure ⟨hw', fun _ => hg⟩
  | some de =>
    refine Does.seq (iget_spec hw' de.inum) fun ip t' _ _ ht' => .pure ⟨ht'.1, by simp⟩

theorem dirlink_spec (name : Str) (inum : ℕ) :
    Does Set.univ 0 (ops.dirlink p name inum) (fun _ t => t.Wf) s := by
  unfold FsOps.dirlink
  refine (dirlookup_spec hw hp name).seq fun r t _ _ ht => ?_
  obtain ⟨hw', hg⟩ := ht
  cases r with
  | some r =>
    obtain ⟨ip, off⟩ := r
    exact Does.seq (iput_spec hw' (Set.subset_univ _) trivial) fun _ _ _ _ h => .pure h.1
  | none =>
    have hp' : (t.icache p).Live := ((hg rfl).live p).mpr hp
    refine Does.seq (scanAll_spec hw' hp' (by decide) _ 0) fun e t2 _ _ ht2 => ?_
    have hp2 : (t2.icache p).Live := (ht2.2.live p).mpr hp'
    refine Does.seq (writei_spec ht2.1 hp2 (Set.subset_univ _) trivial _ _).univ
      fun r t3 _ _ ht3 => ?_
    exact .panicIf_bind (by decide) fun _ => .pure ht3.1

end

end Fs

end Xv6
