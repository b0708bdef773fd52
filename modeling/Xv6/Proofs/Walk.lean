import Xv6.Spec.OpBlocks
import Xv6.Proofs.Contents
import Xv6.Proofs.InodeBlocks

/-! Path walks. In a consistent file system the directories are read without a change to
the disk, and the references that a walk takes and drops never free an inode. -/

namespace Xv6

open List Store

variable {t t₀ : Store} {p q : Ptr} {i n : ℕ} {hs : List Ptr} {X : Set ℕ} {s : Fs}

namespace Store

theorem Unique.view_setInode_eq (h : t.Unique) {n : Inode}
    (hu : 0 < n.ref → ∀ q, q ≠ p → 0 < (t.icache q).ref → (t.icache q).inum ≠ n.inum)
    (hn : n.Live → n.d = t.view n.inum)
    (hp : (t.icache p).Live → ¬(n.Live ∧ n.inum = (t.icache p).inum) →
      (t.icache p).d = t.dinode (t.icache p).inum) (i : ℕ) :
    (t.setInode p n).view i = t.view i := by
  by_cases hni : n.Live ∧ n.inum = i
  · obtain ⟨hl, rfl⟩ := hni
    rw [h.view_setInode hl (hu hl.1), hn hl]
  by_cases hpi : (t.icache p).Live ∧ (t.icache p).inum = i
  · obtain ⟨hl, rfl⟩ := hpi
    rw [h.view_live hl, hp hl hni, view_none fun q => ?_]
    · rfl
    rw [setInode_icache]
    split_ifs with hq
    · exact fun hl' e => hni ⟨hl', e⟩
    · exact fun hl' e => hq (h q p hl'.1 hl.1 e)
  · exact Store.view_setInode hpi hni

/-- The file system during a walk that began in `t₀` and holds the references `hs`. The
entries that it brought into the cache are copies of the disk inodes. -/
structure Walk (t₀ : Store) (hs : List Ptr) (t : Store) : Prop where
  wf : t.Wf
  sb : t.sb = t₀.sb
  blocks : t.blocks = t₀.blocks
  view : ∀ i, t.view i = t₀.view i
  ref : ∀ p, (t.icache p).ref = (t₀.icache p).ref + hs.count p
  inum : ∀ p, 0 < (t₀.icache p).ref → (t.icache p).inum = (t₀.icache p).inum
  known : ∀ p ∈ hs, 0 < (t₀.icache p).ref ∨ t₀.Named (t.icache p).inum
  clean : ∀ p, (t₀.icache p).ref ≤ 0 → (t.icache p).Live →
    (t.icache p).d = t.dinode (t.icache p).inum

theorem Consistent.walk (h : t.Consistent) : Walk t [] t where
  wf := h.wf
  sb := rfl
  blocks := rfl
  view _ := rfl
  ref p := by simp
  inum _ _ := rfl
  known p hp := absurd hp not_mem_nil
  clean p hp hl := absurd hl.1 (by omega)

theorem Walk.setInode (h : Walk t₀ hs t) {n : Inode} {hs' : List Ptr}
    (hw : (t.setInode p n).Wf) (hi : 0 < (t₀.icache p).ref → n.inum = (t.icache p).inum)
    (hr : n.ref = (t₀.icache p).ref + hs'.count p) (hcount : ∀ q, q ≠ p → hs'.count q = hs.count q)
    (hk : p ∈ hs' → 0 < (t₀.icache p).ref ∨ t₀.Named n.inum) (hd : n.Live → n.d = t.view n.inum)
    (hc : (t₀.icache p).ref ≤ 0 → n.Live → n.d = t.dinode n.inum)
    (hp : (t.icache p).Live → ¬(n.Live ∧ n.inum = (t.icache p).inum) →
      (t.icache p).d = t.dinode (t.icache p).inum) : Walk t₀ hs' (t.setInode p n) where
  wf := hw
  sb := h.sb
  blocks := h.blocks
  view i := by
    rw [← h.view i]
    refine h.wf.unique.view_setInode_eq (fun hn q hq hq' e => hq ?_) hd hp i
    exact hw.unique q p (by rwa [setInode_ne hq]) (by rwa [setInode_self]) (by
      rwa [setInode_ne hq, setInode_self])
  ref q := by
    rw [setInode_icache]
    split_ifs with hq
    · rw [hr, hq]
    · rw [h.ref q, hcount q hq]
  inum q hq := by
    rw [setInode_icache]
    split_ifs with hqp
    · subst hqp
      rw [hi hq, h.inum q hq]
    · exact h.inum q hq
  known q hq := by
    rw [setInode_icache]
    split_ifs with hqp
    · subst hqp
      exact hk hq
    · refine h.known q (count_pos_iff.mp ?_)
      rw [← hcount q hqp]
      exact count_pos_iff.mpr hq
  clean q := by
    rw [setInode_icache]
    split_ifs with hqp
    · subst hqp
      exact hc
    · exact h.clean q

theorem Walk.lt (h : Walk t₀ hs t) (hc : t₀.Consistent) (hp : p ∈ hs) :
    (t.icache p).inum < t.sb.ninodes := by
  rw [h.sb]
  rcases h.known p hp with hr | hn
  · rw [h.inum p hr]
    exact hc.ref_lt p hr
  · exact hc.named_lt _ hn

theorem Walk.ref_pos (h : Walk t₀ hs t) (hp : 0 < (t₀.icache p).ref) : 0 < (t.icache p).ref := by
  rw [h.ref p]
  omega

theorem Walk.consistent (h : Walk t₀ hs t) (hc : t₀.Consistent) : t.Consistent := by
  have halloc : ∀ i, t.Allocated i ↔ t₀.Allocated i := fun i => by
    unfold Allocated dinode
    rw [h.sb, h.blocks]
  have hnamed : ∀ i, t.Named i ↔ t₀.Named i := fun i => by
    unfold Named dirent byteAt slot
    simp only [halloc, h.view, h.blocks]
  have hheld : t.held = t₀.held := by
    funext x
    unfold held slot
    simp only [halloc, h.view, h.blocks]
  refine ⟨h.wf, ?_, ?_, ?_, ?_⟩
  · intro i hi
    rw [h.view, hheld]
    exact hc.backed i ((halloc i).mp hi)
  · intro i hi
    rw [h.sb]
    exact hc.named_lt i ((hnamed i).mp hi)
  · intro i hn ha hl
    have hl' : (t₀.dinode i).nlink = 0 := by
      unfold dinode at hl ⊢
      rwa [← h.sb, ← h.blocks]
    obtain ⟨p, hp, rfl⟩ := hc.named_linked i ((hnamed i).mp hn) ((halloc i).mp ha) hl'
    exact ⟨p, h.ref_pos hp, h.inum p hp⟩
  · intro p hp
    by_cases hr : 0 < (t₀.icache p).ref
    · rw [h.sb, h.inum p hr]
      exact hc.ref_lt p hr
    · refine h.lt hc (count_pos_iff.mp ?_)
      have := h.ref p
      omega

end Store

namespace Fs

/-! Reading what is there. -/

theorem readFrom_held (hw : s.toStore.Wf) (hp : (s.icache p).Live) (off len : ℕ)
    (hb : ∀ bn, bn * BSIZE < off + len →
      ∃ b, s.toStore.held ((s.icache p).inum, slotIdx bn) = some b) : readFrom p off len s =
      .ok ((range len).map fun k => s.toStore.byteAt (s.icache p).inum (off + k)) s := by
  have hview := hw.unique.view_live hp
  rw [readFrom_backed off len fun bn hbn => ?_]
  · unfold fileBytes fileByte byteAt slot
    rw [hview]
  · obtain ⟨b, hheld⟩ := hb bn hbn
    obtain ⟨-, hk, hslot, hb0⟩ := held_iff.mp hheld
    unfold slot at hslot
    rw [hview] at hslot
    refine ⟨?_, by rwa [hslot]⟩
    unfold slotIdx at hk
    split_ifs at hk with hd
    · exact hd.trans (by decide)
    · exact hk

theorem readi_held (hw : s.toStore.Wf) (hp : (s.icache p).Live) (hfull : Full s.toStore p)
    (hdir : (s.icache p).d.type = T_DIR) (off len : ℕ) :
    ∃ r, ops.readi p off len s = .ok r s ∧ (0 < len → r.1 = len →
      off + len ≤ (s.icache p).d.size.toNat ∧
        r.2 = (range len).map fun k => s.toStore.byteAt (s.icache p).inum (off + k)) := by
  have hbs : ∀ m, off + m ≤ (s.icache p).d.size.toNat → ops.readFrom p off m s =
      .ok ((range m).map fun k => s.toStore.byteAt (s.icache p).inum (off + k)) s :=
    fun m hm => readFrom_held hw hp off m fun bn hbn => hfull bn (by omega)
  change ∃ r, (if (s.icache p).d.type = T_DEV then _ else _ : FsM _) s = _ ∧ _
  rw [if_neg (by rw [hdir]; decide)]
  dsimp only
  split_ifs with hbad hend
  · exact ⟨_, rfl, fun _ h => absurd h (by simp)⟩
  · refine ⟨_, by rw [Exec.bind_apply, hbs _ (by omega)]; rfl, fun h h' => ?_⟩
    have h' : (((s.icache p).d.size.toNat - off : ℕ) : ℤ) = len := h'
    omega
  · exact ⟨_, by rw [Exec.bind_apply, hbs _ (by omega)]; rfl, fun _ _ => ⟨by omega, rfl⟩⟩

theorem scan_held {t : Store} (ht : s.toStore = t) (hw : t.Wf) (hp : (t.icache p).Live)
    (hfull : Full t p) (hdir : (t.icache p).d.type = T_DIR) {err : Panic}
    (herr : err ≠ .freeingFreeBlock) (stop : Dirent → Bool) (fuel off : ℕ)
    (hoff : DIRENTSIZE ∣ off) :
    Does X n (ops.scan p err stop fuel off) (fun r t' => t' = t ∧ DIRENTSIZE ∣ r.2 ∧
      ∀ de, r.1 = some de → stop de = true ∧ de = t.dirent (t.icache p).inum r.2 ∧
        r.2 + DIRENTSIZE ≤ (t.icache p).d.size.toNat) s := by
  induction fuel generalizing s off with
  | zero => exact .pure ⟨ht, hoff, by simp⟩
  | succ fuel ih =>
    rw [FsOps.scan, does_ops_inode_bind]
    split_ifs
    · obtain ⟨r, hr, hlen⟩ := readi_held (ht ▸ hw) (ht ▸ hp) (ht ▸ hfull) (ht ▸ hdir) off DIRENTSIZE
      have hread : Does X 0 (ops.readi p off DIRENTSIZE) (fun a t => a = r ∧ t = s.toStore) s :=
        swp.of_store hr ⟨.nil, rfl, rfl⟩
      refine hread.seq fun a t' h bs ha => ?_
      obtain ⟨rfl, rfl⟩ := ha
      refine .panicIf_bind herr fun hok => ?_
      obtain ⟨hsize, hbytes⟩ := hlen (by decide) (not_not.mp hok)
      dsimp only
      split_ifs with hstop
      · refine .pure ⟨ht, hoff, fun de hde => ?_⟩
        obtain rfl := Option.some.inj hde
        refine ⟨hstop, ?_, ht ▸ hsize⟩
        rw [hbytes, ht]
        rfl
      · exact ih (s := s.wrote s.toStore h bs) ht (off + DIRENTSIZE) (hoff.add (dvd_refl _))
    · exact .pure ⟨ht, hoff, by simp⟩

theorem scanAll_held (hw : s.toStore.Wf) (hp : (s.icache p).Live) (hfull : Full s.toStore p)
    (hdir : (s.icache p).d.type = T_DIR) {err : Panic} (herr : err ≠ .freeingFreeBlock)
    (stop : Dirent → Bool) {off : ℕ} (hoff : DIRENTSIZE ∣ off) :
    Does X n (ops.scanAll p err stop off) (fun r t => t = s.toStore ∧ DIRENTSIZE ∣ r.2 ∧
      ∀ de, r.1 = some de → stop de = true ∧ de = s.toStore.dirent (s.icache p).inum r.2 ∧
        r.2 + DIRENTSIZE ≤ (s.icache p).d.size.toNat) s := by
  rw [FsOps.scanAll, does_ops_inode_bind]
  exact scan_held rfl hw hp hfull hdir herr stop _ off hoff

theorem dirlookup_held (hw : s.toStore.Wf) (hp : (s.icache p).Live) (hfull : Full s.toStore p)
    (name : Str) : Does X n (ops.dirlookup p name) (fun r t => t.Wf ∧ (r = none → t = s.toStore) ∧
      (s.icache p).d.type = T_DIR ∧ ∀ ip off, r = some (ip, off) → DIRENTSIZE ∣ off ∧
        off + DIRENTSIZE ≤ (s.icache p).d.size.toNat ∧
        (s.toStore.dirent (s.icache p).inum off).inum ≠ 0 ∧
        ∃ a, IgetTo s.toStore (s.toStore.dirent (s.icache p).inum off).inum ip a ∧
          t = s.toStore.setInode ip a) s := by
  rw [FsOps.dirlookup, does_ops_inode_bind]
  refine .panicIf_bind (by decide) fun hdir => ?_
  replace hdir := not_not.mp hdir
  refine (scanAll_held hw hp hfull hdir (by decide) _ (dvd_zero _)).seq fun r t h bs ht => ?_
  obtain ⟨rfl, hoff, hde⟩ := ht
  cases hr : r.1 with
  | none => exact .pure ⟨hw, fun _ => rfl, hdir, by simp⟩
  | some de =>
    obtain ⟨hstop, rfl, hsize⟩ := hde de hr
    have hne : (s.toStore.dirent (s.icache p).inum r.2).inum ≠ 0 := by
      simp only [Bool.and_eq_true, decide_eq_true_eq] at hstop
      exact hstop.1
    refine Does.seq (iget_spec (s := s.wrote s.toStore h bs) hw _) fun ip t' _ _ ht' => .pure ?_
    refine ⟨ht'.1, by simp, hdir, fun ip' off hsome => ?_⟩
    obtain ⟨rfl, rfl⟩ := Prod.mk.inj (Option.some.inj hsome)
    exact ⟨hoff, hsize, hne, ht'.2⟩

end Fs

namespace Store

open Fs (IgetTo lockedInode Full)

section

variable (h : Walk t₀ hs t)
include h

theorem Walk.perm {hs' : List Ptr} (hp : hs.Perm hs') : Walk t₀ hs' t :=
  { h with
    ref := fun p => by rw [h.ref p, hp.count_eq]
    known := fun p hm => h.known p (hp.mem_iff.mpr hm) }

theorem Walk.full (hc : t₀.Consistent) (hp : (t.icache p).Live) : Full t p := by
  intro bn hbn
  rw [← h.wf.unique.view_live hp] at hbn
  exact (h.consistent hc).backed _ (h.wf.loaded p hp).1 bn hbn

theorem Walk.iget (hi : t₀.Named i) {a : Inode} (hto : IgetTo t i p a) :
    Walk t₀ (p :: hs) (t.setInode p a) := by
  have hw := h.wf.quiet (hto.quiet h.wf)
  have hcount : ∀ q, q ≠ p → (p :: hs).count q = hs.count q := fun q hq =>
    count_cons_of_ne hq.symm
  have href := h.ref p
  rcases hto with ⟨hr, rfl, rfl⟩ | ⟨hr, -, rfl⟩
  · refine h.setInode hw (fun _ => rfl) ?_ hcount (fun _ => .inr hi) (fun hl => ?_) (fun hz hl => ?_)
      fun hl hn => absurd ⟨⟨Int.add_pos hl.1 one_pos, hl.2⟩, rfl⟩ hn
    · rw [count_cons_self]
      push_cast
      omega
    · exact (h.wf.unique.view_live ⟨hr, hl.2⟩).symm
    · exact h.clean p hz ⟨hr, hl.2⟩
  · refine h.setInode hw (fun hz => ?_) ?_ hcount (fun _ => .inr hi) (fun hl => ?_) (fun _ hl => ?_)
      fun hl _ => absurd hl.1 (by omega)
    · have := Int.natCast_nonneg (hs.count p)
      omega
    · rw [count_cons_self]
      push_cast
      omega
    · exact absurd hl.2 Bool.false_ne_true
    · exact absurd hl.2 Bool.false_ne_true

theorem Walk.idup (hp : 0 < (t₀.icache p).ref) :
    Walk t₀ (p :: hs) (t.setInode p { t.icache p with ref := (t.icache p).ref + 1 }) := by
  have href := h.ref p
  have hr : 0 < (t.icache p).ref := h.ref_pos hp
  have hq := h.wf.quiet_fields (n := { t.icache p with ref := (t.icache p).ref + 1 }) hr
    (Int.add_pos hr one_pos) rfl rfl rfl fun hl => (h.wf.loaded p hl).2
  refine h.setInode (h.wf.quiet hq) (fun _ => rfl) ?_ (fun q hq => count_cons_of_ne hq.symm)
    (fun _ => .inl hp) (fun hl => (h.wf.unique.view_live ⟨hr, hl.2⟩).symm)
    (fun hz => absurd hp (by omega)) fun hl hn => absurd ⟨⟨Int.add_pos hr one_pos, hl.2⟩, rfl⟩ hn
  rw [count_cons_self]
  push_cast
  omega

theorem Walk.lock {n : Inode} (hq : Quiet t p n)
    (hi : n.inum = (t.icache p).inum) (hr : n.ref = (t.icache p).ref)
    (hd : n.Live → if (t.icache p).valid then n.d = (t.icache p).d
      else n.d = t.dinode (t.icache p).inum) : Walk t₀ hs (t.setInode p n) := by
  have href := h.ref p
  refine h.setInode (h.wf.quiet hq) (fun _ => hi) (hr.trans href) (fun _ _ => rfl) ?_ ?_ ?_ ?_
  · rw [hi]
    exact h.known p
  · intro hl
    have hd := hd hl
    rw [hi]
    split_ifs at hd with hv
    · rw [h.wf.unique.view_live ⟨hr ▸ hl.1, hv⟩, hd]
    · rw [hd, view_none fun q hq' e => ?_]
      have hqp := h.wf.unique q p hq'.1 (hr ▸ hl.1) e
      exact hv (hqp ▸ hq'.2)
  · intro hz hl
    have hd := hd hl
    rw [hi]
    split_ifs at hd with hv
    · rw [hd]
      exact h.clean p hz ⟨hr ▸ hl.1, hv⟩
    · exact hd
  · intro hl hn
    obtain ⟨hl', hi', -⟩ := hq.kept hl
    exact absurd ⟨hl', hi'⟩ hn

end

theorem Walk.not_free (h : Walk t₀ (p :: hs) t) (hc : t₀.Consistent) :
    ¬((t.icache p).valid = true ∧ (t.icache p).d.nlink = 0 ∧ (t.icache p).ref = 1) := by
  rintro ⟨hv, hl, hr⟩
  have hlive : (t.icache p).Live := ⟨by omega, hv⟩
  have href := h.ref p
  rw [count_cons_self] at href
  push_cast at href
  have hz : (t₀.icache p).ref ≤ 0 := by omega
  have hd := h.clean p hz hlive
  have hd0 : t.dinode (t.icache p).inum = t₀.dinode (t.icache p).inum := by
    unfold dinode
    rw [h.sb, h.blocks]
  have ha : t₀.Allocated (t.icache p).inum := by
    have := (h.wf.loaded p hlive).1
    unfold Allocated at this ⊢
    rwa [h.sb, hd0] at this
  rcases h.known p mem_cons_self with hk | hk
  · omega
  obtain ⟨q, hq, hqi⟩ := hc.named_linked _ hk ha (by rw [← hd0, ← hd, hl])
  have hqp := h.wf.unique q p (h.ref_pos hq) hlive.1 ((h.inum q hq).trans hqi)
  rw [hqp] at hq
  omega

theorem Walk.drop (h : Walk t₀ (p :: hs) t) :
    Walk t₀ hs (t.setInode p { t.icache p with lock := none, ref := (t.icache p).ref - 1 }) := by
  have href := h.ref p
  rw [count_cons_self] at href
  push_cast at href
  have hw : (t.setInode p { t.icache p with lock := none, ref := (t.icache p).ref - 1 }).Wf := by
    have := Fs.wf_unref (p := p) (h.wf.quiet (h.wf.quiet_lock (p := p) none))
    rwa [setInode_self, setInode_setInode] at this
  refine h.setInode hw (fun _ => rfl) ?_ (fun q hq => (count_cons_of_ne hq.symm).symm)
    (fun hm => h.known p (mem_cons_of_mem p hm)) (fun hl => ?_) (fun hz hl => ?_)
    fun hl hn => ?_
  · change (t.icache p).ref - 1 = _
    omega
  · have hl' : 0 < (t.icache p).ref - 1 := hl.1
    exact (h.wf.unique.view_live ⟨by omega, hl.2⟩).symm
  · have hl' : 0 < (t.icache p).ref - 1 := hl.1
    exact h.clean p hz ⟨by omega, hl.2⟩
  · refine h.clean p (not_lt.mp fun hpos => hn ⟨⟨?_, hl.2⟩, rfl⟩) hl
    change 0 < (t.icache p).ref - 1
    omega

end Store

namespace Fs

open Store (Walk)

/-! The functions of a walk. -/

def Others (p : Ptr) (t t' : Store) : Prop := ∀ q, q ≠ p → t'.icache q = t.icache q

theorem walk_ilock (hc : t₀.Consistent) (h : Walk t₀ hs s.toStore) (hp : p ∈ hs) :
    Does X n (ops.ilock p) (fun _ t => Walk t₀ hs t ∧ (t.icache p).Live ∧
      (s.icache p).lock = none ∧ (t.icache p).lock = some 0 ∧ Others p s.toStore t) s := by
  refine (ilock_spec h.wf fun _ => h.lt hc hp).weaken fun _ t ht => ?_
  obtain ⟨hq, hr, hl, rfl⟩ := ht
  refine ⟨h.lock hq rfl rfl fun _ => ?_, ?_, hl, ?_, fun q hqp => setInode_ne hqp⟩
  · unfold lockedInode
    split_ifs <;> rfl
  · rw [setInode_self]
    exact ⟨hr, rfl⟩
  · rw [setInode_self]
    rfl

theorem walk_iunlock (h : Walk t₀ hs s.toStore) :
    Does X n (ops.iunlock p) (fun _ t => Walk t₀ hs t ∧ Others p s.toStore t) s := by
  refine iunlock_spec.weaken fun _ t ht => ?_
  subst ht
  refine ⟨h.lock (h.wf.quiet_lock none) rfl rfl fun hl => ?_, fun q hqp => setInode_ne hqp⟩
  rw [if_pos hl.2]

theorem does_pure_bind {α β : Type} {a : α} {f : α → FsM β} {R : β → Store → Prop} :
    Does X n ((Pure.pure a : FsM α) >>= f) R s ↔ Does X n (f a) R s := Iff.rfl

section

variable (hc : t₀.Consistent)
include hc

theorem walk_iput (h : Walk t₀ (p :: hs) s.toStore) :
    Does X n (ops.iput p) (fun _ t => Walk t₀ hs t) s := by
  rw [FsOps.iput, ops_note_bind]
  refine (does_acquiresleep p).seq fun _ t _ _ ht => ?_
  obtain ⟨-, rfl⟩ := ht
  rw [does_ops_inode_bind]
  have hfree : ((s.icache p).valid && (s.icache p).d.nlink == 0 && (s.icache p).ref == 1) = false := by
    have := h.not_free hc
    rw [Bool.eq_false_iff]
    simpa [and_assoc] using this
  simp only [wrote_toStore, setInode_self, hfree, Bool.false_eq_true, if_false]
  rw [does_pure_bind]
  refine (does_releasesleep p).seq fun _ t2 _ _ ht2 => ?_
  refine (does_modifyInode p _).weaken fun _ t3 ht3 => ?_
  subst ht2 ht3
  simp only [wrote_toStore, setInode_setInode, setInode_self]
  exact h.drop

theorem walk_iunlockput (h : Walk t₀ (p :: hs) s.toStore) :
    Does X n (ops.iunlockput p) (fun _ t => Walk t₀ hs t) s := by
  unfold FsOps.iunlockput
  exact Does.seq (walk_iunlock h) fun _ t _ _ ht => walk_iput hc ht.1

theorem walk_dirlookup (h : Walk t₀ hs s.toStore) (hp : (s.icache p).Live)
    (name : Str) : Does X n (ops.dirlookup p name) (fun r t => (s.icache p).d.type = T_DIR ∧
      (r = none → t = s.toStore) ∧ ∀ ip off, r = some (ip, off) → Walk t₀ (ip :: hs) t ∧
        DIRENTSIZE ∣ off ∧ ∃ i a, IgetTo s.toStore i ip a ∧ t = s.toStore.setInode ip a) s := by
  refine (dirlookup_held h.wf hp (h.full hc hp) name).weaken fun r t ht => ?_
  obtain ⟨-, hnone, hdir, hsome⟩ := ht
  refine ⟨hdir, hnone, fun ip off hr => ?_⟩
  obtain ⟨hoff, hsize, hne, a, hto, rfl⟩ := hsome ip off hr
  refine ⟨h.iget ?_ hto, hoff, _, a, hto, rfl⟩
  have hview := h.wf.unique.view_live hp
  have ha := (h.wf.loaded p hp).1
  have hd : s.toStore.dirent (s.icache p).inum off = t₀.dirent (s.icache p).inum off := by
    unfold dirent byteAt slot
    rw [h.view, h.blocks]
  refine .inr ⟨(s.icache p).inum, off, ?_, ?_, hoff, ?_, by rw [hd], hne⟩
  · unfold Allocated dinode at ha ⊢
    rwa [h.sb, h.blocks] at ha
  · rw [← h.view, hview, hdir]
  · rw [← h.view, hview]
    exact hsize

theorem walk_spec (parent : Bool) (names : List Str) (h : Walk t₀ [p] s.toStore) :
    Does X n (ops.walk parent p names) (fun r t => Walk t₀ (r.map Prod.fst).toList t) s := by
  induction names generalizing s p with
  | nil =>
    unfold FsOps.walk
    split_ifs
    · exact Does.seq (walk_iput hc h) fun _ t _ _ ht => .pure ht
    · exact .pure h
  | cons name rest ih =>
    unfold FsOps.walk
    refine (walk_ilock hc h mem_cons_self).seq fun _ t1 _ _ ht1 => ?_
    obtain ⟨h1, hp1, -⟩ := ht1
    rw [does_ops_inode_bind]
    split_ifs
    · exact Does.seq (walk_iunlockput hc h1) fun _ t _ _ ht => .pure ht
    · exact Does.seq (walk_iunlock h1) fun _ t _ _ ht => .pure ht.1
    · refine Does.seq (walk_dirlookup hc h1 hp1 name) fun r t2 _ _ ht2 => ?_
      obtain ⟨-, hnone, hsome⟩ := ht2
      cases r with
      | none =>
        obtain rfl := hnone rfl
        exact Does.seq (walk_iunlockput hc h1) fun _ t _ _ ht => .pure ht
      | some r =>
        obtain ⟨next, off⟩ := r
        have h2 := ((hsome next off rfl).1).perm (List.Perm.swap p next [])
        exact Does.seq (walk_iunlockput hc h2) fun _ t _ _ ht => ih ht

end

theorem namex_spec (hc : s.toStore.Consistent) (hcwd : ∀ p, s.cwd = some p → 0 < (s.icache p).ref)
    (path : Str) (parent : Bool) :
    Does X n (ops.namex path parent) (fun r t => Walk s.toStore (r.map Prod.fst).toList t) s := by
  unfold FsOps.namex
  dsimp only
  split_ifs
  · refine Does.seq (iget_spec hc.wf ROOTINO) fun p t _ _ ht => ?_
    obtain ⟨-, a, hto, rfl⟩ := ht
    exact walk_spec hc parent _ (hc.walk.iget (.inl rfl) hto)
  · rw [does_ops_cwd_bind]
    cases hp : s.cwd with
    | none => exact .panic (by decide)
    | some p =>
      refine Does.seq (idup_spec hc.wf (hcwd p hp)) fun _ t _ _ ht => ?_
      obtain ⟨-, rfl⟩ := ht
      exact walk_spec hc parent _ (hc.walk.idup (hcwd p hp))

theorem namei_spec (hc : s.toStore.Consistent) (hcwd : ∀ p, s.cwd = some p → 0 < (s.icache p).ref)
    (path : Str) : Does X n (ops.namei path) (fun r t => Walk s.toStore r.toList t) s := by
  unfold FsOps.namei
  exact Does.seq (namex_spec hc hcwd path false) fun r t _ _ ht => .pure ht

end Fs

end Xv6
