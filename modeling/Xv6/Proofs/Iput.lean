import Xv6.Proofs.InodeBlocks
import Xv6.Proofs.Ownership
import Xv6.Spec.Iput

/-! The last reference frees an unlinked inode, as long as no process reads `ref` while
another is about to decrement it. Without that, two processes can each take the other's
reference for one that stays. The steps of one process alone compute `iput`. -/

open Function Finset

namespace Xv6.Droppers

open Trans

variable {P : Type} {ip : Ptr} {s s' s₀ : Droppers P} {p q : P}

theorem step_cases [DecidableEq P] {a : IputAct P} (h : step ip s a = some s') :
    (∃ p, a = .acquiresleep p ∧ s.pc p = .idle ∧ (s.fs.icache ip).lock = none ∧
      s' = { s with
        fs.toStore := s.fs.toStore.setInode ip { s.fs.icache ip with lock := some 0 }
        pc := update s.pc p .locked }) ∨
    (∃ p, a = .readRef p ∧ s.pc p = .locked ∧ unlinked (s.fs.icache ip) = true ∧
      s' = { s with pc := update s.pc p (.tested (s.fs.icache ip).ref) }) ∨
    (∃ p fs, a = .free p ∧ s.pc p = .tested 1 ∧ Fs.ops.ifree ip s.fs = .ok () fs ∧
      s' = { s with fs := fs, pc := update s.pc p .freed, frees := s.frees + 1 }) ∨
    (∃ p e, a = .free p ∧ s' = { s with panic := some e }) ∨
    (∃ p, a = .releasesleep p ∧ mayRelease (s.fs.icache ip) (s.pc p) = true ∧
      s' = { s with
        fs.toStore := s.fs.toStore.setInode ip { s.fs.icache ip with lock := none }
        pc := update s.pc p .unlocked }) ∨ ∃ p, a = .unref p ∧ s.pc p = .unlocked ∧ s' = { s with
        fs.toStore := s.fs.toStore.setInode ip
          { s.fs.icache ip with ref := (s.fs.icache ip).ref - 1 }
        pc := update s.pc p .idle
        refs := update s.refs p (s.refs p - 1) } := by
  cases a with
  | acquiresleep p =>
    simp only [step, Fs.acquiresleep_apply] at h
    split_ifs at h with hc hl
    exact .inl ⟨p, rfl, hc.2.1, by simpa using hl, (Option.some.inj h).symm⟩
  | readRef p =>
    simp only [step] at h
    split_ifs at h with hc
    exact .inr (.inl ⟨p, rfl, hc.2.1, hc.2.2, (Option.some.inj h).symm⟩)
  | free p =>
    simp only [step] at h
    split_ifs at h with hc
    split at h
    · rename_i u fs hfree
      exact .inr (.inr (.inl ⟨p, fs, rfl, hc.2, hfree, (Option.some.inj h).symm⟩))
    · rename_i e fs hfree
      exact .inr (.inr (.inr (.inl ⟨p, e, rfl, (Option.some.inj h).symm⟩)))
  | releasesleep p =>
    simp only [step] at h
    split_ifs at h with hc
    exact .inr (.inr (.inr (.inr (.inl ⟨p, rfl, hc.2, (Option.some.inj h).symm⟩))))
  | unref p =>
    simp only [step] at h
    split_ifs at h with hc
    exact .inr (.inr (.inr (.inr (.inr ⟨p, rfl, hc.2, (Option.some.inj h).symm⟩))))

/-! One process alone. -/

def dropRef (ip : Ptr) : FsM Unit := do
  Fs.ops.releasesleep ip
  Fs.ops.modifyInode ip fun n => { n with ref := n.ref - 1 }

variable {fs : Fs}

theorem run_dropRef [DecidableEq P] (hn : s.panic = none)
    (hp : mayRelease (s.fs.icache ip) (s.pc p) = true) (h : dropRef ip s.fs = .ok () fs) :
    ∃ s', Run (step ip) Any s [.releasesleep p, .unref p] s' ∧ s'.fs = fs := by
  have h1 : step ip s (.releasesleep p) = some { s with
      fs.toStore := s.fs.toStore.setInode ip { s.fs.icache ip with lock := none }
      pc := update s.pc p .unlocked } := if_pos ⟨hn, hp⟩
  obtain ⟨s2, h2, hfs⟩ : ∃ s2, step ip { s with
      fs.toStore := s.fs.toStore.setInode ip { s.fs.icache ip with lock := none }
      pc := update s.pc p .unlocked } (.unref p) = some s2 ∧ .ok () s2.fs = dropRef ip s.fs :=
    ⟨_, if_pos ⟨hn, update_self ..⟩, rfl⟩
  rw [h] at hfs
  injection hfs with _ hfs
  exact ⟨s2, .snoc (.snoc (.nil s) trivial h1) trivial h2, hfs⟩

def iputSteps (p : P) (n : Inode) : List (IputAct P) :=
  [.acquiresleep p] ++
    (if unlinked n then [.readRef p] ++ (if n.ref = 1 then [.free p] else []) else []) ++
    [.releasesleep p, .unref p]

theorem iput_alone [DecidableEq P] (hn : s.panic = none) (hp : s.pc p = .idle)
    (hr : 0 < s.refs p) (h : Fs.ops.iput ip s.fs = .ok () fs) :
    ∃ s', Run (step ip) Any s (iputSteps p (s.fs.icache ip)) s' ∧ s'.fs = fs := by
  rw [FsOps.iput, Fs.ops_note_bind, Exec.bind_apply, Fs.acquiresleep_apply] at h
  split_ifs at h with hl
  set t : Droppers P := { s with
    fs.toStore := s.fs.toStore.setInode ip { s.fs.icache ip with lock := some 0 }
    pc := update s.pc p .locked } with ht
  have h1 : Run (step ip) Any s [.acquiresleep p] t := by
    refine .snoc (.nil s) trivial ?_
    simp only [step, Fs.acquiresleep_apply]
    rw [if_pos ⟨hn, hp, hr⟩, if_neg hl]
  have hunl : unlinked (t.fs.icache ip) = unlinked (s.fs.icache ip) := by simp [ht, unlinked]
  have href : (t.fs.icache ip).ref = (s.fs.icache ip).ref := by simp [ht]
  have htp : t.pc p = .locked := update_self ..
  replace h : ((if (unlinked (t.fs.icache ip) && (t.fs.icache ip).ref == 1) = true then
      Fs.ops.ifree ip else pure ()) >>= fun _ => dropRef ip) t.fs = .ok () fs := h
  rw [hunl, href] at h
  unfold iputSteps
  by_cases hu : unlinked (s.fs.icache ip) = true
  · set u : Droppers P := { t with pc := update t.pc p (.tested (t.fs.icache ip).ref) } with hu'
    have h2 : Run (step ip) Any t [.readRef p] u :=
      .snoc (.nil t) trivial (if_pos ⟨hn, htp, hunl.trans hu⟩)
    have hup : u.pc p = .tested (s.fs.icache ip).ref := by
      rw [hu', ← href]
      exact update_self ..
    by_cases hone : (s.fs.icache ip).ref = 1
    · simp only [hu, hone, beq_self_eq_true, Bool.and_self, if_true, Exec.bind_apply] at h
      cases hfree : Fs.ops.ifree ip t.fs with
      | halt e f =>
        rw [hfree] at h
        cases h
      | ok _ f =>
        rw [hfree] at h
        have h3 : step ip u (.free p) = some { u with
            fs := f, pc := update u.pc p .freed, frees := u.frees + 1 } := by
          simp only [step]
          rw [if_pos ⟨hn, by rw [hup, hone]⟩]
          rw [show Fs.ops.ifree ip u.fs = .ok () f from hfree]
        obtain ⟨s', hrun, hfs⟩ := run_dropRef (p := p) (s := { u with
            fs := f, pc := update u.pc p .freed, frees := u.frees + 1 }) hn
          (by simp [mayRelease]) h
        rw [if_pos hu, if_pos hone]
        exact ⟨s', ((h1.append (h2.append (.snoc (.nil u) trivial h3))).append hrun), hfs⟩
    · simp only [hu, beq_eq_false_iff_ne.mpr hone, Bool.and_false, Bool.false_eq_true, if_false] at h
      obtain ⟨s', hrun, hfs⟩ := run_dropRef (p := p) (s := u) hn
        (by rw [hup]; simpa [mayRelease] using hone) h
      rw [if_pos hu, if_neg hone]
      exact ⟨s', (h1.append h2).append hrun, hfs⟩
  · rw [Bool.not_eq_true] at hu
    simp only [hu, Bool.false_and, Bool.false_eq_true, if_false] at h
    obtain ⟨s', hrun, hfs⟩ := run_dropRef (p := p) (s := t) hn
      (by rw [htp]; simp [mayRelease, hunl, hu]) h
    rw [hu, if_neg Bool.false_ne_true]
    exact ⟨s', h1.append hrun, hfs⟩

/-! The invariant. -/

def Holding : IputPc → Prop
  | .locked | .tested _ | .freed => True
  | .idle | .unlocked => False

structure Freed (ip : Ptr) (s₀ s : Droppers P) : Prop where
  once : FreedOnce ip s₀ s
  valid : (s.fs.icache ip).valid = false
  tested : ∀ p r, s.pc p ≠ .tested r

variable {v : IputPc}

theorem Freed.move [DecidableEq P] (h : Freed ip s₀ s) {n : Inode} {refs : P → ℕ}
    (hn : n.valid = (s.fs.icache ip).valid) (hv : ∀ r, v ≠ .tested r) : Freed ip s₀ { s with
      fs.toStore := s.fs.toStore.setInode ip n
      pc := update s.pc p v
      refs := refs } := by
  refine ⟨h.once, ?_, fun q r => ?_⟩
  · simp only [Store.setInode_self, hn, h.valid]
  · simp only [update_apply]
    split_ifs
    · exact hv r
    · exact h.tested q r

variable {pc : P → IputPc}

theorem holding_update [DecidableEq P]
    (h : Holding (update pc p v q)) : q = p ∧ Holding v ∨ Holding (pc q) := by
  rw [update_apply] at h
  split_ifs at h with hq
  · exact .inl ⟨hq, h⟩
  · exact .inr h

theorem holding_of_mayRelease {n : Inode} {pc : IputPc} (h : mayRelease n pc = true) :
    Holding pc := by
  cases pc with
  | locked | tested | freed => exact trivial
  | idle | unlocked => exact absurd h Bool.false_ne_true

variable [Fintype P]

def leaving (pc : P → IputPc) : Finset P := univ.filter fun q => pc q = .unlocked

/-- The inode has not been freed: there are more references than processes about to drop
one, and a process that has read `ref` holds its true value. -/
structure Kept (ip : Ptr) (s₀ s : Droppers P) : Prop where
  frees : s.frees = 0
  wf : s.fs.toStore.Wf
  valid : (s.fs.icache ip).valid = true
  nlink : (s.fs.icache ip).d.nlink = 0
  held : s.fs.toStore.held = s₀.fs.toStore.held
  ref : ((leaving s.pc).card : ℤ) < (s.fs.icache ip).ref
  notFreed : ∀ p, s.pc p ≠ .freed
  tested : ∀ p r, s.pc p = .tested r → r = (s.fs.icache ip).ref ∧ leaving s.pc = ∅

structure Inv (ip : Ptr) (s₀ s : Droppers P) : Prop where
  inum : (s.fs.icache ip).inum = (s₀.fs.icache ip).inum
  locked : ∀ p, Holding (s.pc p) → (s.fs.icache ip).lock ≠ none
  exclusive : ∀ p q, Holding (s.pc p) → Holding (s.pc q) → p = q
  phase : Kept ip s₀ s ∨ Freed ip s₀ s

theorem Start.inv (h : Start ip s) : Inv ip s s := by
  have hidle : ∀ p, ¬Holding (s.pc p) := fun p => by simp [h.idle p, Holding]
  have hleave : leaving s.pc = ∅ := by simp [leaving, h.idle]
  refine ⟨rfl, fun p hp => absurd hp (hidle p), fun p _ hp => absurd hp (hidle p), .inl ?_⟩
  refine ⟨h.frees, h.wf, h.live.2, h.nlink, rfl, ?_, fun p hp => ?_, fun p r hp => ?_⟩
  · simpa [hleave] using h.live.1
  · simp [h.idle p] at hp
  · simp [h.idle p] at hp

theorem Kept.live (h : Kept ip s₀ s) : (s.fs.icache ip).Live := ⟨by have := h.ref; omega, h.valid⟩

theorem Kept.setLock (h : Kept ip s₀ s) (l : Option ℕ) : Kept ip s₀ { s with
      fs.toStore := s.fs.toStore.setInode ip { s.fs.icache ip with lock := l } } := by
  have hq := h.wf.quiet_lock (p := ip) l
  refine ⟨h.frees, h.wf.quiet hq, ?_, ?_, (hq.held h.wf.unique).trans h.held, ?_, h.notFreed,
    fun p r hp => ?_⟩
  all_goals simp only [Store.setInode_self]
  · exact h.valid
  · exact h.nlink
  · exact h.ref
  · exact h.tested p r hp

variable [DecidableEq P]

theorem leaving_update_of_ne (hp : pc p ≠ .unlocked)
    (hv : v ≠ .unlocked) : leaving (update pc p v) = leaving pc := by
  ext q
  simp only [leaving, mem_filter, mem_univ, true_and, update_apply]
  split_ifs with hq
  · subst hq
    exact iff_of_false hv hp
  · exact Iff.rfl

theorem card_leaving_unlocked (pc : P → IputPc) (p : P) :
    (leaving (update pc p .unlocked)).card ≤ (leaving pc).card + 1 := by
  refine (card_le_card fun q hq => ?_).trans (card_insert_le p _)
  simp only [leaving, mem_filter, mem_univ, true_and, mem_insert,
    update_apply] at hq ⊢
  split_ifs at hq with hqp
  · exact .inl hqp
  · exact .inr hq

theorem card_leaving_idle (hp : pc p = .unlocked) :
    (leaving (update pc p .idle)).card + 1 ≤ (leaving pc).card := by
  have hmem : p ∈ leaving pc := by simpa [leaving] using hp
  rw [← card_erase_add_one hmem]
  refine Nat.succ_le_succ (card_le_card fun q hq => ?_)
  simp only [leaving, mem_filter, mem_univ, true_and, mem_erase,
    update_apply] at hq ⊢
  split_ifs at hq with hqp
  exact ⟨hqp, hq⟩

theorem Kept.move (h : Kept ip s₀ s) (hp : s.pc p ≠ .unlocked)
    (hv : v ≠ .unlocked) (hf : v ≠ .freed)
    (ht : ∀ r, v = .tested r → r = (s.fs.icache ip).ref ∧ leaving s.pc = ∅) :
    Kept ip s₀ { s with pc := update s.pc p v } := by
  have hl := leaving_update_of_ne hp hv
  refine { h with ref := by rw [hl]; exact h.ref, notFreed := fun q => ?_, tested := fun q r => ?_ }
  · simp only [update_apply]
    split_ifs
    · exact hf
    · exact h.notFreed q
  · simp only [update_apply, hl]
    split_ifs
    · exact ht r
    · exact h.tested q r

theorem Kept.leave (h : Kept ip s₀ s) (hr : mayRelease (s.fs.icache ip) (s.pc p) = true)
    (hx : ∀ q, Holding (s.pc q) → q = p) : Kept ip s₀ { s with pc := update s.pc p .unlocked } := by
  have hun : unlinked (s.fs.icache ip) = true := by simp [unlinked, h.valid, h.nlink]
  obtain ⟨r, hpc, hr1⟩ : ∃ r, s.pc p = .tested r ∧ r ≠ 1 := by
    cases hpc : s.pc p with
    | locked => simp [hpc, mayRelease, hun] at hr
    | tested r => exact ⟨r, rfl, by simpa [hpc, mayRelease] using hr⟩
    | freed => exact absurd hpc (h.notFreed p)
    | idle => simp [hpc, mayRelease] at hr
    | unlocked => simp [hpc, mayRelease] at hr
  obtain ⟨rfl, hnone⟩ := h.tested p r hpc
  have hcard := card_leaving_unlocked s.pc p
  rw [hnone] at hcard
  have hpos := h.live.1
  refine { h with ref := ?_, notFreed := fun q => ?_, tested := fun q r => ?_ }
  · simp only [card_empty] at hcard
    change ((leaving (update s.pc p .unlocked)).card : ℤ) < (s.fs.icache ip).ref
    omega
  · simp only [update_apply]
    split_ifs
    · exact IputPc.noConfusion
    · exact h.notFreed q
  · simp only [update_apply]
    split_ifs with hqp
    · exact False.elim
    · intro hq
      exact absurd (hx q (by simp [hq, Holding])) hqp

theorem Kept.unref (h : Kept ip s₀ s) (hp : s.pc p = .unlocked) : Kept ip s₀ { s with
      fs.toStore := s.fs.toStore.setInode ip
        { s.fs.icache ip with ref := (s.fs.icache ip).ref - 1 }
      pc := update s.pc p .idle
      refs := update s.refs p (s.refs p - 1) } := by
  have hcard := card_leaving_idle hp
  have href := h.ref
  have hmem : p ∈ leaving s.pc := by simpa [leaving] using hp
  have hpos : 0 < (s.fs.icache ip).ref - 1 := by omega
  have hq := h.wf.quiet_fields (n := { s.fs.icache ip with ref := (s.fs.icache ip).ref - 1 })
    h.live.1 hpos rfl rfl rfl fun hl => (h.wf.loaded ip hl).2
  refine ⟨h.frees, h.wf.quiet hq, ?_, ?_, (hq.held h.wf.unique).trans h.held, ?_, fun q => ?_,
    fun q r => ?_⟩
  · simpa only [Store.setInode_self] using h.valid
  · simpa only [Store.setInode_self] using h.nlink
  · simp only [Store.setInode_self]
    omega
  · simp only [update_apply]
    split_ifs
    · exact IputPc.noConfusion
    · exact h.notFreed q
  · simp only [update_apply]
    split_ifs with hqp
    · exact False.elim
    · intro hqr
      rw [(h.tested q r hqr).2] at hmem
      exact absurd hmem (notMem_empty p)

theorem Kept.free (h : Kept ip s₀ s) (hi : (s.fs.icache ip).inum = (s₀.fs.icache ip).inum)
    (hfree : Fs.ops.ifree ip s.fs = .ok () fs) (hx : ∀ q, Holding (s.pc q) → q = p) :
    (fs.icache ip).inum = (s₀.fs.icache ip).inum ∧ (fs.icache ip).lock = (s.fs.icache ip).lock ∧
      Freed ip s₀ { s with fs := fs, pc := update s.pc p .freed, frees := s.frees + 1 } := by
  have hspec := Fs.ifree_spec (X := Set.univ) h.wf h.live (Set.subset_univ _) (Set.mem_univ _)
  obtain ⟨t, hist, bs, hwrote, -, -, hw, -, -, hinum, -, hlock, hval, htype, hblocks⟩ :=
    Exec.wp.of_ok hspec hfree
  have hst : fs.toStore = t := by rw [hwrote]; rfl
  subst hst
  refine ⟨hinum.trans hi, hlock, ⟨?_, ?_, ?_⟩, hval, fun q r => ?_⟩
  · rw [h.frees]
  · rwa [hi] at htype
  · intro k b hb
    rw [← h.held, ← hi] at hb
    exact hblocks k b hb
  · simp only [update_apply]
    split_ifs with hqp
    · exact IputPc.noConfusion
    · intro hq
      exact absurd (hx q (by simp [hq, Holding])) hqp

theorem Inv.holder_moves (h : Inv ip s₀ s) (hp : Holding (s.pc p)) (v : IputPc) :
    (∀ q, Holding (update s.pc p v q) → (s.fs.icache ip).lock ≠ none) ∧
      ∀ q q', Holding (update s.pc p v q) → Holding (update s.pc p v q') → q = q' := by
  have hq : ∀ q, Holding (update s.pc p v q) → q = p := by
    intro q hq
    obtain ⟨rfl, -⟩ | hq := holding_update hq
    · rfl
    · exact h.exclusive q p hq hp
  exact ⟨fun _ _ => h.locked p hp, fun q q' h1 h2 => (hq q h1).trans (hq q' h2).symm⟩

theorem Inv.step {a : IputAct P} (h : Inv ip s₀ s) (hc : Settled s a)
    (hs : step ip s a = some s') : Inv ip s₀ s' := by
  obtain ⟨p, rfl, hpc, hl, rfl⟩ | ⟨p, rfl, hpc, hun, rfl⟩ | ⟨p, fs, rfl, hpc, hfree, rfl⟩ |
    ⟨p, e, rfl, rfl⟩ | ⟨p, rfl, hr, rfl⟩ | ⟨p, rfl, hpc, rfl⟩ := step_cases hs
  · -- acquiresleep: nobody held the lock before
    have hq : ∀ q, Holding (update s.pc p .locked q) → q = p := fun q hq =>
      (holding_update hq).elim And.left fun hq => absurd hl (h.locked q hq)
    refine ⟨?_, fun q _ => ?_, fun q q' h1 h2 => (hq q h1).trans (hq q' h2).symm, ?_⟩
    · simpa only [Store.setInode_self] using h.inum
    · simp only [Store.setInode_self]
      exact Option.some_ne_none 0
    · rcases h.phase with hk | hf
      · exact .inl ((hk.setLock (some 0)).move (by simp [hpc]) (by simp) (by simp) (by simp))
      · exact .inr (hf.move rfl (by simp))
  · -- reading of ref: the value is the number of references that stay until it is used
    obtain ⟨hlock, hex⟩ := h.holder_moves (p := p) (by simp [hpc, Holding])
      (.tested (s.fs.icache ip).ref)
    have hempty : leaving s.pc = ∅ := by simpa [leaving, Settled] using hc
    refine ⟨h.inum, hlock, hex, ?_⟩
    rcases h.phase with hk | hf
    · refine .inl (hk.move (by simp [hpc]) (by simp) (by simp) fun r hr => ?_)
      exact ⟨(IputPc.tested.inj hr).symm, hempty⟩
    · simp [unlinked, hf.valid] at hun
  · -- freeing, by the process that read one
    have hp : Holding (s.pc p) := by simp [hpc, Holding]
    rcases h.phase with hk | hf
    · obtain ⟨hi, hlk, hf⟩ := hk.free h.inum hfree fun q hq => h.exclusive q p hq hp
      obtain ⟨hlock, hex⟩ := h.holder_moves hp .freed
      exact ⟨hi, fun q hq => hlk ▸ hlock q hq, hex, .inr hf⟩
    · exact absurd hpc (hf.tested p 1)
  · exact ⟨h.inum, h.locked, h.exclusive, h.phase.imp (fun hk => { hk with }) fun hf => { hf with }⟩
  · -- releasesleep
    have hp := holding_of_mayRelease hr
    have hx : ∀ q, Holding (s.pc q) → q = p := fun q hq => h.exclusive q p hq hp
    have hnone : ∀ q, ¬Holding (update s.pc p .unlocked q) := by
      intro q hq
      have hqp : q = p := (holding_update hq).elim And.left (hx q)
      rw [hqp, update_self] at hq
      exact hq
    refine ⟨?_, fun q hq => absurd hq (hnone q), fun q _ hq => absurd hq (hnone q), ?_⟩
    · simpa only [Store.setInode_self] using h.inum
    · rcases h.phase with hk | hf
      · exact .inl ((hk.leave hr hx).setLock none)
      · exact .inr (hf.move rfl (by simp))
  · -- ref--
    have hq : ∀ q, Holding (update s.pc p .idle q) → Holding (s.pc q) := fun q hq =>
      (holding_update hq).elim (fun hv => hv.2.elim) id
    refine ⟨?_, fun q h1 => ?_, fun q q' h1 h2 => h.exclusive q q' (hq q h1) (hq q' h2), ?_⟩
    · simpa only [Store.setInode_self] using h.inum
    · simpa only [Store.setInode_self] using h.locked q (hq q h1)
    · rcases h.phase with hk | hf
      · exact .inl (hk.unref hpc)
      · exact .inr (hf.move rfl (by simp))

/-- In every run in which no process reads `ref` while another is about to decrement it, the
inode has been freed exactly once when `ref` reaches 0. -/
theorem last_ref_frees {acts : List (IputAct P)} (h₀ : Start ip s₀)
    (hrun : Run (step ip) Settled s₀ acts s) (hz : (s.fs.icache ip).ref = 0) :
    FreedOnce ip s₀ s := by
  have hinv : Inv ip s₀ s := hrun.induct h₀.inv fun _ _ _ h hc hs => h.step hc hs
  rcases hinv.phase with hk | hf
  · have hpos := hk.live.1
    omega
  · exact hf.once

def orphan : Dinode := { Dinode.zero with type := T_FILE, mode := 493 }

def orphanPtr : Ptr := ⟨0, ninode_pos⟩

/-- Inode 1 of the blank disk is an unlinked file with a reference for each of `n`
processes, in a transaction. -/
def orphanDroppers (n : ℕ) : Droppers (Fin n) where
  fs := { Fs.blankFs with
    toStore := (Fs.blankFs.toStore.setDinode 1 orphan).setInode orphanPtr
      ⟨1, n, none, true, orphan⟩
    log := ⟨2, 30, 1, false, []⟩ }
  pc _ := .idle
  refs _ := 1
  frees := 0
  panic := none

theorem orphanDroppers_start {n : ℕ} (hn : 0 < n) : Start orphanPtr (orphanDroppers n) where
  wf := by
    have hw := Fs.blankFs_wf.clear (i := 1) (d := orphan) (by decide)
      (fun p hp => absurd hp.1 (lt_irrefl 0)) (.inr (Dinode.addr_of_zero rfl))
    have hd : (Fs.blankFs.toStore.setDinode 1 orphan).dinode 1 = orphan := by
      rw [Store.setDinode_dinode, if_pos rfl]
    refine hw.quiet ⟨fun _ q _ hr => absurd hr (lt_irrefl 0), fun hp => absurd hp.1 (lt_irrefl 0),
      fun _ _ => ?_, fun _ => ⟨⟨?_, ?_⟩, ?_⟩⟩
    · rw [hd]
    · exact (by decide : 1 < 200)
    · rw [hd]
      decide
    · exact (by decide : orphan.type ≠ 0)
  live := ⟨by simpa [orphanDroppers] using hn, by simp [orphanDroppers]⟩
  nlink := by simp [orphanDroppers, orphan, Dinode.zero]
  lock := by simp [orphanDroppers]
  refs := by simp [orphanDroppers]
  idle _ := rfl
  frees := rfl
  panic := rfl

def inTurn : List (IputAct (Fin 2)) :=
  [.acquiresleep 0, .readRef 0, .releasesleep 0, .unref 0,
    .acquiresleep 1, .readRef 1, .free 1, .releasesleep 1, .unref 1]

theorem last_ref_frees_in_turn : ∃ s,
    Run (step orphanPtr) Settled (orphanDroppers 2) inTurn s ∧
      FreedOnce orphanPtr (orphanDroppers 2) s := by
  have hexec : (exec (step orphanPtr) (fun s a => decide (Settled s a)) (orphanDroppers 2)
      inTurn).any (fun s => (s.fs.icache orphanPtr).ref == 0) = true := by decide +kernel
  obtain ⟨s, hrun, hz⟩ := Run.of_exec_any (fun _ _ => of_decide_eq_true) hexec
  exact ⟨s, hrun, last_ref_frees (orphanDroppers_start (by decide)) hrun (by simpa using hz)⟩

def overlapping : List (IputAct (Fin 2)) :=
  [.acquiresleep 0, .readRef 0, .releasesleep 0, .acquiresleep 1, .readRef 1, .releasesleep 1,
    .unref 0, .unref 1]

/-- Both read 2, so neither frees the inode. -/
theorem overlapping_iputs_leak : Start orphanPtr (orphanDroppers 2) ∧ ∃ s,
    Run (step orphanPtr) Any (orphanDroppers 2) overlapping s ∧
      (s.fs.icache orphanPtr).ref = 0 ∧ s.frees = 0 ∧
      ¬FreedOnce orphanPtr (orphanDroppers 2) s := by
  have hexec : (exec (step orphanPtr) (fun _ _ => true) (orphanDroppers 2) overlapping).any
      (fun s => (s.fs.icache orphanPtr).ref == 0 && s.frees == 0) = true := by decide +kernel
  obtain ⟨s, hrun, hz⟩ := Run.of_exec_any (C := Any) (fun _ _ _ => trivial) hexec
  obtain ⟨hr, hf⟩ : (s.fs.icache orphanPtr).ref = 0 ∧ s.frees = 0 := by simpa using hz
  refine ⟨orphanDroppers_start (by decide), s, hrun, hr, hf, fun h => ?_⟩
  exact absurd (hf.symm.trans h.1) (by decide)

end Xv6.Droppers
