import Xv6.Proofs.Paging

/-! `growproc`: it does what it should, except where a process gives up all its memory or more. -/

open Function

namespace Xv6

open Kmem

variable {L : Layout} {s s' : Kmem} {own own' : ℕ → Role} {d sz : ℕ} {n : ℤ}

section

variable (h : Owned L s own) (hd : own d = .dir)
include h hd

theorem sameBelow_of_mem {m : ℕ} (hm : m ≤ KERNBASE)
    (hmapped : ∀ v < 2 ^ 19, v * PGSIZE < m → s'.mapped d v = s.mapped d v)
    (hmem : ∀ p v, v < 2 ^ 19 → v * PGSIZE < m → own p = .user d v → s'.mem p = s.mem p) :
    s.SameBelow s' d m := by
  refine ⟨hmapped, fun va hva => ?_⟩
  have hv : va / PGSIZE < 2 ^ 19 ∧ va / PGSIZE * PGSIZE < m := by
    simp only [PGSIZE, KERNBASE] at *
    omega
  unfold byteAt
  rw [hmapped _ hv.1 hv.2]
  cases hw : s.mapped d (va / PGSIZE) with
  | none => rfl
  | some w =>
    have hrole := (h.user_of_mapped hd hv.1 hw).2
    rw [Option.map_some, Option.map_some, hmem _ _ hv.1 hv.2 hrole]

theorem sameBelow_of_undone {R : ℕ → Prop} (hR : ∀ v < 2 ^ 19, R v → s.mapped d v = none)
    (hu : Undone d R s s' own own') : s.SameBelow s' d KERNBASE := by
  refine sameBelow_of_mem h hd le_rfl (fun v hv _ => ?_) fun p v hv _ hp => ?_
  · by_cases hRv : R v
    · rw [hu.unmapped v (by omega) hRv, hR v hv hRv]
    · exact hu.mapped v (by omega) hRv
  · refine hu.mem p (by simp [hp]) (fun u hRu e => ?_) ?_ (by simp [hp])
    · obtain rfl : v = u := by simpa [hp] using e
      obtain ⟨-, w, hw, -⟩ := h.mapped_of_user hp
      rw [hR v hv hRu] at hw
      cases hw
    · rintro rfl
      exact absurd (hd.symm.trans hp) (by simp)

theorem grown_of_added {sz' : ℕ} (hsz : sz ≤ sz') (hlt : sz' < KERNBASE) (hpages : s.UserPages d sz)
    (ha : Added d ((sz + PGSIZE - 1) / PGSIZE) ((sz' + PGSIZE - 1) / PGSIZE) s s' own own')
    (hn : (sz' : ℤ) = sz + n) : s.Grown s' d sz n sz' := by
  have hin : ∀ v, (sz + PGSIZE - 1) / PGSIZE ≤ v ∧ v < (sz' + PGSIZE - 1) / PGSIZE ↔
      sz ≤ v * PGSIZE ∧ v * PGSIZE < sz' := by
    intro v
    simp only [PGSIZE]
    omega
  refine ⟨hn, fun v hv => ?_, ?_, fun v hv hv' => ?_⟩
  · by_cases hv' : sz ≤ v * PGSIZE ∧ v * PGSIZE < sz'
    · obtain ⟨f, hf, -⟩ := ha.fresh v ((hin v).mpr hv').1 ((hin v).mpr hv').2
      simp [hf, hv'.2]
    · rw [ha.mapped v (by omega) fun e => hv' ((hin v).mp e), hpages v hv]
      omega
  · rw [min_eq_left hsz]
    refine sameBelow_of_mem h hd (by omega) (fun v hv hvs => ?_) fun p v hv _ hp => ?_
    · exact ha.mapped v (by omega) fun e => absurd ((hin v).mp e).1 (by omega)
    · refine ha.mem p (by simp [hp]) (by simp [hp]) ?_ (by simp [hp])
      rintro rfl
      exact absurd (hd.symm.trans hp) (by simp)
  · obtain ⟨f, hf, hzero, -⟩ := ha.fresh v ((hin v).mpr ⟨hv, hv'⟩).1 ((hin v).mpr ⟨hv, hv'⟩).2
    exact ⟨_, hf, by rw [entry_div f (by decide), hzero]⟩

theorem grown_of_shrunk {sz' : ℕ} (hsz : sz' ≤ sz) (hlt : sz ≤ KERNBASE) (hpages : s.UserPages d sz)
    (hs : Shrunk d (fun v => sz' ≤ v * PGSIZE ∧ v * PGSIZE < sz) s s' own own')
    (hn : (sz' : ℤ) = sz + n) : s.Grown s' d sz n sz' := by
  refine ⟨hn, fun v hv => ?_, ?_, fun v hv hv' => absurd hv' (by omega)⟩
  · by_cases hR : sz' ≤ v * PGSIZE ∧ v * PGSIZE < sz
    · rw [hs.unmapped v (by omega) hR]
      simp [hR.1]
    · rw [hs.mapped v (by omega) hR, hpages v hv]
      omega
  · rw [min_eq_right hsz]
    refine sameBelow_of_mem h hd (by omega) (fun v hv hvs => ?_) fun p v hv hvs hp => ?_
    · exact hs.mapped v (by omega) fun e => absurd e.1 (by omega)
    · refine hs.mem p (fun u hu e => ?_) (by simp [hp])
      obtain rfl : v = u := by simpa [hp] using e
      omega

end

/-- `growproc(n)` is exact or has no effect, as long as it is not asked to give up all memory of
the process or more. -/
theorem growproc_exact_of_left (h : Owned L s own) (hd : own d = .dir) (hno : NoHeld own)
    (hsz : sz ≤ KERNBASE) (hpages : s.UserPages d sz) (hn : -2 ^ 31 ≤ n ∧ n < 2 ^ 31)
    (hleft : 0 ≤ n ∨ 0 < sz + n) :
    ∃ r s', growproc L d sz n s = .ok r s' ∧ s.GrowExact s' d sz n r := by
  apply Exec.wp.exists_ok
  unfold growproc
  dsimp only
  have hnot : ∀ v < 2 ^ 19, sz ≤ v * PGSIZE → s.mapped d v = none := by
    intro v hv hle
    by_contra hm
    exact absurd ((hpages v hv).mp hm) (not_lt.mpr hle)
  by_cases hpos : n > 0
  · obtain ⟨k, rfl⟩ := Int.eq_ofNat_of_zero_le hpos.le
    have hnew : (((sz : ℤ) + (k : ℤ)) % 2 ^ 32).toNat = sz + k := by
      simp only [KERNBASE] at hsz
      omega
    rw [if_pos hpos, hnew, Exec.wp_bind]
    refine wp_allocuvm h hd hno hnot (fun _ => ?_) (fun _ hlt => absurd hlt (by omega))
      (fun s1 own1 hlt hle ho hu _ => ?_) fun s1 own1 hlt hle ho ha => ?_
    · exact .inr ⟨rfl, rfl, fun _ _ _ => rfl, fun _ _ => rfl⟩
    · exact .inr ⟨rfl, rfl, sameBelow_of_undone h hd (fun v hv hR => hnot v hv hR.1) hu⟩
    · rw [if_neg (show ¬sz + k = 0 by omega)]
      exact .inl ⟨rfl, grown_of_added h hd hle hlt hpages ha (by push_cast; ring)⟩
  · rw [if_neg hpos]
    by_cases hneg : n < 0
    · have hnew : (((((sz : ℤ) + n) % 2 ^ 32).toNat : ℕ) : ℤ) = sz + n := by
        simp only [KERNBASE] at hsz
        omega
      set sz' := (((sz : ℤ) + n) % 2 ^ 32).toNat with hsz'
      rw [if_pos hneg, Exec.wp_bind]
      refine wp_deallocuvm h hd hsz fun s1 own1 ho hs => ?_
      rw [if_neg (show ¬sz' ≥ sz by omega), if_neg (show ¬sz' = 0 by omega)]
      exact .inl ⟨rfl, grown_of_shrunk h hd (by omega) hsz hpages hs hnew⟩
    · obtain rfl : n = 0 := by omega
      rw [if_neg hneg]
      refine .inl ⟨rfl, ⟨by simp, hpages, ⟨fun _ _ _ => rfl, fun _ _ => rfl⟩, fun v hv hv' => ?_⟩⟩
      exact absurd hv' (not_lt.mpr hv)

/-- `growproc(-sz)` frees all memory, takes the 0 that `deallocuvm` returns for a failure, and leaves
the size as it was. -/
theorem growproc_neg_size (h : Owned L s own) (hd : own d = .dir) (hpos : 0 < sz)
    (hsz : sz ≤ KERNBASE) : ∃ s', growproc L d sz (-sz) s = .ok (-1, sz) s' ∧
      ∀ v < 2 ^ 19, v * PGSIZE < sz → s'.mapped d v = none := by
  have hrun : Exec.wp (growproc L d sz (-sz))
      (fun r s' => r = (-1, sz) ∧ ∀ v < 2 ^ 19, v * PGSIZE < sz → s'.mapped d v = none)
      (fun _ _ => False) s := by
    have hnew : (((sz : ℤ) + -(sz : ℤ)) % 2 ^ 32).toNat = 0 := by simp
    unfold growproc
    dsimp only
    rw [hnew, if_neg (show ¬-(sz : ℤ) > 0 by omega), if_pos (show -(sz : ℤ) < 0 by omega),
      Exec.wp_bind]
    refine wp_deallocuvm h hd hsz fun s1 own1 _ hs => ?_
    rw [if_neg (show ¬0 ≥ sz by omega), if_pos rfl, Exec.wp_pure]
    exact ⟨rfl, fun v hv hlt => hs.unmapped v (by omega) ⟨Nat.zero_le _, hlt⟩⟩
  obtain ⟨r, s', hr, rfl, hgone⟩ := hrun.exists_ok
  exact ⟨s', hr, hgone⟩

/-- When more is given up than there is, the new size wraps, and `deallocuvm` does nothing. -/
theorem growproc_wraps (hsz : sz ≤ KERNBASE) (hn : -2 ^ 31 ≤ n) (hneg : sz + n < 0) :
    growproc L d sz n s = .ok (if sz = 0 then -1 else 0, sz) s := by
  have hge : (((sz : ℤ) + n) % 2 ^ 32).toNat ≥ sz := by
    simp only [KERNBASE] at hsz
    omega
  have hdealloc : deallocuvm L d sz (((sz : ℤ) + n) % 2 ^ 32).toNat = pure sz := if_pos hge
  have hrun : growproc L d sz n = pure (if sz = 0 then -1 else 0, sz) := by
    rw [growproc, if_neg (show ¬n > 0 by omega), if_pos (show n < 0 by omega), hdealloc, pure_bind]
    split_ifs <;> rfl
  exact congrFun hrun s

/-- `growproc(n)` is exact or has no effect, unless the process has memory and is asked to give up
all of it or more. -/
theorem growproc_exact (h : Owned L s own) (hd : own d = .dir) (hno : NoHeld own)
    (hsz : sz ≤ KERNBASE) (hpages : s.UserPages d sz) (hn : -2 ^ 31 ≤ n ∧ n < 2 ^ 31) :
    (∃ r s', growproc L d sz n s = .ok r s' ∧ s.GrowExact s' d sz n r) ↔
      0 ≤ n ∨ 0 < sz + n ∨ sz = 0 := by
  constructor
  · rintro ⟨r, s', hrun, hexact⟩
    by_contra hall
    rw [not_or, not_or] at hall
    obtain ⟨hneg, hleft, hne⟩ := hall
    rcases (not_lt.mp hleft).lt_or_eq with hlt | heq
    · -- success without effect
      rw [growproc_wraps hsz hn.1 hlt, if_neg hne] at hrun
      cases hrun
      rcases hexact with ⟨-, hgrown⟩ | ⟨hr, -⟩
      · have := hgrown.size
        omega
      · exact absurd hr (by decide : (0 : ℤ) ≠ -1)
    · -- failure with the pages gone
      obtain rfl : n = -sz := by omega
      obtain ⟨s1, hrun', hgone⟩ := growproc_neg_size h hd (Nat.pos_of_ne_zero hne) hsz
      rw [hrun'] at hrun
      cases hrun
      rcases hexact with ⟨hr, -⟩ | ⟨-, -, hsame, -⟩
      · exact absurd hr (by decide : (-1 : ℤ) ≠ 0)
      · have hm := hsame 0 (by decide) (by decide)
        rw [hgone 0 (by decide) (by omega)] at hm
        exact (hpages 0 (by decide)).mpr (by omega) hm.symm
  · intro hall
    by_cases hleft : 0 ≤ n ∨ 0 < sz + n
    · exact growproc_exact_of_left h hd hno hsz hpages hn hleft
    · rw [not_or] at hleft
      obtain rfl : sz = 0 := by omega
      exact ⟨_, s, growproc_wraps hsz hn.1 (by omega), .inr ⟨rfl, rfl, fun _ _ _ => rfl, fun _ _ => rfl⟩⟩

/-! A process with one page. -/

def smallLayout : Layout where
  data := 257
  endp := 57341
  data_gt := by decide
  data_le := by decide
  endp_le := by decide

def blankMem (ps : List ℕ) : Kmem := ⟨fun _ => Buffer.zero, ps, [], []⟩

theorem blankMem_absent (ps : List ℕ) (p i : ℕ) : ¬present ((blankMem ps).word p i) := by
  rw [word_zero (s := blankMem ps) rfl]
  exact not_present_zero

theorem owned_blankMem {ps : List ℕ} (hps : ∀ p, p ∈ ps ↔ Managed L p) (hnd : ps.Nodup) :
    Owned L (blankMem ps) (fun p => if Managed L p then .free else .outside) where
  outside p := by split_ifs with h <;> simp [h]
  free p := by
    change p ∈ ps ↔ _
    rw [hps]
    split_ifs with h <;> simp [h]
  nodup := hnd
  pde d i hd := by split_ifs at hd
  table t d i ht := by split_ifs at ht
  pte t d i j ht := by split_ifs at ht
  user f d v hf := by split_ifs at hf

/-- Page 57341 is a page directory, 57342 its first page table, and 57343 its first user page. -/
def onePage : Kmem :=
  ((blankMem []).setWord 57341 0 (57342 * PGSIZE ||| 7)).setWord 57342 0 (57343 * PGSIZE ||| 7)

def onePageOwn : ℕ → Role :=
  Function.update (Function.update (Function.update
    (fun p => if Managed smallLayout p then .free else .outside) 57341 .dir)
    57342 (.table 57341 0)) 57343 (.user 57341 0)

theorem managed_smallLayout (p : ℕ) :
    Managed smallLayout p ↔ p = 57341 ∨ p = 57342 ∨ p = 57343 := by
  simp only [Managed, smallLayout, PHYSTOP, PGSIZE]
  omega

theorem owned_onePage : Owned smallLayout onePage onePageOwn := by
  have h0 : Owned smallLayout (blankMem [57341, 57342, 57343]) _ :=
    owned_blankMem (fun p => by simp [managed_smallLayout]) (by decide)
  -- the three pages are taken in turn, and each is put to its use
  obtain ⟨-, h1⟩ := h0.take (p := 57341) rfl
    (rfl : (blankMem [57342, 57343]).freelist = _) rfl
  have h2 := h1.reassign (p := 57341) (r := .dir) (by simp) (by simp) (by simp) (by simp) (by simp)
    fun i _ => blankMem_absent _ _ _
  rw [update_idem] at h2
  obtain ⟨-, h3⟩ := h2.take (p := 57342) rfl (rfl : (blankMem [57343]).freelist = _) rfl
  have h4 := h3.link (p := 57342) (d := 57341) (i := 0) (w := 57342 * PGSIZE ||| 7) (by simp)
    (by simp) (by decide) (fun j => blankMem_absent _ _ _) (blankMem_absent _ _ _) (by decide)
    (by decide) (by decide)
  rw [update_idem] at h4
  obtain ⟨-, h5⟩ := h4.take (p := 57343) rfl
    (rfl : ((blankMem []).setWord 57341 0 (57342 * PGSIZE ||| 7)).freelist = _) rfl
  have habsent : ¬present (((blankMem []).setWord 57341 0 (57342 * PGSIZE ||| 7)).word 57342 0) := by
    rw [word_setWord_ne (by decide)]
    exact blankMem_absent _ _ _
  have h6 := h5.map (f := 57343) (t := 57342) (d := 57341) (i := 0) (j := 0)
    (w := 57343 * PGSIZE ||| 7) (by simp) (by simp) (by decide) (by decide) habsent (by decide)
    (by decide) (by decide)
  rw [update_idem] at h6
  exact h6

theorem onePageOwn_dir : onePageOwn 57341 = .dir := by simp [onePageOwn]

theorem onePageOwn_noHeld : NoHeld onePageOwn := by
  intro p
  simp only [onePageOwn, update_apply]
  split_ifs <;> simp

theorem onePage_userPages : onePage.UserPages 57341 PGSIZE := by
  intro v hv
  have hiff : onePage.mapped 57341 v ≠ none ↔ v = 0 := by
    constructor
    · intro hm
      obtain ⟨w, hw⟩ := Option.ne_none_iff_exists'.mp hm
      have hu := (owned_onePage.user_of_mapped onePageOwn_dir hv hw).2
      simp only [onePageOwn, update_apply] at hu
      split_ifs at hu
      cases hu
      rfl
    · rintro rfl
      obtain ⟨-, w, hw, -⟩ := owned_onePage.mapped_of_user (f := 57343) (d := 57341) (v := 0)
        (by simp [onePageOwn])
      simp [hw]
  rw [hiff]
  simp only [PGSIZE]
  omega

theorem growproc_exact_onePage :
    ∃ r s', growproc smallLayout 57341 PGSIZE (-1) onePage = .ok r s' ∧
      onePage.GrowExact s' 57341 PGSIZE (-1) r :=
  (growproc_exact owned_onePage onePageOwn_dir onePageOwn_noHeld (by decide) onePage_userPages
    (by decide)).mpr (.inr (.inl (by decide)))

/-- `growproc(-sz)` frees the memory of the process and then returns -1, with the size
unchanged. -/
theorem growproc_all_memory :
    Owned smallLayout onePage onePageOwn ∧ onePageOwn 57341 = .dir ∧ NoHeld onePageOwn ∧
      onePage.UserPages 57341 PGSIZE ∧
      ∃ s', growproc smallLayout 57341 PGSIZE (-PGSIZE) onePage = .ok (-1, PGSIZE) s' ∧
        ¬onePage.GrowExact s' 57341 PGSIZE (-PGSIZE) (-1, PGSIZE) := by
  refine ⟨owned_onePage, onePageOwn_dir, onePageOwn_noHeld, onePage_userPages, ?_⟩
  obtain ⟨s', hr, hgone⟩ :=
    @growproc_neg_size _ _ _ _ PGSIZE owned_onePage onePageOwn_dir (by decide) (by decide)
  refine ⟨s', hr, ?_⟩
  rintro (⟨hr, -⟩ | ⟨-, -, hsame, -⟩)
  · exact absurd hr (by decide)
  · have hm := hsame 0 (by decide) (by decide)
    rw [hgone 0 (by decide) (by decide)] at hm
    exact absurd hm.symm ((onePage_userPages 0 (by decide)).mpr (by decide))

end Xv6
