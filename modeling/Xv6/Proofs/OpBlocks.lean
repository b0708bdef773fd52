import Xv6.Proofs.Brackets
import Xv6.Proofs.Ownership

/-! Every file-system call, run alone, logs at most `MAXOPBLOCKS` different blocks in each
of its brackets. -/

namespace Xv6

open List Store

variable {α β : Type} {B : ℕ} {s : Fs} {K : Finset ℕ} {n : ℕ} {p dp ip : Ptr} {Q : β → Fs → Prop}
  {t t' : Store} {X : Set ℕ} {f : Unit → FsM β}

namespace Fs

open Store (Walk)

theorem Others.inum (h : Others p t t') (hp : (t'.icache p).inum = (t.icache p).inum) (q : Ptr) :
    (t'.icache q).inum = (t.icache q).inum := by
  by_cases hq : q = p
  · rw [hq, hp]
  · rw [h q hq]

theorem Open.namex {f : Option (Ptr × Str) → FsM β} (ho : Open B K n s)
    (hK : K.card + n ≤ B) (hc : s.toStore.Consistent)
    (hcwd : ∀ p, s.cwd = some p → 0 < (s.icache p).ref) (path : Str) (parent : Bool)
    (hf : ∀ r t h bs, Walk s.toStore (r.map Prod.fst).toList t → Open B K n (s.wrote t h bs) →
      Fit B (f r) Q (s.wrote t h bs)) : Fit B (ops.namex path parent >>= f) Q s := by
  have hnamex := namex_spec (X := ↑K) (n := 0) hc hcwd path parent
  exact ho.step hnamex hK hf

theorem Open.namei {f : Option Ptr → FsM β} (ho : Open B K n s) (hK : K.card + n ≤ B)
    (hc : s.toStore.Consistent) (hcwd : ∀ p, s.cwd = some p → 0 < (s.icache p).ref) (path : Str)
    (hf : ∀ r t h bs, Walk s.toStore r.toList t → Open B K n (s.wrote t h bs) →
      Fit B (f r) Q (s.wrote t h bs)) : Fit B (ops.namei path >>= f) Q s := by
  have hnamei := namei_spec (X := ↑K) (n := 0) hc hcwd path
  exact ho.step hnamei hK hf

theorem Open.lock {t0 : Store} {hs : List Ptr} (ho : Open B K n s)
    (hK : K.card + n ≤ B) (hc : t0.Consistent) (hmap : t0.sb.mapBlocks ⊆ ↑K)
    (h : Walk t0 (p :: hs) s.toStore)
    (hf : ∀ K' t h bs, K'.card ≤ K.card + 1 → K ⊆ K' → Walk t0 (p :: hs) t → (t.icache p).Live →
      ((s.icache p).lock = none ∧ (t.icache p).lock = some 0 ∧ Others p s.toStore t) →
      t.Covers K' p → Open B K' n (s.wrote t h bs) → Fit B (f ()) Q (s.wrote t h bs)) :
    Fit B (ops.ilock p >>= f) Q s := by
  refine ho.step (k := 0) (walk_ilock hc h mem_cons_self) hK
    fun _ t hh bs ht ho1 => ?_
  obtain ⟨hwalk, hp, hlock⟩ := ht
  obtain ⟨K', hK', hsub, hcov, ho'⟩ := ho1.cover (hwalk.sb.symm ▸ hmap) p
  exact hf K' t hh bs hK' hsub hwalk hp hlock hcov ho'

theorem linkInto_ends (ho : Open B K n s) (hK : K.card + n + 3 ≤ B)
    (hc : s.toStore.Consistent) (hcwd : ∀ p, s.cwd = some p → 0 < (s.icache p).ref)
    (hp : 0 < (s.icache p).ref) (hcov : s.toStore.Covers K p) (new : Str) :
    Ends B (ops.linkInto p new) s := by
  unfold FsOps.linkInto
  refine ho.namex (by omega) hc hcwd new true fun r t h bs ht ho1 => ?_
  have hinum := ht.inum p hp
  cases r with
  | none =>
    refine linkBad_ends ho1 (by omega) ht.wf ?_ (hcov.congr ht.sb hinum)
    change (t.icache p).inum < t.sb.ninodes
    rw [hinum, ht.sb]
    exact hc.ref_lt p hp
  | some r =>
    obtain ⟨dp, name⟩ := r
    refine ho1.lock (by omega) hc hcov.map ht fun K2 t2 h2 bs2 hK2 hsub hwalk hdp _ hcovd ho2 => ?_
    rw [fit_inode_bind]
    have hcov2 := (hcov.congr hwalk.sb (hwalk.inum p hp)).mono hsub
    have hfull := hwalk.full hc hdp
    have hlink := dirlink_held (s := (s.wrote t h bs).wrote t2 h2 bs2) hwalk.wf hdp hfull hcovd.map
      hcovd.block name (t2.icache p).inum
    refine ho2.step hlink (by omega)
      fun r t3 h3 bs3 ht3 ho3 => ?_
    obtain ⟨hw3, hsb3, hinum3, -⟩ := ht3
    have hcovd3 := hcovd.congr hsb3 (hinum3 dp hdp.1)
    have hcov3 := hcov2.congr hsb3 (hinum3 p (hwalk.ref_pos hp))
    split_ifs
    · refine ho3.put (by omega) hw3 hcovd3 fun t4 h4 bs4 hw4 hsb4 hoth hi4 ho4 => ?_
      refine linkBad_ends ho4 (by omega) hw4 ?_ (hcov3.congr hsb4 (hoth.inum hi4 p))
      change (t4.icache p).inum < t4.sb.ninodes
      rw [hoth.inum hi4 p, hsb4]
      change (t3.icache p).inum < t3.sb.ninodes
      rw [hinum3 p (hwalk.ref_pos hp), hsb3]
      change (t2.icache p).inum < t2.sb.ninodes
      rw [hwalk.inum p hp, hwalk.sb]
      exact hc.ref_lt p hp
    · refine ho3.put (by omega) hw3 hcovd3 fun t4 h4 bs4 hw4 hsb4 hoth hi4 ho4 => ?_
      have hcov4 := hcov3.congr hsb4 (hoth.inum hi4 p)
      exact ho4.step (k := 0) (iput_spec hw4 hcov4.map hcov4.block)
        (by omega) fun _ _ _ _ _ ho5 => Ends.endOp (ho5.fits (by omega))

theorem fit_begin (hroom : s.sb.size / BPB + 10 ≤ B) (h : Within B s.brackets)
    (hf : ∀ (K : Finset ℕ) log, K.card + 9 ≤ B → s.sb.mapBlocks ⊆ ↑K →
      Open B K 0 { s with log := log, brackets := [] :: s.brackets } →
      Fit B (f ()) Q { s with log := log, brackets := [] :: s.brackets }) :
    Fit B (ops.beginOp >>= f) Q s := by
  refine (fit_beginOp h).bind fun _ s' hs => ?_
  obtain ⟨log, rfl⟩ := hs
  refine hf (Finset.Ico s.sb.bmapstart (s.sb.bmapstart + (s.sb.size / BPB + 1))) log ?_ ?_
    ⟨[], s.brackets, rfl, .nil, h⟩
  · rw [Nat.card_Ico, Nat.add_sub_cancel_left]
    exact hroom
  · exact fun b hb => Finset.mem_coe.mpr (Finset.mem_Ico.mpr hb)

theorem sysLink_ends (hc : s.Consistent) (hroom : s.sb.size / BPB + 10 ≤ B)
    (h : Within B s.brackets) (args : Option (Str × Str)) : Ends B (ops.sysLink args) s := by
  cases args with
  | none => exact Fit.pure h
  | some args =>
    obtain ⟨old, new⟩ := args
    refine fit_begin hroom h fun K log hK hcov ho => ?_
    refine ho.namei (by omega) hc.store hc.cwd old fun r t hh bs ht ho1 => ?_
    cases r with
    | none => exact Ends.endOp (ho1.fits (by omega))
    | some ip =>
      refine ho1.lock (by omega) hc.store hcov ht fun K2 t2 h2 bs2 hK2 _ hwalk hp2 _ hcov2 ho2 => ?_
      rw [fit_inode_bind]
      split_ifs
      · exact ho2.ends_iunlockput (by omega) hwalk.wf hcov2
      · refine ho2.update (by omega) hwalk.wf hp2 hcov2 ?_
          fun t3 h3 bs3 hw3 htouch _ hcons ho3 => ?_
        · exact ⟨rfl, rfl, rfl, rfl, rfl, rfl⟩
        -- the second walk starts from the state with the new link count
        have hc3 := hcons (hwalk.consistent hc.store)
        refine ho3.step (k := 0) (walk_iunlock hc3.walk) (by omega)
          fun _ t4 h4 bs4 ht4 ho4 => ?_
        have href : ∀ q, (t4.icache q).ref = (t2.icache q).ref := fun q => by
          have := ht4.1.ref q
          rw [count_nil, Int.natCast_zero, add_zero] at this
          rw [this]
          by_cases hq : q = ip
          · rw [hq, htouch.ref]
            rfl
          · rw [htouch.others q hq]
            rfl
        refine linkInto_ends ho4 (by omega) (ht4.1.consistent hc3) (fun q hq => ?_) ?_ ?_ new
        · change 0 < (t4.icache q).ref
          rw [href q]
          exact hwalk.ref_pos (hc.cwd q hq)
        · change 0 < (t4.icache ip).ref
          rw [href ip]
          exact hp2.1
        · refine (hcov2.touch htouch).congr ht4.1.sb (ht4.1.inum ip ?_)
          rw [htouch.ref]
          exact hp2.1

theorem isdirempty_held (hw : s.toStore.Wf) (hp : (s.icache p).Live)
    (hfull : Full s.toStore p) (hdir : (s.icache p).d.type = T_DIR) :
    Does X n (ops.isdirempty p) (fun _ t => t = s.toStore) s := by
  unfold FsOps.isdirempty
  refine Does.seq (scanAll_held hw hp hfull hdir (by decide) _ (Dvd.intro_left 2 rfl))
    fun r t _ _ ht => .pure ht.1

theorem modify_iupdate (hw : s.toStore.Wf) (hp : (s.icache p).Live)
    (hI : IBLOCK (s.icache p).inum s.sb ∈ X) {g : Inode → Inode}
    (hg : Inode.Same (s.icache p) (g (s.icache p))) :
    Does X 0 (ops.modifyInode p g >>= fun _ => ops.iupdate p)
      (fun _ t => t.Wf ∧ Touch p s.toStore t ∧ t.icache p = g (s.icache p)) s := by
  refine (does_modifyInode p g).seq fun _ t h bs ht => ?_
  subst ht
  refine (does_iupdate ?_).weaken fun _ t' ht' => ?_
  · rw [wrote_toStore, setInode_self, hg.inum]
    exact hI
  · rw [wrote_toStore, setInode_self] at ht'
    subst ht'
    obtain ⟨hw', htouch⟩ := hw.rewrite hp hg
    exact ⟨hw', htouch, setInode_self⟩

theorem unlinkEntry_ends (ho : Open B K n s) (hK : K.card + (n + 2) ≤ B)
    (hw : s.toStore.Wf) (hdp : (s.icache dp).Live) (hip : (s.icache ip).Live) (hne : ip ≠ dp)
    (hfull : Full s.toStore ip) (hcovd : s.toStore.Covers K dp) (hcov : s.toStore.Covers K ip)
    {off : ℕ} (hoff : DIRENTSIZE ∣ off) : Ends B (ops.unlinkEntry dp ip off) s := by
  unfold FsOps.unlinkEntry Ends
  rw [fit_inode_bind]
  refine Fit.panicIf_bind (ho.fits (by omega)) fun _ => ?_
  have hempty : Does (↑K) 0 (if (s.icache ip).d.type = T_DIR then ops.isdirempty ip
      else Pure.pure true) (fun _ t => t = s.toStore) s := by
    split_ifs with hdir
    · exact isdirempty_held hw hip hfull hdir
    · exact .pure rfl
  refine ho.step hempty (by omega) fun empty t h bs ht ho1 => ?_
  subst ht
  by_cases he : (!empty) = true
  · rw [if_pos he]
    refine ho1.put (by omega) hw hcov fun t2 h2 bs2 hw2 hsb hoth _ ho2 => ?_
    refine ho2.ends_iunlockput (by omega) hw2 (hcovd.congr hsb ?_)
    rw [wrote_toStore, hoth dp hne.symm]
    rfl
  rw [if_neg he]
  have hwrite := writei_spec (s := s.wrote s.toStore h bs) (p := dp) hw hdp hcovd.map hcovd.block
    (replicate DIRENTSIZE 0) off
  rw [length_replicate, rounds_dirent hoff] at hwrite
  refine ho1.step hwrite (by omega)
    fun r t2 h2 bs2 ht2 ho2 => ?_
  obtain ⟨hw2, htouch2, -⟩ := ht2
  refine Fit.panicIf_bind (ho2.fits (by omega)) fun _ => ?_
  have hdp2 : (t2.icache dp).Live := (htouch2.live dp).mpr hdp
  have hcovd2 := hcovd.touch htouch2
  have hcov2 := hcov.touch htouch2
  -- a directory takes the link of its ".." entry with it
  set link : FsM Unit := if (s.icache ip).d.type = T_DIR then
      ops.modifyInode dp (fun n => { n with d := { n.d with nlink := n.d.nlink - 1 } }) >>=
        fun _ => ops.iupdate dp
      else Pure.pure () with hlink
  have hdoes : Does (↑K) 0 link (fun _ t => t.Wf ∧ Touch dp t2 t)
      ((s.wrote s.toStore h bs).wrote t2 h2 bs2) := by
    rw [hlink]
    split_ifs
    · exact (modify_iupdate hw2 hdp2 hcovd2.block ⟨rfl, rfl, rfl, rfl, rfl, rfl⟩).weaken
        fun _ t ht => ⟨ht.1, ht.2.1⟩
    · exact .pure ⟨hw2, .refl⟩
  refine ho2.step hdoes (by omega) fun _ t3 h3 bs3 ht3 ho3 => ?_
  obtain ⟨hw3, htouch3⟩ := ht3
  refine ho3.put (by omega) hw3 (hcovd2.touch htouch3) fun t4 h4 bs4 hw4 hsb4 hoth4 hi4 ho4 => ?_
  have hip4 : (t4.icache ip).Live := by
    rw [hoth4 ip hne, wrote_toStore, htouch3.others ip hne, htouch2.others ip hne]
    exact hip
  have hcov4 := (hcov2.touch htouch3).congr hsb4 (hoth4.inum hi4 ip)
  rw [fit_modifyInode_bind]
  refine ho4.update (by omega) hw4 hip4 hcov4 ?_ fun t5 h5 bs5 hw5 htouch5 _ _ ho5 => ?_
  · exact ⟨rfl, rfl, rfl, rfl, rfl, rfl⟩
  exact ho5.ends_iunlockput (by omega) hw5 (hcov4.touch htouch5)

theorem sysUnlink_ends (hc : s.Consistent) (hroom : s.sb.size / BPB + 10 ≤ B)
    (h : Within B s.brackets) (path : Option Str) : Ends B (ops.sysUnlink path) s := by
  cases path with
  | none => exact Fit.pure h
  | some path =>
    refine fit_begin hroom h fun K log hK hcov ho => ?_
    refine ho.namex (by omega) hc.store hc.cwd path true fun r t hh bs ht ho1 => ?_
    cases r with
    | none => exact Ends.endOp (ho1.fits (by omega))
    | some r =>
      obtain ⟨dp, name⟩ := r
      refine ho1.lock (by omega) hc.store hcov ht
        fun K2 t2 h2 bs2 hK2 _ hwalk hdp hlock hcovd ho2 => ?_
      split_ifs
      · exact ho2.ends_iunlockput (by omega) hwalk.wf hcovd
      refine ho2.step (k := 0) (walk_dirlookup hc.store hwalk hdp name) (by omega) fun r t3 h3 bs3 ht3 ho3 => ?_
      obtain ⟨-, hnone, hsome⟩ := ht3
      cases r with
      | none =>
        obtain rfl := hnone rfl
        exact ho3.ends_iunlockput (by omega) hwalk.wf hcovd
      | some r =>
        obtain ⟨ip, off⟩ := r
        obtain ⟨hwalk3, hoff, i, a, hto, rfl⟩ := hsome ip off rfl
        refine ho3.lock (by omega) hc.store (hwalk.sb ▸ hcovd.map) hwalk3
          fun K4 t4 h4 bs4 hK4 hsub hwalk4 hip hlock4 hcov4 ho4 => ?_
        obtain ⟨hfree, -, hoth⟩ := hlock4
        -- the lock of `ip` was free, that of `dp` was taken
        have hne : ip ≠ dp := by
          intro e
          subst e
          rw [wrote_toStore, setInode_self] at hfree
          rcases hto with ⟨-, -, rfl⟩ | ⟨hz, -⟩
          · exact absurd (hlock.2.1.symm.trans hfree) (by simp)
          · exact absurd hdp.1 (by rw [wrote_toStore] at hz; omega)
        have hdp4 : t4.icache dp = t2.icache dp := by
          rw [hoth dp hne.symm, wrote_toStore, setInode_ne hne.symm]
          rfl
        have hcovd4 := hcovd.congr (hwalk4.sb.trans hwalk.sb.symm) (congrArg Inode.inum hdp4)
        exact unlinkEntry_ends ho4 (by omega) hwalk4.wf (by rw [wrote_toStore, hdp4]; exact hdp) hip
          hne (hwalk4.full hc.store hip) (hcovd4.mono hsub) hcov4 hoff

end Fs

theorem Store.WfExcept.held_setDinode {t : Store} {x : Set Ptr} {out : Set ℕ} {i b : ℕ}
    {d : Dinode} {y : ℕ × ℕ} (h : WfExcept x out t) (hi : i < t.sb.ninodes)
    (hfree : (t.dinode i).type = 0) (hy : t.held y = some b) : (t.setDinode i d).held y = some b := by
  obtain ⟨j, k⟩ := y
  obtain ⟨ha, hk, hb, hb0⟩ := held_iff.mp hy
  have hj : j ≠ i := fun e => ha.2 (e ▸ hfree)
  refine held_iff.mpr ⟨⟨ha.1, ?_⟩, hk, ?_, hb0⟩
  · rw [setDinode_dinode, if_neg hj]
    exact ha.2
  · have hv : (t.setDinode i d).view j = t.view j := by
      rw [view_setDinode, if_neg fun e => hj e.1]
    rw [← hb]
    unfold slot
    rw [hv]
    refine slotOf_congr rfl fun hn => ?_
    exact setDinode_blocks_ne (h.blocks_ne_iblock hi ha hn)

namespace Fs

open Store (Walk)

theorem ialloc_fresh (hw : s.toStore.Wf) (type : Short) :
    Does X 1 (ops.ialloc type) (fun ip t => t.Wf ∧ t.sb = s.sb ∧ Others ip s.toStore t ∧
      (t.icache ip).inum < t.sb.ninodes ∧ (t.icache ip).valid = false ∧
      (t.dinode (t.icache ip).inum).size = 0 ∧ (∀ q, (s.icache q).Live → q ≠ ip) ∧
      ∀ y b, s.toStore.held y = some b → t.held y = some b) s := by
  refine (ialloc_spec hw type).weaken fun ip t ht => ?_
  obtain ⟨hw', i, a, hi, hfree, hto, rfl⟩ := ht
  set d : Dinode := { Dinode.zero with type := type, mode := 493 } with hd
  have hnot : ∀ q, (s.icache q).Live → (s.icache q).inum ≠ i := fun q hq e =>
    (hw.loaded q hq).1.2 (e ▸ hfree)
  have hwd : (s.toStore.setDinode i d).Wf :=
    hw.clear hi hnot (.inr (Dinode.addr_of_zero rfl))
  have hai : a.inum = i ∧ a.valid = false ∧ ∀ q, (s.icache q).Live → q ≠ ip := by
    rcases hto with ⟨hr, hinum, rfl⟩ | ⟨hr, -, rfl⟩
    · have hv : (s.icache ip).valid = false := by
        by_contra hv
        exact hnot ip ⟨hr, by simpa using hv⟩ hinum
      refine ⟨hinum, hv, fun q hq e => ?_⟩
      rw [e] at hq
      exact absurd hq.2 (by simp [hv])
    · refine ⟨rfl, rfl, fun q hq e => ?_⟩
      rw [e] at hq
      exact absurd hq.1 (by rw [setDinode_icache] at hr; omega)
  refine ⟨hw', rfl, fun q hq => setInode_ne hq, ?_, ?_, ?_, hai.2.2, fun y b hy => ?_⟩
  · rw [setInode_self, hai.1]
    exact hi
  · rw [setInode_self]
    exact hai.2.1
  · rw [setInode_self, hai.1, setInode_dinode, setDinode_dinode, if_pos rfl]
    rfl
  · rw [(hto.quiet hwd).held hwd.unique]
    exact hw.held_setDinode hi hfree hy

end Fs

structure Store.Holds (t : Store) (K : Finset ℕ) (p : Ptr) : Prop where
  live : (t.icache p).Live
  full : Fs.Full t p
  covers : t.Covers K p

theorem Store.Holds.touch_other {K : Finset ℕ} {p q : Ptr} (h : t.Holds K p)
    (ht : Touch q t t') (hp : p ≠ q) : t'.Holds K p :=
  ⟨(ht.live p).mpr h.live, ht.full_other hp h.full, h.covers.touch ht⟩

theorem Store.Holds.touch_self {K : Finset ℕ} {p : Ptr} (h : t.Holds K p)
    (ht : Touch p t t') (hf : Fs.Full t' p) : t'.Holds K p :=
  ⟨(ht.live p).mpr h.live, hf, h.covers.touch ht⟩

namespace Fs

open Store (Walk)

theorem dirlink_holds (hw : s.toStore.Wf) (hp : s.toStore.Holds K p) (name : Str) (inum : ℕ) :
    Does (↑K) 2 (ops.dirlink p name inum) (fun r t => t.Wf ∧ t.sb = s.sb ∧
      (∀ q, 0 < (s.icache q).ref → (t.icache q).inum = (s.icache q).inum) ∧
      (0 ≤ r → Touch p s.toStore t ∧ t.Holds K p)) s := by
  refine (dirlink_held hw hp.live hp.full hp.covers.map hp.covers.block name inum).weaken
    fun r t ht => ?_
  obtain ⟨hw', hsb, hinum, hok⟩ := ht
  exact ⟨hw', hsb, hinum, fun hr => ⟨(hok hr).1, hp.touch_self (hok hr).1 (hok hr).2⟩⟩

theorem createDots_fit (ho : Open B K n s) (hK : K.card + (n + 4) ≤ B) (hw : s.toStore.Wf)
    (hdp : s.toStore.Holds K dp) (hip : s.toStore.Holds K ip) (hne : ip ≠ dp) :
    Fit B (ops.createDots dp ip) (fun _ s' => s'.ftable = s.ftable ∧ Open B K (n + 4) s' ∧
      s'.toStore.Wf ∧ s'.toStore.Holds K dp ∧ s'.toStore.Holds K ip) s := by
  unfold FsOps.createDots
  rw [fit_modifyInode_bind]
  refine ho.update (by omega) hw hdp.live hdp.covers ?_ fun t h bs hw1 htouch hself _ ho1 => ?_
  · exact ⟨rfl, rfl, rfl, rfl, rfl, rfl⟩
  have hdp1 := hdp.touch_self htouch (htouch.full_self (by rw [hself]) hdp.full)
  have hip1 := hip.touch_other htouch hne
  rw [fit_inode_bind]
  refine ho1.step (dirlink_holds hw1 hip1 dot _)
    (by omega) fun r t2 h2 bs2 ht2 ho2 => ?_
  obtain ⟨hw2, -, -, hok⟩ := ht2
  refine Fit.panicIf_bind (ho2.fits (by omega)) fun hr => ?_
  obtain ⟨htouch2, hip2⟩ := hok (not_lt.mp hr)
  have hdp2 := hdp1.touch_other htouch2 hne.symm
  rw [fit_inode_bind]
  refine ho2.step (dirlink_holds hw2 hip2 dotdot _) (by omega) fun r t3 h3 bs3 ht3 ho3 => ?_
  obtain ⟨hw3, -, -, hok3⟩ := ht3
  unfold FsOps.panicIf
  split_ifs with hr3
  · exact fit_panic (ho3.fits (by omega))
  obtain ⟨htouch3, hip3⟩ := hok3 (not_lt.mp hr3)
  exact Fit.pure ⟨rfl, ho3, hw3, hdp2.touch_other htouch3 hne.symm, hip3⟩

def Created (B : ℕ) (s : Fs) (r : Option Ptr) (s' : Fs) : Prop :=
  s'.ftable = s.ftable ∧ match r with
    | none => Within B s'.brackets
    | some ip => ∃ K n, K.card + n ≤ B ∧ Open B K n s' ∧ s'.toStore.Wf ∧
        s'.toStore.Covers K ip

theorem createNew_fit (ho : Open B K 0 s) (hK : K.card + 8 ≤ B) (hw : s.toStore.Wf)
    (hdp : s.toStore.Holds K dp) (name : Str) (type major minor : Short) :
    Fit B (ops.createNew dp name type major minor) (Created B s) s := by
  unfold FsOps.createNew
  refine ho.step (ialloc_fresh hw type) (by omega)
    fun ip t h bs ht ho1 => ?_
  obtain ⟨hw1, hsb1, hoth1, hi, hv, hsize, hneq, hheld⟩ := ht
  have hne : ip ≠ dp := (hneq dp hdp.live).symm
  obtain ⟨K1, hK1, hsub, hcov1, ho1'⟩ := ho1.cover (hsb1.symm ▸ hdp.covers.map) ip
  refine ho1'.step (k := 0) (ilock_live hw1 fun _ => hi)
    (by omega) fun _ t2 h2 bs2 ht2 ho2 => ?_
  obtain ⟨hw2, hlive, hsb2, hoth2, hinum, -, hheld2, hread⟩ := ht2
  have hdpe : t2.icache dp = s.icache dp := by
    rw [hoth2 dp hne.symm, wrote_toStore, hoth1 dp hne.symm]
  have hsb : t2.sb = s.sb := hsb2.trans hsb1
  have hip2 : t2.Holds K1 ip := by
    refine ⟨hlive, ?_, hcov1.congr hsb2 hinum⟩
    unfold Full
    rw [hread hv, wrote_toStore, hsize]
    intro bn hbn
    exact absurd hbn (Nat.not_lt_zero _)
  have hdp2 : t2.Holds K1 dp := by
    refine ⟨by rw [hdpe]; exact hdp.live, ?_, (hdp.covers.congr hsb (by rw [hdpe])).mono hsub⟩
    unfold Full
    rw [hdpe]
    intro bn hbn
    obtain ⟨b, hb⟩ := hdp.full bn hbn
    exact ⟨b, by rw [hheld2]; exact hheld _ _ hb⟩
  rw [fit_modifyInode_bind]
  refine ho2.update (by omega) hw2 hlive hip2.covers ?_ fun t3 h3 bs3 hw3 htouch hself _ ho3 => ?_
  · exact ⟨rfl, rfl, rfl, rfl, rfl, rfl⟩
  have hip3 := hip2.touch_self htouch (htouch.full_self (by rw [hself]) hip2.full)
  have hdp3 := hdp2.touch_other htouch hne.symm
  have hdots : Fit B (if type = T_DIR then ops.createDots dp ip else Pure.pure ())
      (fun _ s' => s'.ftable = s.ftable ∧ Open B K1 (0 + 1 + 0 + 4) s' ∧ s'.toStore.Wf ∧
        s'.toStore.Holds K1 dp ∧ s'.toStore.Holds K1 ip)
      (((s.wrote t h bs).wrote t2 h2 bs2).wrote t3 h3 bs3) := by
    split_ifs
    · exact createDots_fit ho3 (by omega) hw3 hdp3 hip3 hne
    · exact Fit.pure ⟨rfl, ho3.more, hw3, hdp3, hip3⟩
  refine hdots.bind fun _ s4 ⟨hft, ho4, hw4, hdp4, hip4⟩ => ?_
  rw [fit_inode_bind]
  refine ho4.step (dirlink_holds hw4 hdp4 name _) (by omega) fun r t5 h5 bs5 ht5 ho5 => ?_
  obtain ⟨hw5, hsb5, hinum5, -⟩ := ht5
  refine Fit.panicIf_bind (ho5.fits (by omega)) fun _ => ?_
  have hcovd5 := hdp4.covers.congr hsb5 (hinum5 dp hdp4.live.1)
  have hcov5 := hip4.covers.congr hsb5 (hinum5 ip hip4.live.1)
  refine ho5.put (by omega) hw5 hcovd5 fun t6 h6 bs6 hw6 hsb6 hoth6 hi6 ho6 => ?_
  exact Fit.pure ⟨hft, _, _, by omega, ho6, hw6, hcov5.congr hsb6 (hoth6.inum hi6 ip)⟩

theorem create_fit (ho : Open B K 0 s) (hK : K.card + 9 ≤ B) (hmap : s.sb.mapBlocks ⊆ ↑K)
    (hc : s.toStore.Consistent) (hcwd : ∀ p, s.cwd = some p → 0 < (s.icache p).ref)
    (path : Str) (type major minor : Short) :
    Fit B (ops.create path type major minor) (Created B s) s := by
  unfold FsOps.create
  refine ho.namex (by omega) hc hcwd path true fun r t h bs ht ho1 => ?_
  cases r with
  | none => exact Fit.pure ⟨rfl, ho1.fits (by omega)⟩
  | some r =>
    obtain ⟨dp, name⟩ := r
    refine ho1.lock (by omega) hc hmap ht fun K2 t2 h2 bs2 hK2 hsub hwalk hdp _ hcovd ho2 => ?_
    refine ho2.step (k := 0) (walk_dirlookup hc hwalk hdp name) (by omega) fun r t3 h3 bs3 ht3 ho3 => ?_
    obtain ⟨-, hnone, hsome⟩ := ht3
    cases r with
    | none =>
      obtain rfl := hnone rfl
      exact createNew_fit ho3 (by omega) hwalk.wf ⟨hdp, hwalk.full hc hdp, hcovd⟩ name type major
        minor
    | some r =>
      obtain ⟨ip, off⟩ := r
      obtain ⟨hwalk3, -, i, a, hto, rfl⟩ := hsome ip off rfl
      have hwalk3' := hwalk3.perm (List.Perm.swap dp ip [])
      refine ho3.step (k := 0) (walk_iunlockput hc hwalk3')
        (by omega) fun _ t4 h4 bs4 ht4 ho4 => ?_
      refine ho4.lock (by omega) hc (hmap.trans (Finset.coe_subset.mpr hsub)) ht4
        fun K5 t5 h5 bs5 hK5 _ hwalk5 _ _ hcov5 ho5 => ?_
      rw [fit_inode_bind]
      split_ifs
      · exact Fit.pure ⟨rfl, _, _, by omega, ho5, hwalk5.wf, hcov5⟩
      · exact ho5.put (by omega) hwalk5.wf hcov5 fun _ _ _ _ _ _ _ ho6 =>
          Fit.pure ⟨rfl, ho6.fits (by omega)⟩

theorem fileclose_new {f : Fin NFILE} (hr : (s.ftable f).ref = 1) (ht : (s.ftable f).type = .none) :
    ops.fileclose f s = .ok ()
      { s with ftable := Function.update s.ftable f { s.ftable f with ref := 0, type := .none } } := by
  unfold FsOps.fileclose
  change (FsOps.panicIf ops ((s.ftable f).ref < 1) _ >>= _) s = _
  unfold FsOps.panicIf
  rw [hr, if_neg (by decide), pure_bind, if_neg (by decide), ht]
  rfl

theorem fit_ops_ftable_bind {f : (Fin NFILE → File) → FsM α} {Q : α → Fs → Prop} :
    Fit B (ops.ftable >>= f) Q s ↔ Fit B (f s.ftable) Q s := Iff.rfl

theorem fit_ops_ofile_bind {f : (Fin NOFILE → Option (Fin NFILE)) → FsM α} {Q : α → Fs → Prop} :
    Fit B (ops.ofile >>= f) Q s ↔ Fit B (f s.ofile) Q s := Iff.rfl

theorem openFile_ends (hK : K.card + n ≤ B) (ho : Open B K n s) (hw : s.toStore.Wf)
    (hcov : s.toStore.Covers K ip)
    (hclosed : ∀ f, (s.ftable f).ref = 0 → (s.ftable f).type = .none) (omode : BitVec 32) :
    Ends B (ops.openFile ip omode) s := by
  rw [Ends, FsOps.openFile, FsOps.filealloc, bind_assoc, fit_ops_ftable_bind]
  cases hf : (finRange NFILE).find? fun f => (s.ftable f).ref == 0 with
  | none => exact ho.ends_iunlockput hK hw hcov
  | some f =>
    have hz : (s.ftable f).ref = 0 := by simpa using find?_some hf
    set s1 : Fs := { s with ftable := Function.update s.ftable f { s.ftable f with ref := 1 } } with hs1
    have ho1 : Open B K n s1 := ho
    change Fit B (ops.fdalloc f >>= _) _ s1
    rw [FsOps.fdalloc, bind_assoc, fit_ops_ofile_bind]
    cases (finRange NOFILE).find? fun fd => (s.ofile fd).isNone with
    | none =>
      have hclose := fileclose_new (s := s1) (f := f) (by simp [hs1]) (by simpa [hs1] using hclosed f hz)
      change Fit B (ops.fileclose f >>= _) _ s1
      unfold Fit Exec.wp
      rw [Exec.bind_apply, hclose]
      exact Open.ends_iunlockput (s := { s1 with ftable := _ }) ho1 hK hw hcov
    | some fd =>
      refine Open.step (k := 0) (s := { s1 with ofile := Function.update s.ofile fd (some f) }) ho1
        iunlock_spec hK fun _ t h bs _ ho2 => ?_
      refine (fit_endOp (ho2.fits hK)).bind fun _ s' hs' => ?_
      obtain ⟨log, rfl⟩ := hs'
      exact ho2.fits hK

variable (hc : s.Consistent) (hroom : s.sb.size / BPB + 10 ≤ B) (h : Within B s.brackets)

include hc hroom h in
theorem sysOpen_ends (args : Option (Str × BitVec 32)) : Ends B (ops.sysOpen args) s := by
  cases args with
  | none => exact Fit.pure h
  | some args =>
    obtain ⟨path, omode⟩ := args
    refine fit_begin hroom h fun K log hK hcov ho => ?_
    split_ifs
    · refine (create_fit ho hK hcov hc.store hc.cwd path T_FILE 0 0).bind fun r s2 hr => ?_
      obtain ⟨hft2, hr⟩ := hr
      cases r with
      | none => exact Ends.endOp hr
      | some ip =>
        obtain ⟨K, n, hK, ho2, hw2, hcov2⟩ := hr
        refine openFile_ends hK ho2 hw2 hcov2 (fun f => ?_) omode
        rw [hft2]
        exact hc.closed f
    · refine ho.namei (by omega) hc.store hc.cwd path fun r t hh bs ht ho1 => ?_
      cases r with
      | none => exact Ends.endOp (ho1.fits (by omega))
      | some ip =>
        refine ho1.lock (by omega) hc.store hcov ht fun K2 t2 h2 bs2 hK2 _ hwalk _ _ hcov2 ho2 => ?_
        rw [fit_inode_bind]
        split_ifs
        · exact ho2.ends_iunlockput (by omega) hwalk.wf hcov2
        · exact openFile_ends (by omega) ho2 hwalk.wf hcov2 hc.closed omode

theorem createPut_ends (ho : Open B K 0 s) (hK : K.card + 9 ≤ B)
    (hmap : s.sb.mapBlocks ⊆ ↑K) (hc : s.toStore.Consistent)
    (hcwd : ∀ p, s.cwd = some p → 0 < (s.icache p).ref) (path : Str) (type major minor : Short) :
    Ends B (ops.createPut path type major minor) s := by
  unfold FsOps.createPut
  refine (create_fit ho hK hmap hc hcwd path type major minor).bind fun r s2 hr => ?_
  obtain ⟨-, hr⟩ := hr
  cases r with
  | none => exact Ends.endOp hr
  | some ip =>
    obtain ⟨K, n, hK, ho2, hw2, hcov2⟩ := hr
    exact ho2.ends_iunlockput hK hw2 hcov2

include hc hroom h in
theorem sysMkdir_ends (path : Option Str) : Ends B (ops.sysMkdir path) s := by
  refine fit_begin hroom h fun K log hK hcov ho => ?_
  cases path with
  | none => exact Ends.endOp (ho.fits (by omega))
  | some path => exact createPut_ends ho hK hcov hc.store hc.cwd path _ _ _

include hc hroom h in
theorem sysMknod_ends (args : Option (Str × ℤ × ℤ)) : Ends B (ops.sysMknod args) s := by
  refine fit_begin hroom h fun K log hK hcov ho => ?_
  cases args with
  | none => exact Ends.endOp (ho.fits (by omega))
  | some args => exact createPut_ends ho hK hcov hc.store hc.cwd args.1 _ _ _

structure Idle (B : ℕ) (s : Fs) : Prop where
  wf : s.toStore.Wf
  room : s.sb.size / BPB + 10 ≤ B
  fits : Within B s.brackets

theorem Does.silent {m : FsM α} {f : α → FsM β} {R : α → Store → Prop} (hd : Does ∅ 0 m R s)
    (h : Within B s.brackets)
    (hf : ∀ a s', s'.brackets = s.brackets → R a s'.toStore → Fit B (f a) Q s') :
    Fit B (m >>= f) Q s := by
  have hnil : ∀ {bs : List ℕ}, Spread ∅ 0 bs → recordAll bs s.brackets = s.brackets := by
    intro bs hbs
    obtain rfl : bs = [] := eq_nil_iff_forall_not_mem.mpr fun b hb => hbs.zero b hb
    cases s.brackets <;> rfl
  refine Fit.bind (P := fun a s' => s'.brackets = s.brackets ∧ R a s'.toStore) ?_
    fun a s' hs => hf a s' hs.1 hs.2
  refine Exec.wp.mono hd ?_ ?_
  · intro a s' ⟨t, hh, bs, hs, _, hb, hr⟩
    subst hs
    exact ⟨hnil hb, hr⟩
  · intro e s' ⟨t, hh, bs, hs, _, hb, _⟩
    subst hs
    change Within B (recordAll bs s.brackets)
    rw [hnil hb]
    exact h

theorem chmod_ends (hs : s.Idle B) (hi : 0 < (s.icache p).ref → (s.icache p).inum < s.sb.ninodes)
    {mode : ℤ} : Ends B (ops.chmod p mode) s := by
  unfold FsOps.chmod
  split_ifs with hle
  · exact Fit.pure hs.fits
  refine fit_begin hs.room hs.fits fun K log hK hmap ho => ?_
  obtain ⟨K1, hK1, -, hcov, ho'⟩ := ho.cover hmap p
  refine ho'.step (k := 0) (ilock_live hs.wf hi) (by omega)
    fun _ t h bs ht ho1 => ?_
  obtain ⟨-, hp1, hsb, -, hinum, -⟩ := ht
  refine ho1.step (k := 0) (does_modifyInode p _)
    (by omega) fun _ t2 h2 bs2 ht2 ho2 => ?_
  refine ho2.step (k := 0) iunlock_spec (by omega)
    fun _ t3 h3 bs3 ht3 ho3 => ?_
  subst ht2 ht3
  refine ho3.step (k := 0) (does_iupdate ?_) (by omega)
    fun _ t4 h4 bs4 ht4 ho4 => Ends.endOp (ho4.fits (by omega))
  simp only [wrote_toStore, setInode_self, setInode_sb]
  rw [hinum, hsb]
  exact hcov.block

include hc hroom h in
theorem sysChmod_ends {args : Option (Str × ℤ)} : Ends B (ops.sysChmod args) s := by
  cases args with
  | none => exact Fit.pure h
  | some args =>
    refine (namei_spec hc.store hc.cwd args.1).silent h fun r s' hb hwalk => ?_
    have hfits : Within B s'.brackets := hb ▸ h
    cases r with
    | none => exact Fit.pure hfits
    | some ip =>
      have hroom' : s'.sb.size / BPB + 10 ≤ B := by
        rw [hwalk.sb]
        exact hroom
      exact chmod_ends ⟨hwalk.wf, hroom', hfits⟩ fun _ => hwalk.lt hc.store mem_cons_self

theorem iput_endOp (hw : s.toStore.Wf) (hroom : s.sb.size / BPB + 10 ≤ B)
    (hK : K.card + 9 ≤ B) (hcov : s.sb.mapBlocks ⊆ ↑K) (ho : Open B K 0 s) (p : Ptr)
    (hf : ∀ s', s'.Idle B → Fit B (f ()) Q s') :
    Fit B (ops.iput p >>= fun _ => ops.endOp >>= f) Q s := by
  obtain ⟨K', hK', -, hcov', ho'⟩ := ho.cover hcov p
  refine ho'.step (k := 0) (iput_spec hw hcov'.map hcov'.block) (by omega)
    fun _ t h bs ht ho1 => ?_
  obtain ⟨hw1, hsb, -⟩ := ht
  have hfits := ho1.fits (by omega)
  refine (fit_endOp hfits).bind fun _ s' hs' => ?_
  obtain ⟨log, rfl⟩ := hs'
  refine hf _ ⟨hw1, ?_, hfits⟩
  change t.sb.size / BPB + 10 ≤ B
  rw [hsb]
  exact hroom

theorem fileclose_idle (hs : s.Idle B) (f : Fin NFILE) :
    Fit B (ops.fileclose f) (fun _ s' => s'.Idle B) s := by
  unfold FsOps.fileclose
  rw [fit_file_bind]
  refine Fit.panicIf_bind hs.fits fun _ => ?_
  have hset : ∀ file, Fit B (ops.setFile f file) (fun _ s' => s'.Idle B) s := fun _ =>
    ⟨hs.wf, hs.room, hs.fits⟩
  split_ifs
  · exact hset _
  · refine (hset _).bind fun _ s' hs' => ?_
    cases (s.ftable f).type with
    | inode =>
      refine fit_begin hs'.room hs'.fits fun K log hK hcov ho => ?_
      have hput := iput_endOp (Q := fun _ s'' => s''.Idle B) (s := { s' with log := log, brackets := _ })
        hs'.wf hs'.room hK hcov ho (s.ftable f).ip (f := Pure.pure) fun s'' hs'' => Fit.pure hs''
      simpa using hput
    | pipe => exact Fit.pure hs'
    | none => exact Fit.pure hs'

theorem closeAll_idle (hs : s.Idle B) (fds : List (Fin NOFILE)) :
    Fit B (ops.closeAll fds) (fun _ s' => s'.Idle B) s := by
  induction fds generalizing s with
  | nil => exact Fit.pure hs
  | cons fd fds ih =>
    rw [FsOps.closeAll, fit_ops_ofile_bind]
    cases s.ofile fd with
    | none => exact ih hs
    | some f =>
      refine (fileclose_idle hs f).bind fun _ s' hs' => ?_
      exact Fit.bind (P := fun _ s'' => s''.Idle B) ⟨hs'.wf, hs'.room, hs'.fits⟩
        fun _ s'' hs'' => ih hs''

theorem exit_ends (hs : s.Idle B) : Ends B ops.exit s := by
  unfold FsOps.exit
  refine Fit.panicIf_bind (s := s) hs.fits fun _ => ?_
  refine (closeAll_idle hs _).bind fun _ s' hs' => ?_
  refine fit_begin hs'.room hs'.fits fun K log hK hcov ho => ?_
  change Fit B (match s'.cwd with
    | none => _
    | some ip => _) _ _
  split
  · exact fit_panic (ho.fits (by omega))
  · refine iput_endOp (s := { s' with log := log, brackets := _ }) hs'.wf hs'.room hK hcov ho _ ?_
    exact fun s'' hs'' => hs''.fits

theorem rounds_piece (off : ℕ) {len : ℕ} (h : len ≤ FsOps.maxPiece) : rounds off len ≤ 4 := by
  have hmax : FsOps.maxPiece = 1536 := rfl
  have hmod : off % BSIZE < BSIZE := Nat.mod_lt _ (by decide)
  rw [hmax] at h
  unfold rounds
  simp only [BSIZE] at *
  split_ifs <;> omega

theorem filewriteFrom_ends (hs : s.Idle B)
    (hi : ∀ p, 0 < (s.icache p).ref → (s.icache p).inum < s.sb.ninodes) (f : Fin NFILE) (k : ℕ)
    (src : List UInt8) : Ends B (ops.filewriteFrom f k src) s := by
  induction k generalizing s src with
  | zero => exact Fit.pure hs.fits
  | succ k ih =>
    unfold FsOps.filewriteFrom
    split_ifs
    · exact Fit.pure hs.fits
    dsimp only
    refine fit_begin hs.room hs.fits fun K log hK hcov ho => ?_
    rw [fit_file_bind]
    obtain ⟨K1, hK1, -, hcov', ho'⟩ := ho.cover hcov (s.ftable f).ip
    refine ho'.step (k := 0) (ilock_live hs.wf (hi _)) (by omega)
      fun _ t h bs ht ho1 => ?_
    obtain ⟨hw1, hlive, hsb, hoth, hinum, href, -⟩ := ht
    rw [fit_file_bind]
    have hcov1 := hcov'.congr hsb hinum
    have hpiece := rounds_piece (s.ftable f).off (length_take_le FsOps.maxPiece src)
    refine ho1.step (writei_spec hw1 hlive hcov1.map hcov1.block _ _) (by
      change _ + (0 + 0 + 2 * rounds (s.ftable f).off _) ≤ _
      omega) fun r t2 h2 bs2 ht2 ho2 => ?_
    obtain ⟨hw2, htouch, -⟩ := ht2
    -- the position of the file moves, the inodes stay
    have hoff : Fit B (if r > 0 then ops.advance f r.toNat else Pure.pure ())
        (fun _ s' => s'.toStore = t2 ∧
          Open B K1 (0 + 0 + 2 * rounds (s.ftable f).off (src.take FsOps.maxPiece).length) s')
        (({ s with log := log, brackets := [] :: s.brackets }.wrote t h bs).wrote t2 h2 bs2) := by
      split_ifs
      · exact ⟨rfl, ho2⟩
      · exact Fit.pure ⟨rfl, ho2⟩
    refine hoff.bind fun _ s3 hs3 => ?_
    obtain ⟨hst3, ho3⟩ := hs3
    refine ho3.step (k := 0) iunlock_spec (by omega) fun _ t4 h4 bs4 ht4 ho4 => ?_
    have hfits := ho4.fits (by omega)
    refine (fit_endOp hfits).bind fun _ s5 hs5 => ?_
    obtain ⟨log', rfl⟩ := hs5
    split_ifs
    · exact Fit.pure hfits
    refine Fit.panicIf_bind hfits fun _ => ?_
    rw [hst3] at ht4
    replace ht4 : t4 = t2.setInode (s.ftable f).ip
      { t2.icache (s.ftable f).ip with lock := none } := ht4
    have hsb4 : t4.sb = s.sb := by
      rw [ht4, setInode_sb, htouch.sb, wrote_toStore, hsb]
    have hsame : ∀ p, (t4.icache p).ref = (s.icache p).ref ∧
        (t4.icache p).inum = (s.icache p).inum := by
      intro p
      by_cases hp : p = (s.ftable f).ip
      · rw [ht4, hp, setInode_self]
        exact ⟨htouch.ref.trans href, htouch.inum.trans hinum⟩
      · rw [ht4, setInode_ne hp, htouch.others p hp]
        exact ⟨congrArg Inode.ref (hoth p hp), congrArg Inode.inum (hoth p hp)⟩
    refine ih (s := { s3.wrote t4 h4 bs4 with log := log' }) ⟨?_, ?_, hfits⟩ ?_ _
    · change t4.Wf
      rw [ht4]
      exact hw2.quiet (hw2.quiet_lock none)
    · change t4.sb.size / BPB + 10 ≤ B
      rw [hsb4]
      exact hs.room
    · intro p hp
      change (t4.icache p).inum < t4.sb.ninodes
      rw [(hsame p).2, hsb4]
      refine hi p ?_
      rw [← (hsame p).1]
      exact hp

end Fs

namespace FsCall

open Fs

variable {s s' : Fs}

theorem run_ends {B : ℕ} (hc : s.Consistent) (hroom : s.sb.size / BPB + 10 ≤ B)
    (h : Within B s.brackets) {c : FsCall} : Ends B c.run s := by
  have hidle : s.Idle B := ⟨hc.store.wf, hroom, h⟩
  -- `run` only forgets the result
  have hvoid : ∀ {α : Type} {m : FsM α}, Ends B m s → Ends B (m >>= fun _ => Pure.pure ()) s :=
    fun hm => Fit.bind hm fun _ _ hs => Fit.pure hs
  cases c with
  | filewrite f src pipe =>
    refine hvoid ?_
    unfold FsOps.filewrite Ends
    rw [fit_file_bind]
    split_ifs
    · exact Fit.pure h
    cases (s.ftable f).type with
    | pipe => exact Fit.pure h
    | inode =>
      exact Fit.bind (filewriteFrom_ends hidle hc.store.ref_lt f _ src) fun _ _ hs => Fit.pure hs
    | none => exact fit_panic h
  | sysOpen args => exact hvoid (sysOpen_ends hc hroom h args)
  | sysMkdir path => exact hvoid (sysMkdir_ends hc hroom h path)
  | sysMknod args => exact hvoid (sysMknod_ends hc hroom h args)
  | sysLink args => exact hvoid (sysLink_ends hc hroom h args)
  | sysUnlink path => exact hvoid (sysUnlink_ends hc hroom h path)
  | chmod ip mode => exact hvoid (chmod_ends hidle (hc.store.ref_lt ip))
  | sysChmod args => exact hvoid (sysChmod_ends hc hroom h)
  | fileclose f => exact (fileclose_idle hidle f).mono fun _ _ hs => hs.fits
  | exit => exact exit_ends hidle

/-- Every bracket of a file-system call, run alone on a file system with one map block,
logs at most `MAXOPBLOCKS` different blocks, whether the call returns, panics or sleeps. -/
theorem brackets_fit (hc : s.Consistent) (hmap : s.sb.size < BPB) (hb : s.brackets = [])
    (c : FsCall) : Fits (c.run s).state.brackets := by
  have h := run_ends (B := MAXOPBLOCKS) hc (by rw [Nat.div_eq_of_lt hmap]; decide)
    (by rw [hb]; exact nofun) (c := c)
  unfold Ends Fit Exec.wp at h
  cases hr : c.run s with
  | ok a s' =>
    rw [hr] at h
    exact h
  | halt e s' =>
    rw [hr] at h
    exact h

theorem rootFs_consistent : rootFs.Consistent := by
  have hlive : ∀ p, ¬(rootFs.icache p).Live := fun p hp => absurd hp.1 (lt_irrefl 0)
  have hone : ∀ i, rootFs.toStore.Allocated i → i = ROOTINO := by
    intro i hi
    by_contra hne
    refine hi.2 ?_
    rw [rootFs_dinode, if_neg hne]
    exact blankFs_free hi.1
  have hsize : (rootFs.toStore.view ROOTINO).size = 0 := by
    rw [view_none fun p hp => absurd hp (hlive p)]
    rw [rootFs_dinode, if_pos rfl]
    rfl
  have hnamed : ∀ i, rootFs.toStore.Named i → i = ROOTINO := by
    intro i hi
    rcases hi with hi | ⟨j, off, ha, -, -, hoff, -⟩
    · exact hi
    · rw [hone j ha, hsize] at hoff
      exact absurd hoff (by simp [DIRENTSIZE])
  refine ⟨⟨rootFs_wf, ?_, ?_, ?_, ?_⟩, fun p hp => ?_, fun f _ => rfl⟩
  · intro i hi bn hbn
    rw [hone i hi, hsize] at hbn
    exact absurd hbn (Nat.not_lt_zero _)
  · intro i hi
    rw [hnamed i hi]
    decide
  · intro i hi _ hl
    rw [hnamed i hi] at hl
    rw [rootFs_dinode, if_pos rfl] at hl
    exact absurd hl (by decide)
  · exact fun p hp => absurd hp (lt_irrefl 0)
  · exact absurd hp (by simp [rootFs, blankFs])

/-- Making a directory logs the block of the inodes, the free map and the first block of the root and
of the new directory. -/
theorem brackets_fit_mkdir : ∃ s', (sysMkdir (some [slash, 100])).run rootFs = .ok () s' ∧
    s'.brackets.map (·.toFinset) = [{32, 58, 59, 60}] ∧ Fits s'.brackets := by
  have hfit := brackets_fit rootFs_consistent (by decide) rfl (sysMkdir (some [slash, 100]))
  have hrun : (step rootFs (sysMkdir (some [slash, 100]))).any
      (fun s' => decide (s'.brackets.map (·.toFinset) = [{32, 58, 59, 60}])) = true := by
    decide +kernel
  unfold step at hrun
  cases hr : (sysMkdir (some [slash, 100])).run rootFs with
  | ok a s' =>
    rw [hr] at hfit hrun
    exact ⟨s', rfl, of_decide_eq_true hrun, hfit⟩
  | halt e s' =>
    rw [hr] at hrun
    cases hrun

end FsCall

end Xv6
