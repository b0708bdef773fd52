import Xv6.Proofs.Walk

/-! Calls inside an open bracket: rules for counting the blocks that a bracket logs, and
what the functions that change directories and inodes add to it. -/

namespace Xv6

open Store

variable {α β : Type} {s : Fs} {K : Finset ℕ} {n k : ℕ} {p q : Ptr} {t t' : Store}

namespace Fs

variable {m : FsM α} {f : α → FsM β}

variable {B : ℕ}

def Within (B : ℕ) (brackets : List (List ℕ)) : Prop :=
  ∀ l ∈ brackets, l.toFinset.card ≤ B

/-- A bracket is open, in which blocks of `K` and at most `n` others have been logged. -/
def Open (B : ℕ) (K : Finset ℕ) (n : ℕ) (s : Fs) : Prop :=
  ∃ l ls, s.brackets = l :: ls ∧ Spread (↑K) n l ∧ Within B ls

theorem Open.fits (h : Open B K n s) (hK : K.card + n ≤ B) : Within B s.brackets := by
  obtain ⟨l, ls, hb, ⟨F, hF, hl⟩, hls⟩ := h
  rw [hb]
  intro c hc
  rcases List.mem_cons.mp hc with rfl | hc
  · have hsub : c.toFinset ⊆ K ∪ F := by
      intro b hbc
      rw [Finset.mem_union]
      exact hl b (List.mem_toFinset.mp hbc)
    calc c.toFinset.card ≤ (K ∪ F).card := Finset.card_le_card hsub
      _ ≤ K.card + F.card := Finset.card_union_le K F
      _ ≤ B := by omega
  · exact hls c hc

theorem Open.more (h : Open B K n s) : Open B K (n + k) s := by
  obtain ⟨l, ls, hb, hl, hls⟩ := h
  exact ⟨l, ls, hb, hl.mono subset_rfl (Nat.le_add_right n k), hls⟩

theorem Open.wrote {t : Store} {h : Hist} {bs : List ℕ} (ho : Open B K n s)
    (hbs : Spread (↑K) k bs) : Open B K (n + k) (s.wrote t h bs) := by
  obtain ⟨l, ls, hb, hl, hls⟩ := ho
  refine ⟨bs ++ l, ls, ?_, hl.append hbs, hls⟩
  change recordAll bs s.brackets = _
  rw [hb]
  rfl

def Fit (B : ℕ) (m : FsM α) (Q : α → Fs → Prop) (s : Fs) : Prop :=
  Exec.wp m Q (fun _ s' => Within B s'.brackets) s

def Ends (B : ℕ) (m : FsM α) (s : Fs) : Prop := Fit B m (fun _ s' => Within B s'.brackets) s

variable {Q : β → Fs → Prop} {R : α → Store → Prop}

variable {P : α → Fs → Prop}

theorem Fit.bind (h : Fit B m P s) (hf : ∀ a s', P a s' → Fit B (f a) Q s') :
    Fit B (m >>= f) Q s :=
  Exec.wp.bind h hf

theorem Fit.mono {P P' : α → Fs → Prop} (h : Fit B m P s) (hP : ∀ a s', P a s' → P' a s') :
    Fit B m P' s :=
  Exec.wp.mono h hP fun _ _ he => he

variable {a : α}

theorem Fit.pure (h : P a s) : Fit B (Pure.pure a) P s := h

theorem Open.fit (ho : Open B K n s) (hd : Does (↑K) k m R s) (hk : K.card + (n + k) ≤ B) :
    Fit B m (fun a s' => ∃ t h bs, s' = s.wrote t h bs ∧ R a t ∧ Open B K (n + k) s') s := by
  refine Exec.wp.mono hd ?_ ?_
  · intro a s' ⟨t, h, bs, hs, _, hb, hr⟩
    exact ⟨t, h, bs, hs, hr, hs ▸ ho.wrote hb⟩
  · intro e s' ⟨t, h, bs, hs, _, hb, _⟩
    exact hs ▸ (ho.wrote hb).fits hk

theorem Open.step (ho : Open B K n s) (hd : Does (↑K) k m R s) (hk : K.card + (n + k) ≤ B)
    (hf : ∀ a t h bs, R a t → Open B K (n + k) (s.wrote t h bs) → Fit B (f a) Q (s.wrote t h bs)) :
    Fit B (m >>= f) Q s := by
  refine (ho.fit hd hk).bind fun a s' hs => ?_
  obtain ⟨t, h, bs, rfl, hr, ho'⟩ := hs
  exact hf a t h bs hr ho'

theorem fit_beginOp (h : Within B s.brackets) : Fit B ops.beginOp
    (fun _ s' => ∃ log, s' = { s with log := log, brackets := [] :: s.brackets }) s := by
  change Fit B beginOp _ s
  unfold Fit Exec.wp beginOp
  cases s.log.beginOp with
  | none => exact h
  | some log => exact ⟨log, rfl⟩

theorem fit_endOp (h : Within B s.brackets) :
    Fit B ops.endOp (fun _ s' => ∃ log, s' = { s with log := log }) s := by
  change Fit B endOp _ s
  unfold Fit Exec.wp endOp
  cases s.log.endOp with
  | error e => exact h
  | ok r =>
    obtain ⟨log, commit⟩ := r
    cases commit with
    | true => exact ⟨_, rfl⟩
    | false => exact ⟨_, rfl⟩

theorem Ends.endOp (h : Within B s.brackets) : Ends B (ops.endOp >>= fun _ => Pure.pure a) s := by
  refine (fit_endOp h).bind fun _ s' hs => ?_
  obtain ⟨log, rfl⟩ := hs
  exact Fit.pure h

theorem fit_panic {e : Panic} (h : Within B s.brackets) : Fit B (Fs.panic e) P s := h

theorem Fit.panicIf_bind {c : Prop} [Decidable c] {e : Panic} {f : Unit → FsM β}
    (h : Within B s.brackets) (hf : ¬c → Fit B (f ()) Q s) : Fit B (ops.panicIf c e >>= f) Q s := by
  unfold FsOps.panicIf
  split_ifs with hc
  · exact h
  · exact hf hc

theorem fit_inode_bind {f : Inode → FsM β} :
    Fit B (ops.inode p >>= f) Q s ↔ Fit B (f (s.icache p)) Q s := Iff.rfl

theorem fit_file_bind {g : Fin NFILE} {f : File → FsM β} :
    Fit B (ops.file g >>= f) Q s ↔ Fit B (f (s.ftable g)) Q s := Iff.rfl

end Fs

structure Inode.Same (n n' : Inode) : Prop where
  inum : n'.inum = n.inum
  ref : n'.ref = n.ref
  valid : n'.valid = n.valid
  type : n'.d.type = n.d.type
  size : n'.d.size = n.d.size
  addrs : n'.d.addrs = n.d.addrs

namespace Store

open Fs (Full)

theorem Wf.rewrite (hw : t.Wf) (hp : (t.icache p).Live) {n : Inode}
    (hn : Inode.Same (t.icache p) n) : ((t.setInode p n).setDinode n.inum n.d).Wf ∧
      Touch p t ((t.setInode p n).setDinode n.inum n.d) := by
  obtain ⟨hi, hr, hv, ht, -, ha⟩ := hn
  have hq := hw.quiet_fields hp.1 (hr ▸ hp.1) hi hv ha fun hl => ht ▸ (hw.loaded p hl).2
  have hw' := hw.quiet hq
  have hp' : ((t.setInode p n).icache p).Live := by
    rw [setInode_self]
    exact ⟨hr ▸ hp.1, hv.trans hp.2⟩
  have hup := hw'.iupdate hp'
  have htouch := hw'.touch_iupdate hp'
  rw [setInode_self] at hup htouch
  rw [Set.empty_sdiff] at hup
  exact ⟨hup, (hq.touch hw.unique hi hr hv).trans htouch⟩

theorem Touch.full_other (h : Touch p t t') (hq : q ≠ p) (hfull : Full t q) : Full t' q := by
  unfold Full
  rw [h.others q hq]
  intro bn hbn
  obtain ⟨b, hb⟩ := hfull bn hbn
  exact ⟨b, h.held _ _ hb⟩

theorem Touch.full_self (h : Touch p t t') (hsize : (t'.icache p).d.size = (t.icache p).d.size)
    (hfull : Full t p) : Full t' p := by
  unfold Full
  rw [h.inum, hsize]
  intro bn hbn
  obtain ⟨b, hb⟩ := hfull bn hbn
  exact ⟨b, h.held _ _ hb⟩

theorem Consistent.rewrite (hc : t.Consistent) (hp : (t.icache p).Live) {n : Inode}
    (hn : Inode.Same (t.icache p) n) : ((t.setInode p n).setDinode n.inum n.d).Consistent := by
  obtain ⟨hw', htouch⟩ := hc.wf.rewrite hp hn
  obtain ⟨hi, hr, hv, ht, hsz, ha⟩ := hn
  set t' := (t.setInode p n).setDinode n.inum n.d with ht'
  have hself : t'.icache p = n := by rw [ht', setDinode_icache, setInode_self]
  have hdin : ∀ j, j ≠ n.inum → t'.dinode j = t.dinode j := fun j hj => by
    rw [ht', setDinode_dinode, if_neg hj, setInode_dinode]
  have hdn : t'.dinode n.inum = n.d := by rw [ht', setDinode_dinode, if_pos rfl]
  have hview : ∀ j, j ≠ n.inum → t'.view j = t.view j := fun j hj => by
    rw [ht', view_setDinode]
    split_ifs with h
    · exact absurd h.1 hj
    · exact view_setInode (fun h => hj (h.2.symm.trans hi.symm)) fun h => hj h.2.symm
  have hvn : t'.view n.inum = n.d := by
    have hl : (t'.icache p).Live := (htouch.live p).mpr hp
    have := hw'.unique.view_live hl
    rwa [hself] at this
  have hvp : t.view n.inum = (t.icache p).d := hi ▸ hc.wf.unique.view_live hp
  have hap := hc.wf.loaded p hp
  have halloc : ∀ j, t'.Allocated j ↔ t.Allocated j := by
    intro j
    by_cases hj : j = n.inum
    · subst hj
      refine iff_of_true ⟨?_, ?_⟩ (hi ▸ hap.1)
      · rw [htouch.sb, hi]
        exact hap.1.1
      · rw [hdn, ht]
        exact hap.2
    · unfold Allocated
      rw [hdin j hj, htouch.sb]
  have hfields : ∀ j, (t'.view j).type = (t.view j).type ∧ (t'.view j).size = (t.view j).size ∧
      (t'.view j).addrs = (t.view j).addrs := by
    intro j
    by_cases hj : j = n.inum
    · subst hj
      rw [hvn, hvp]
      exact ⟨ht, hsz, ha⟩
    · rw [hview j hj]
      exact ⟨rfl, rfl, rfl⟩
  -- the contents of directories are in data blocks
  have hdirent : ∀ j off, t.Allocated j → off + DIRENTSIZE ≤ (t.view j).size.toNat →
      t'.dirent j off = t.dirent j off := by
    intro j off hj hoff
    unfold dirent
    refine congrArg Dirent.decode (List.map_congr_left fun k hk => ?_)
    have hk : k < DIRENTSIZE := List.mem_range.mp hk
    obtain ⟨b, hb⟩ := hc.backed j hj ((off + k) / BSIZE)
      (lt_of_le_of_lt (Nat.div_mul_le_self _ _) (by omega))
    have hb' := htouch.held _ _ hb
    unfold byteAt
    rw [(held_iff.mp hb').2.2.1, (held_iff.mp hb).2.2.1, ht', setDinode_blocks_ne]
    · rfl
    · have hib := hc.wf.geometry.iblock_lt hap.1.1
      have hmd : t.sb.bmapstart ≤ t.sb.datastart := Nat.le_add_right _ _
      have hdata : t.sb.datastart ≤ b := (hc.wf.sound.data _ _ hb).1
      rw [hi]
      change b ≠ IBLOCK _ t.sb
      omega
  have hnamed : ∀ j, t'.Named j → t.Named j := by
    intro j hj
    rcases hj with hj | ⟨d, off, had, hty, hdvd, hoff, hde, hj0⟩
    · exact .inl hj
    · rw [halloc] at had
      rw [(hfields d).1] at hty
      rw [(hfields d).2.1] at hoff
      rw [hdirent d off had hoff] at hde
      exact .inr ⟨d, off, had, hty, hdvd, hoff, hde, hj0⟩
  refine ⟨hw', ?_, ?_, ?_, ?_⟩
  · intro j hj bn hbn
    rw [(hfields j).2.1] at hbn
    obtain ⟨b, hb⟩ := hc.backed j ((halloc j).mp hj) bn hbn
    exact ⟨b, htouch.held _ _ hb⟩
  · intro j hj
    rw [htouch.sb]
    exact hc.named_lt j (hnamed j hj)
  · intro j hj haj hl
    by_cases hjn : j = n.inum
    · exact ⟨p, by rw [htouch.ref]; exact hp.1, by rw [htouch.inum, hjn, hi]⟩
    · rw [hdin j hjn] at hl
      obtain ⟨q, hq, hqi⟩ := hc.named_linked j (hnamed j hj) ((halloc j).mp haj) hl
      by_cases hqp : q = p
      · subst hqp
        exact ⟨q, by rwa [htouch.ref], by rwa [htouch.inum]⟩
      · exact ⟨q, by rwa [htouch.others q hqp], by rwa [htouch.others q hqp]⟩
  · intro q hq
    rw [htouch.sb]
    by_cases hqp : q = p
    · subst hqp
      rw [htouch.inum]
      exact hc.ref_lt q (by rwa [htouch.ref] at hq)
    · rw [htouch.others q hqp] at hq ⊢
      exact hc.ref_lt q hq

end Store

theorem Dirent.encode_length (de : Dirent) : de.encode.length = DIRENTSIZE := by
  unfold Dirent.encode
  simp only [List.length_append, Bytes.le_length, List.length_take, List.length_replicate, DIRSIZ,
    DIRENTSIZE]
  omega

namespace Fs

variable {X : Set ℕ}

theorem iunlockput_spec (hw : s.toStore.Wf) (hX : s.sb.mapBlocks ⊆ X)
    (hI : IBLOCK (s.icache p).inum s.sb ∈ X) :
    Does X 0 (ops.iunlockput p) (fun _ t => t.Wf ∧ t.sb = s.sb ∧ Others p s.toStore t ∧
      (t.icache p).inum = (s.icache p).inum) s := by
  unfold FsOps.iunlockput
  refine iunlock_spec.seq fun _ t h bs ht => ?_
  have hw1 : t.Wf := ht ▸ hw.quiet (hw.quiet_lock none)
  have hsb1 : t.sb = s.sb := by rw [ht, setInode_sb]
  have hi1 : (t.icache p).inum = (s.icache p).inum := by rw [ht, setInode_self]
  have ho1 : Others p s.toStore t := fun q hq => by rw [ht, setInode_ne hq]
  refine (iput_spec hw1 (hsb1 ▸ hX) ?_).weaken fun _ t' ht' => ?_
  · rwa [wrote_toStore, hi1, hsb1]
  · obtain ⟨hw', hsb, ho, hi, -⟩ := ht'
    exact ⟨hw', hsb.trans hsb1, fun q hq => (ho q hq).trans (ho1 q hq), hi.trans hi1⟩

theorem rounds_dirent {off : ℕ} (h : DIRENTSIZE ∣ off) : rounds off DIRENTSIZE = 1 := by
  unfold rounds
  rw [if_neg (by decide)]
  simp only [DIRENTSIZE, BSIZE] at *
  omega

/-- `dirlink` logs at most a data block and an indirect block, besides the map and the
inode of the directory. -/
theorem dirlink_held (hw : s.toStore.Wf) (hp : (s.icache p).Live) (hfull : Full s.toStore p)
    (hX : s.sb.mapBlocks ⊆ X) (hI : IBLOCK (s.icache p).inum s.sb ∈ X) (name : Str) (inum : ℕ) :
    Does X 2 (ops.dirlink p name inum) (fun r t => t.Wf ∧ t.sb = s.sb ∧
      (∀ q, 0 < (s.icache q).ref → (t.icache q).inum = (s.icache q).inum) ∧
      (0 ≤ r → Store.Touch p s.toStore t ∧ Full t p)) s := by
  unfold FsOps.dirlink
  refine Does.seq (dirlookup_held hw hp hfull name) fun r t h bs ht => ?_
  obtain ⟨hw1, hnone, hdir, hsome⟩ := ht
  cases r with
  | some r =>
    obtain ⟨ip, off⟩ := r
    obtain ⟨-, -, -, a, hto, rfl⟩ := hsome ip off rfl
    have hput := iput_spec (s := s.wrote (s.toStore.setInode ip a) h bs) (p := ip)
      (X := insert (IBLOCK a.inum s.sb) X) hw1 (hX.trans (Set.subset_insert _ _)) (by
        rw [wrote_toStore, setInode_self]
        exact Set.mem_insert _ _)
    refine (hput.of_insert.mono subset_rfl (k := 2) (by omega) fun _ _ h => h).bind (k := 0)
      fun _ t' _ _ ht' => .pure ?_
    obtain ⟨hw2, hsb, ho, hi, -⟩ := ht'
    refine ⟨hw2, hsb, fun q hq => ?_, fun h => absurd h (by decide)⟩
    by_cases hqp : q = ip
    · subst hqp
      rw [wrote_toStore, hi, wrote_toStore, setInode_self]
      rcases hto with ⟨-, -, rfl⟩ | ⟨hz, -⟩
      · rfl
      · omega
    · rw [wrote_toStore, ho q hqp, wrote_toStore, setInode_ne hqp]
  | none =>
    obtain rfl := hnone rfl
    refine Does.seq (scanAll_held (s := s.wrote _ h bs) hw hp hfull hdir (by decide) _ (dvd_zero _))
      fun e t2 h2 bs2 ht2 => ?_
    obtain ⟨rfl, hoff, -⟩ := ht2
    have hwrite := writei_spec (s := (s.wrote s.toStore h bs).wrote s.toStore h2 bs2) (p := p)
      hw hp hX hI (Dirent.encode ⟨inum, name⟩) e.2
    rw [Dirent.encode_length, rounds_dirent hoff] at hwrite
    refine hwrite.bind (k := 0) fun r t3 _ _ ht3 => ?_
    obtain ⟨hw3, htouch, -, hfull3⟩ := ht3
    refine .panicIf_bind (by decide) fun _ => .pure ⟨hw3, htouch.sb, fun q hq => ?_,
      fun _ => ⟨htouch, hfull3 hfull⟩⟩
    by_cases hqp : q = p
    · subst hqp
      exact htouch.inum
    · rw [wrote_toStore, htouch.others q hqp]
      rfl

end Fs

structure Store.Covers (t : Store) (K : Finset ℕ) (p : Ptr) : Prop where
  map : t.sb.mapBlocks ⊆ ↑K
  block : IBLOCK (t.icache p).inum t.sb ∈ K

namespace Store.Covers

theorem congr (h : t.Covers K p) (hsb : t'.sb = t.sb)
    (hi : (t'.icache p).inum = (t.icache p).inum) : t'.Covers K p := by
  refine ⟨by rw [hsb]; exact h.map, ?_⟩
  rw [hsb, hi]
  exact h.block

theorem touch (h : t.Covers K p) (ht : Touch q t t') : t'.Covers K p := by
  refine h.congr ht.sb ?_
  by_cases hp : p = q
  · rw [hp, ht.inum]
  · rw [ht.others p hp]

theorem mono {K' : Finset ℕ} (h : t.Covers K p) (hK : K ⊆ K') : t.Covers K' p :=
  ⟨h.map.trans (Finset.coe_subset.mpr hK), hK h.block⟩

end Store.Covers

namespace Fs

variable {B : ℕ} {Q : β → Fs → Prop} {a : α}

theorem ilock_live {X : Set ℕ} (hw : s.toStore.Wf)
    (hi : 0 < (s.icache p).ref → (s.icache p).inum < s.sb.ninodes) :
    Does X n (ops.ilock p) (fun _ t => t.Wf ∧ (t.icache p).Live ∧ t.sb = s.sb ∧
      Others p s.toStore t ∧ (t.icache p).inum = (s.icache p).inum ∧
      (t.icache p).ref = (s.icache p).ref ∧ t.held = s.toStore.held ∧ ((s.icache p).valid = false →
        (t.icache p).d = s.toStore.dinode (s.icache p).inum)) s := by
  refine (ilock_spec hw hi).weaken fun _ t ht => ?_
  obtain ⟨hq, hr, -, rfl⟩ := ht
  refine ⟨hw.quiet hq, ?_, rfl, fun q hqp => setInode_ne hqp, ?_, ?_, hq.held hw.unique, ?_⟩
  · rw [setInode_self]
    exact ⟨hr, rfl⟩
  · rw [setInode_self]
    rfl
  · rw [setInode_self]
    rfl
  · intro hv
    rw [setInode_self]
    unfold lockedInode
    simp [hv]

theorem fit_modifyInode_bind {g : Inode → Inode} {f : Unit → FsM β} : Fit B
    (ops.modifyInode p g >>= f) Q s ↔ Fit B (ops.setInode p (g (s.icache p)) >>= f) Q s := Iff.rfl

theorem Open.update (ho : Open B K n s) (hK : K.card + n ≤ B) (hw : s.toStore.Wf)
    (hp : (s.icache p).Live) (hcov : s.toStore.Covers K p) {a : Inode}
    (ha : Inode.Same (s.icache p) a) {f : Unit → FsM β}
    (hf : ∀ t h bs, t.Wf → Store.Touch p s.toStore t → t.icache p = a →
      (s.toStore.Consistent → t.Consistent) → Open B K n (s.wrote t h bs) →
      Fit B (f ()) Q (s.wrote t h bs)) :
    Fit B (ops.setInode p a >>= fun _ => ops.iupdate p >>= f) Q s := by
  refine ho.step (k := 0) (does_setInode p a) hK fun _ t h bs ht ho1 => ?_
  subst ht
  have hI : IBLOCK ((s.toStore.setInode p a).icache p).inum s.sb ∈ K := by
    rw [setInode_self, ha.inum]
    exact hcov.block
  have hp1 : ((s.toStore.setInode p a).icache p).Live := by
    rw [setInode_self]
    exact ⟨ha.ref ▸ hp.1, ha.valid.trans hp.2⟩
  refine ho1.step (k := 0) (does_iupdate hI) hK
    fun _ t' h' bs' ht' ho2 => ?_
  rw [wrote_toStore, setInode_self] at ht'
  subst ht'
  rw [wrote_wrote] at ho2 ⊢
  obtain ⟨hw', htouch⟩ := hw.rewrite hp ha
  exact hf _ _ _ hw' htouch setInode_self (fun hc => hc.rewrite hp ha) ho2

theorem Open.cover (ho : Open B K n s) (hmap : s.sb.mapBlocks ⊆ ↑K) (p : Ptr) :
    ∃ K', K'.card ≤ K.card + 1 ∧ K ⊆ K' ∧ s.toStore.Covers K' p ∧ Open B K' n s := by
  obtain ⟨l, ls, hb, hl, hls⟩ := ho
  refine ⟨insert (IBLOCK (s.icache p).inum s.sb) K, Finset.card_insert_le _ _,
    Finset.subset_insert _ _, ⟨hmap.trans (by simp), Finset.mem_insert_self _ _⟩, l, ls, hb, ?_, hls⟩
  exact hl.mono (by simp) le_rfl

theorem Open.put (ho : Open B K n s) (hK : K.card + n ≤ B) (hw : s.toStore.Wf)
    (hcov : s.toStore.Covers K p) {f : Unit → FsM β}
    (hf : ∀ t h bs, t.Wf → t.sb = s.sb → Others p s.toStore t →
      (t.icache p).inum = (s.icache p).inum → Open B K n (s.wrote t h bs) →
      Fit B (f ()) Q (s.wrote t h bs)) : Fit B (ops.iunlockput p >>= f) Q s :=
  ho.step (k := 0) (iunlockput_spec hw hcov.map hcov.block) hK
    fun _ t h bs ⟨hw1, hsb, hoth, hi⟩ => hf t h bs hw1 hsb hoth hi

theorem Open.ends_iunlockput (ho : Open B K n s) (hK : K.card + n ≤ B)
    (hw : s.toStore.Wf) (hcov : s.toStore.Covers K p) :
    Ends B (ops.iunlockput p >>= fun _ => ops.endOp >>= fun _ => Pure.pure a) s :=
  ho.put hK hw hcov fun _ _ _ _ _ _ _ ho1 => Ends.endOp (ho1.fits hK)

theorem linkBad_ends (ho : Open B K n s) (hK : K.card + n ≤ B) (hw : s.toStore.Wf)
    (hi : (s.icache p).inum < s.sb.ninodes) (hcov : s.toStore.Covers K p) :
    Ends B (ops.linkBad p) s := by
  unfold FsOps.linkBad
  refine ho.step (k := 0) (ilock_live hw fun _ => hi) hK
    fun _ t h bs ht ho1 => ?_
  obtain ⟨hw1, hp1, hsb, -, hinum, -⟩ := ht
  have hcov1 := hcov.congr hsb hinum
  rw [fit_modifyInode_bind]
  refine ho1.update hK hw1 hp1 hcov1 ?_ fun t2 h2 bs2 hw2 htouch _ _ ho2 => ?_
  · exact ⟨rfl, rfl, rfl, rfl, rfl, rfl⟩
  exact ho2.ends_iunlockput hK hw2 (hcov1.touch htouch)

end Fs

end Xv6
