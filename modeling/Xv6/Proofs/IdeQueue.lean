import Xv6.Proofs.Ide

/-! The queue of disk requests: what `iderw`, `ideintr` and the controller do to it, and what follows
for whole runs. -/

open Function List Option

namespace Xv6.Ide

variable {P : Type} {δ : Prop} {s s' : Ide P} {p q : P} {i j : Fin NBUF} {a : IdeAct P}

/-! ### Steps of the driver -/

theorem inv_init (δ : Prop) (disks : ℕ → ℕ → Block) (disksize : ℕ) (havedisk1 : Bool) :
    Inv δ (init disks disksize havedisk1 : Ide P) where
  wf := Bio.wf_binit ..
  pcs := fun _ => trivial
  pending := fun n i _ hi => by
    rw [show (init disks disksize havedisk1 : Ide P).appended = [] from rfl, getElem?_nil] at hi
    cases hi
  queued := ⟨[], rfl, ⟨rfl, trivial⟩, rfl, rfl⟩

variable {l : List (Fin NBUF)} {status : UInt8} {junk : Block}

theorem controller_spec (hl : Queued δ s l)
    (hread : s.ReadsSucceed (.complete status junk)) (herr : δ → s.NoError (.complete status junk))
    (hstep : s.controller status junk = some s') :
    ∃ i l', l = i :: l' ∧ s.ctrl = .busy (command (s.bio.buf i)) ∧
      (∃ sector, s'.ctrl = .done (command (s.bio.buf i)) status sector) ∧
      s' = { s with ctrl := s'.ctrl, disks := s'.disks } ∧ Queued δ s' l ∧
      ((s.bio.buf i).dirty = false → s'.disks = s.disks) ∧
      ∃ stored, (s.bio.buf i).dirty = true → s'.disks = update s.disks ((s.bio.buf i).dev % 2)
        (update (s.disks ((s.bio.buf i).dev % 2)) (s.bio.buf i).blockno stored) := by
  unfold controller at hstep
  split at hstep
  case h_2 => cases hstep
  next c hbusy =>
    cases l with
    | nil =>
      have hidle : s.ctrl = .idle := hl.ctrl
      rw [hbusy] at hidle
      cases hidle
    | cons i l =>
      obtain ⟨hno, hc⟩ := hl.ctrl
      have hcommand : c = command (s.bio.buf i) := by
        obtain hc | ⟨_, _, hc, -⟩ := hc
        · rw [hbusy] at hc
          injection hc
        · rw [hbusy] at hc
          cases hc
      subst hcommand
      have hready : idewait false status ≠ none := by
        intro hready
        rw [if_pos hready] at hstep
        cases hstep
      rw [if_neg hready, command_out, command_unit hno, command_lba hno] at hstep
      by_cases hdirty : (s.bio.buf i).dirty = true
      · rw [if_pos hdirty] at hstep
        obtain rfl := some.inj hstep
        refine ⟨i, l, rfl, hbusy, ⟨_, rfl⟩, rfl, ⟨hl.order, hl.links, hl.started, hno, .inr ⟨_, _, rfl,
          ?_, ?_⟩⟩, ?_, ⟨_, fun _ => rfl⟩⟩
        · intro hclean
          exact absurd hclean (Bool.not_eq_false _ ▸ hdirty)
        · intro hδ _
          dsimp only
          rw [update_self, update_self]
          exact if_pos (herr hδ)
        · intro hclean
          exact absurd hclean (Bool.not_eq_false _ ▸ hdirty)
      · rw [if_neg hdirty] at hstep
        obtain rfl := some.inj hstep
        refine ⟨i, l, rfl, hbusy, ⟨_, rfl⟩, rfl, ⟨hl.order, hl.links, hl.started, hno, .inr ⟨_, _, rfl,
          ?_, ?_⟩⟩, fun _ => rfl, ⟨.zero, fun h => absurd h hdirty⟩⟩
        · intro _
          exact ⟨hread _ hbusy (by rw [command_out, if_neg hdirty]), rfl⟩
        · intro _ h
          exact absurd h hdirty

/-- The first request is complete: its buffer is as `memide.c` would leave it, and the next one is
started. -/
theorem ideintr_spec (hl : Queued δ s l) (hstep : s.ideintr = some s') :
    ∃ i l' status sector, l = i :: l' ∧ s.ctrl = .done (command (s.bio.buf i)) status sector ∧
      (s.bio.buf i).blockno < FSSIZE ∧ Ended δ s.disks (s.bio.buf i) status sector ∧
      s'.bio = s.bio.setBuf i { s.bio.buf i with
        data := if (s.bio.buf i).dirty then (s.bio.buf i).data
          else s.disks ((s.bio.buf i).dev % 2) (s.bio.buf i).blockno
        valid := true
        dirty := false } ∧ s'.disks = s.disks ∧ s'.pc = s.pc ∧ s'.appended = s.appended ∧
      s'.completed = s.completed ++ [i] ∧ s'.ops = s.ops ++ [.iderw i] ∧
      s'.fromRead = update s.fromRead i !(s.bio.buf i).dirty ∧ s'.returned = s.returned ∧
      s'.started = s.started ++ l'.take 1 ∧ (∀ c status sector, s'.ctrl ≠ .done c status sector) ∧
      Queued δ s' l' := by
  unfold ideintr at hstep
  split at hstep
  case h_2 => cases hstep
  next c status sector hdone =>
    cases l with
    | nil =>
      have hidle : s.ctrl = .idle := hl.ctrl
      rw [hdone] at hidle
      cases hidle
    | cons i l =>
      obtain ⟨hno, hc⟩ := hl.ctrl
      obtain hc | ⟨status', sector', hc, hend⟩ := hc
      · rw [hdone] at hc
        cases hc
      rw [hdone] at hc
      injection hc with hc hst hse
      subst hc hst hse
      have hhead : s.cell none = some i := hl.links.head
      rw [hhead] at hstep
      dsimp only at hstep
      have hdata : (if (!(s.bio.buf i).dirty && (idewait true status).any (0 ≤ ·)) = true then sector
          else (s.bio.buf i).data) = if (s.bio.buf i).dirty then (s.bio.buf i).data
            else s.disks ((s.bio.buf i).dev % 2) (s.bio.buf i).blockno := by
        cases hd : (s.bio.buf i).dirty with
        | true => rfl
        | false =>
          obtain ⟨hok, hsec⟩ := hend.read hd
          rw [hok, hsec]
          rfl
      rw [hdata, update_self] at hstep
      have hpop := hl.links.pop
      have hcell : s.cell (some i) = l.head? := by
        rw [← hpop.head, update_self]
      rw [hcell] at hstep hpop
      have horder : s.appended = s.completed ++ [i] ++ l := by
        rw [hl.order, append_assoc]
        rfl
      have hstarted : s.started = s.completed ++ [i] := hl.started
      cases l with
      | nil =>
        obtain rfl := some.inj hstep
        exact ⟨i, [], status, sector, rfl, hdone, hno, hend, rfl, rfl, rfl, rfl, rfl, rfl, rfl, rfl,
          (append_nil _).symm, nofun, horder, hpop, hstarted.trans (append_nil _).symm, rfl⟩
      | cons j l =>
        obtain ⟨hnext, rfl⟩ := idestart_eq_some hstep
        exact ⟨i, j :: l, status, sector, rfl, hdone, hno, hend, rfl, rfl, rfl, rfl, rfl, rfl, rfl, rfl,
          rfl, nofun, horder, hpop, congrArg (· ++ [j]) hstarted, hnext, .inl rfl⟩

theorem Inv.controller (h : Inv δ s)
    (hread : s.ReadsSucceed (.complete status junk)) (herr : δ → s.NoError (.complete status junk))
    (hstep : s.controller status junk = some s') : Inv δ s' := by
  obtain ⟨l, hl⟩ := h.queued
  obtain ⟨i, l', -, -, -, hs', hl', -, -⟩ := controller_spec hl hread herr hstep
  rw [hs'] at hl' ⊢
  exact ⟨h.wf, fun r => (h.pcs r).congr rfl rfl fun _ _ hj => hj, h.pending, l, hl'⟩

theorem Inv.ideintr (h : Inv δ s) (hstep : s.ideintr = some s') : Inv δ s' := by
  obtain ⟨l, hl⟩ := h.queued
  obtain ⟨i, l', status, sector, rfl, -, -, -, hbio, -, hpc, happ, hcomp, -, -, -, -, -, hl'⟩ :=
    ideintr_spec hl hstep
  obtain ⟨o, c, ho, hlock, -⟩ := h.owner hl (k := 0) rfl
  have hnodup := nodup_cons.mp (h.nodup hl)
  refine ⟨?_, fun r => ?_, fun n j hn hj => ?_, l', hl'⟩
  · rw [hbio]
    exact h.wf.update rfl rfl rfl rfl rfl rfl rfl rfl (h.wf.locked i)
  · have hr := h.pcs r
    rw [hpc]
    have hlocks : ∀ j, (s'.bio.buf j).lock = (s.bio.buf j).lock := by
      intro j
      rw [hbio]
      by_cases hj : j = i
      · subst hj
        rw [Bio.setBuf_self]
      · rw [Bio.setBuf_of_ne hj]
    have husers : s'.bio.users = s.bio.users := by
      rw [hbio]
      rfl
    cases hcase : s.pc r with
    | out => trivial
    | locking j =>
      rw [hcase] at hr
      change (r, j) ∈ s'.bio.users
      rw [husers]
      exact hr
    | entering j c' =>
      rw [hcase] at hr
      have hne : j ≠ i := by
        rintro rfl
        obtain rfl : r = o := some.inj (hr.1.symm.trans hlock)
        rw [hcase] at ho
        cases ho
      unfold PcOk
      dsimp only
      rw [hbio, Bio.setBuf_of_ne hne]
      exact hr
    | waiting j n c' =>
      rw [hcase] at hr
      refine ⟨happ ▸ hr.1, (hlocks j).trans hr.2.1, fun hn => ?_⟩
      rw [hcomp, length_append, length_singleton] at hn
      have hne : j ≠ i := by
        rintro rfl
        have hmem : l'[n - (s.completed.length + 1)]? = some j := by
          have := hl'.getElem? (n - (s.completed.length + 1))
          rw [hcomp, happ, length_append, length_singleton, Nat.add_sub_cancel' hn] at this
          exact this.symm.trans hr.1
        exact hnodup.1 (mem_of_getElem? hmem)
      rw [hbio, Bio.setBuf_of_ne hne]
      exact hr.2.2 (by omega)
    | releasing j =>
      rw [hcase] at hr
      exact ⟨husers ▸ hr.1, fun hl => hr.2 ((hlocks j).symm.trans hl)⟩
  · rw [hcomp, length_append, length_singleton] at hn
    rw [happ] at hj
    rw [hpc]
    exact h.pending n j (by omega) hj

theorem dev_setBuf {b : Bio P} {buf : Buf P} (hbuf : buf.dev = (b.buf j).dev) :
    ((b.setBuf j buf).buf i).dev = (b.buf i).dev := by
  by_cases hij : i = j
  · subst hij
    rw [Bio.setBuf_self, hbuf]
  · rw [Bio.setBuf_of_ne hij]

theorem NoError.readsSucceed (h : s.NoError a) : s.ReadsSucceed a := by
  cases a with
  | complete status junk => exact fun _ _ _ => h
  | _ => trivial

variable [DecidableEq P]

variable {c : IdeCaller}

theorem Inv.finish {n : ℕ} (h : Inv δ s) (hpc : s.pc p = .waiting i n c)
    (hdone : ¬Needs (s.bio.buf i)) (t : Ide P) (hbio : t.bio = s.bio) (hd : SameDriver s t)
    (ht : t.pc = update s.pc p .out) : Inv δ t := by
  have hlt : n < s.completed.length := by
    by_contra hge
    have hok := h.pcs p
    rw [hpc] at hok
    exact hdone (hok.2.2 (Nat.le_of_not_lt hge))
  refine ⟨hbio ▸ h.wf, fun r => ?_, fun m j hm hj => ?_, ?_⟩
  · rw [ht]
    by_cases hr : r = p
    · subst hr
      rw [update_self]
      trivial
    · rw [update_of_ne hr]
      exact (h.pcs r).congr hbio hd.completed fun n j hj => hd.appended ▸ hj
  · rw [hd.completed] at hm
    rw [hd.appended] at hj
    obtain ⟨r, c', hr⟩ := h.pending m j hm hj
    have hne : r ≠ p := by
      rintro rfl
      rw [hpc] at hr
      injection hr
      omega
    refine ⟨r, c', ?_⟩
    rw [ht, update_of_ne hne]
    exact hr
  · obtain ⟨l, hl⟩ := h.queued
    refine ⟨l, hl.congr hd fun j _ => ⟨(s.bio.buf j).refcnt, ?_⟩⟩
    rw [hbio]

/-- What `iderw` does under `idelock`: the request goes to the end of the queue, and is started when
the queue was empty. -/
theorem append_spec (h : Inv δ s) (hl : Queued δ s l)
    (hpc : s.pc p = .entering i c) (hstep : s.append p i c = some s') :
    s'.bio = s.bio ∧ s'.disks = s.disks ∧ s'.completed = s.completed ∧
      s'.ops = s.ops ∧ s'.fromRead = s.fromRead ∧ s'.returned = s.returned ∧
      s'.pc = update s.pc p (.waiting i s.appended.length c) ∧
      s'.appended = s.appended ++ [i] ∧ Queued δ s' (l ++ [i]) ∧
      ((s'.started = s.started ∧ s'.ctrl = s.ctrl) ∨ s'.started = s.started ++ [i] ∧ l = [] ∧
        s'.ctrl = .busy (command (s.bio.buf i))) := by
  have hok := h.pcs p
  rw [hpc] at hok
  have hnot : i ∉ l := h.notMem hl hok.1 (idle_of_pc hpc nofun i)
  obtain ⟨pp, hwalk, hqueue⟩ := hl.links.push (h.nodup hl) hnot
    (Nat.lt_succ_of_le (h.length_le hl))
  unfold append at hstep
  dsimp only at hstep
  rw [hwalk, bind_some] at hstep
  cases l with
  | nil =>
    have hhead := hqueue.head
    rw [nil_append, head?_cons] at hhead
    rw [if_pos hhead] at hstep
    obtain ⟨hno, rfl⟩ := idestart_eq_some hstep
    refine ⟨rfl, rfl, rfl, rfl, rfl, rfl, rfl, rfl, ⟨?_, hqueue, ?_, hno, .inl rfl⟩, .inr ⟨rfl, rfl, rfl⟩⟩
    · exact (congrArg (· ++ [i]) hl.order).trans (append_assoc ..)
    · exact (congrArg (· ++ [i]) hl.started).trans (append_assoc ..)
  | cons j l =>
    rw [if_neg fun he => hnot (some.inj (hqueue.head.symm.trans he) ▸ mem_cons_self)]
      at hstep
    obtain rfl := some.inj hstep
    refine ⟨rfl, rfl, rfl, rfl, rfl, rfl, rfl, rfl, ⟨?_, hqueue, hl.started, ?_⟩, .inl ⟨rfl, rfl⟩⟩
    · exact (congrArg (· ++ [i]) hl.order).trans (append_assoc ..)
    · exact CtrlOk.congr (s := s) hl.ctrl rfl rfl rfl

theorem Inv.append (h : Inv δ s) (hpc : s.pc p = .entering i c)
    (hstep : s.append p i c = some s') : Inv δ s' := by
  obtain ⟨l, hl⟩ := h.queued
  obtain ⟨hbio, -, hcomp, -, -, -, hpc', happ, hl', -⟩ := append_spec h hl hpc hstep
  have hok := h.pcs p
  rw [hpc] at hok
  refine ⟨hbio ▸ h.wf, fun r => ?_, fun n j hn hj => ?_, _, hl'⟩
  · rw [hpc']
    by_cases hr : r = p
    · subst hr
      rw [update_self]
      refine ⟨?_, ?_, fun _ => ?_⟩
      · rw [happ, getElem?_append_right le_rfl, Nat.sub_self]
        rfl
      · rw [hbio]
        exact hok.1
      · rw [hbio]
        exact hok.2
    · rw [update_of_ne hr]
      refine (h.pcs r).congr hbio hcomp fun n j hj => ?_
      rw [happ, List.getElem?_append_left (List.getElem?_eq_some_iff.mp hj).1]
      exact hj
  · rw [hcomp] at hn
    rw [happ] at hj
    by_cases hlast : n < s.appended.length
    · rw [getElem?_append_left hlast] at hj
      obtain ⟨r, c', hr⟩ := h.pending n j hn hj
      have hne : r ≠ p := by
        rintro rfl
        rw [hpc] at hr
        cases hr
      exact ⟨r, c', by rw [hpc', update_of_ne hne, hr]⟩
    · rw [List.getElem?_append_right (Nat.le_of_not_lt hlast)] at hj
      obtain ⟨hk, hij⟩ := List.getElem?_eq_some_iff.mp hj
      have hn' : n = s.appended.length := by
        rw [List.length_singleton] at hk
        omega
      subst hn'
      refine ⟨p, c, ?_⟩
      rw [hpc', update_self]
      simp only [Nat.sub_self, getElem_cons_zero] at hij
      rw [hij]

theorem Inv.step (h : Inv δ s) (hread : s.ReadsSucceed a) (herr : δ → s.NoError a)
    (hstep : step s a = some s') : Inv δ s' := by
  obtain ⟨p, op, pc, hc, -⟩ | ⟨p, i, c, -, hpc, hs⟩ | ⟨p, i, n, c, -, hpc, hdone, rfl⟩ |
    ⟨status, junk, rfl, hs⟩ | ⟨-, hs⟩ := step_cases h hstep
  · exact h.cache hc
  · exact h.append hpc hs
  · refine h.finish hpc hdone _ ?_ ?_ ?_
    · split_ifs <;> rfl
    · split_ifs <;> exact ⟨rfl, rfl, rfl, rfl, rfl, rfl⟩
    · split_ifs <;> rfl
  · exact h.controller hread herr hs
  · exact h.ideintr hs

/-! ### The disk of `memide.c` -/

variable {op : BioOp P}

theorem run_disk {b b' : Bio P} (hop : ∀ i, op ≠ .iderw i) (D : ℕ → Block)
    (h : op.run b = some b') :
    op.run { b with disk := D } = some { b' with disk := D } ∧ b'.disksize = b.disksize := by
  cases op with
  | bget p dev blockno =>
    obtain ⟨⟨i, c⟩, hc, rfl⟩ := map_eq_some_iff.mp h
    unfold Bio.obtain at hc
    have hcached : ({ b with disk := D } : Bio P).cached dev blockno = b.cached dev blockno := rfl
    have hunused : ({ b with disk := D } : Bio P).unused = b.unused := rfl
    change Option.map Prod.snd (Bio.obtain _ p dev blockno) = _ ∧ _
    unfold Bio.obtain
    rw [hcached, hunused]
    cases hfind : b.cached dev blockno with
    | some j =>
      rw [hfind] at hc
      obtain ⟨rfl, rfl⟩ := Prod.mk.inj (some.inj hc)
      exact ⟨rfl, rfl⟩
    | none =>
      rw [hfind] at hc
      obtain ⟨j, hj, hij⟩ := map_eq_some_iff.mp hc
      obtain ⟨rfl, rfl⟩ := Prod.mk.inj hij
      rw [hj]
      exact ⟨rfl, rfl⟩
  | iderw i => exact absurd rfl (hop i)
  | _ =>
    obtain rfl := some.inj h
    exact ⟨rfl, rfl⟩

/-- The disk `D` of `memide.c` and the disk of the controller: they differ by the write that the
controller has ended and `ideintr` has not seen. -/
def Lags (s : Ide P) (D : ℕ → Block) : Prop :=
  match s.ctrl with
  | .done c _ _ => s.disks 1 = match c.out with
    | some data => Function.update D c.lba data
    | none => D
  | _ => s.disks 1 = D

structure Simulates (b₀ : Bio P) (s : Ide P) : Prop where
  root : ∀ p i, (p, i) ∈ s.bio.users → (s.bio.buf i).dev = ROOTDEV
  size : s.bio.disksize = b₀.disksize
  replay : ∃ D, BioOp.replay s.ops b₀ = some { s.bio with disk := D } ∧ s.Lags D

theorem run_root {b b' : Bio P} (hw : b.Wf) (hl : op.Legit b p)
    (hop : ∀ q dev blockno, op = .bget q dev blockno → dev = ROOTDEV) (h : op.run b = some b')
    (hroot : ∀ q i, (q, i) ∈ b.users → (b.buf i).dev = ROOTDEV) (q : P) (i : Fin NBUF)
    (hq : (q, i) ∈ b'.users) : (b'.buf i).dev = ROOTDEV := by
  have set : ∀ (j : Fin NBUF) (buf : Buf P), buf.dev = (b.buf j).dev → (q, i) ∈ b.users →
      ((b.setBuf j buf).buf i).dev = ROOTDEV :=
    fun j buf hdev hmem => (dev_setBuf hdev).trans (hroot q i hmem)
  cases op with
  | bget r dev blockno =>
    obtain rfl := hop r dev blockno rfl
    obtain ⟨⟨j, c⟩, hc, rfl⟩ := map_eq_some_iff.mp h
    obtain ⟨rfl, hdev, -⟩ | ⟨rfl, -, -⟩ := BioOp.obtain_cases hw hc
    · obtain heq | hmem := mem_cons.mp hq
      · obtain ⟨-, rfl⟩ := Prod.mk.inj heq
        exact (dev_setBuf (by rfl)).trans hdev
      · exact set j _ rfl hmem
    · by_cases hij : i = j
      · subst hij
        change ((b.setBuf i _).buf i).dev = ROOTDEV
        rw [Bio.setBuf_self]
      · obtain heq | hmem := mem_cons.mp hq
        · cases heq
          exact absurd rfl hij
        · change ((b.setBuf j _).buf i).dev = ROOTDEV
          rw [Bio.setBuf_of_ne hij]
          exact hroot q i hmem
  | iderw j => exact hl.elim
  | unref r j =>
    obtain rfl := some.inj h
    exact set j _ rfl (mem_of_mem_erase hq)
  | lock r j =>
    obtain rfl := some.inj h
    exact set j _ rfl hq
  | unlock j =>
    obtain rfl := some.inj h
    exact set j _ rfl hq
  | memmove j data =>
    obtain rfl := some.inj h
    exact set j _ rfl hq
  | mark j =>
    obtain rfl := some.inj h
    exact set j _ rfl hq

theorem replay_snoc (ops : List (BioOp P)) (op : BioOp P) (b : Bio P) :
    BioOp.replay (ops ++ [op]) b = (BioOp.replay ops b).bind op.run := by
  unfold BioOp.replay
  rw [foldlM_append]
  congr 1
  funext b'
  change (op.run b').bind some = op.run b'
  cases op.run b' <;> rfl

variable {b₀ : Bio P}

section

variable (h : Simulates b₀ s)
include h

theorem Simulates.cache {pc : IdePc} (hI : Inv δ s)
    (hs : CacheStep s p op pc s') (hop : ∀ q dev blockno, op = .bget q dev blockno → dev = ROOTDEV) :
    Simulates b₀ s' := by
  obtain ⟨D, hD, hlag⟩ := h.replay
  have hne : ∀ i, op ≠ .iderw i := by
    rintro i rfl
    exact hs.legit
  obtain ⟨hrun, hsize⟩ := run_disk hne D hs.run
  refine ⟨run_root hI.wf hs.legit hop hs.run h.root, hsize.trans h.size, D, ?_, ?_⟩
  · rw [hs.ops, replay_snoc, hD]
    exact hrun
  · unfold Lags at hlag ⊢
    rw [hs.driver.ctrl, hs.driver.disks]
    exact hlag

/-- Steps that leave the buffers and the disks alone, where the controller has no unseen write. -/
theorem Simulates.congr (hbio : s'.bio = s.bio)
    (hops : s'.ops = s.ops) (hlag : ∀ D, s.Lags D → s'.Lags D) : Simulates b₀ s' := by
  obtain ⟨D, hD, hl⟩ := h.replay
  refine ⟨?_, ?_, D, ?_, hlag D hl⟩
  · rw [hbio]
    exact h.root
  · rw [hbio]
    exact h.size
  · rw [hbio, hops]
    exact hD

theorem Simulates.dev (hI : Inv δ s) (hl : Queued δ s (i :: l)) : (s.bio.buf i).dev = ROOTDEV := by
  obtain ⟨o, c, -, hlock, -⟩ := hI.owner hl (k := 0) rfl
  exact h.root o i (hI.wf.locked i o hlock)

theorem Simulates.controller (hI : Inv True s) (herr : s.NoError (.complete status junk))
    (hstep : s.controller status junk = some s') : Simulates b₀ s' := by
  obtain ⟨l, hl⟩ := hI.queued
  obtain ⟨i, l', rfl, hbusy, ⟨sector, hdone⟩, hs', hl', hread, stored, hwrite⟩ :=
    controller_spec hl herr.readsSucceed (fun _ => herr) hstep
  have hbio : s'.bio = s.bio := by rw [hs']
  have hdev : (s.bio.buf i).dev % 2 = 1 := by
    rw [h.dev hI hl]
    rfl
  obtain ⟨hno, hc⟩ := hl'.ctrl
  rw [hbio] at hno hc
  refine h.congr hbio (by rw [hs']) fun D hD => ?_
  have hD' : s.disks 1 = D := by
    unfold Lags at hD
    rw [hbusy] at hD
    exact hD
  unfold Lags
  rw [hdone]
  dsimp only
  rw [command_out]
  by_cases hdirty : (s.bio.buf i).dirty = true
  · rw [if_pos hdirty]
    dsimp only
    obtain hc | ⟨_, _, -, hend⟩ := hc
    · rw [hdone] at hc
      cases hc
    have hdata := hend.write trivial hdirty
    rw [hwrite hdirty, hdev, update_self, update_self] at hdata
    rw [hwrite hdirty, hdev, update_self, command_lba hno, hdata, hD']
  · rw [if_neg hdirty, hread (Bool.not_eq_true _ ▸ hdirty)]
    exact hD'

end

def served (b : Bio P) (i : Fin NBUF) : Bio P :=
  { b.setBuf i { b.buf i with
      data := if (b.buf i).dirty then (b.buf i).data else b.disk (b.buf i).blockno
      valid := true
      dirty := false } with
    disk := if (b.buf i).dirty then Function.update b.disk (b.buf i).blockno (b.buf i).data
      else b.disk }

theorem iderw_run {b : Bio P} (hlock : (b.buf i).lock = some p) (hneeds : Needs (b.buf i))
    (hdev : (b.buf i).dev = 1) (hno : (b.buf i).blockno < b.disksize) :
    (BioOp.iderw i).run b = some (served b i) := by
  have hflags : ¬((b.buf i).valid && !(b.buf i).dirty) = true := by
    simpa [Needs] using hneeds
  have hok : Bio.iderw p i b = .ok () (served b i) := by
    unfold Bio.iderw
    rw [Prog.bind_apply]
    change (if _ then _ else _ : BioM P Unit) b = _
    rw [if_neg (not_not.mpr hlock), if_neg hflags, if_neg (not_not.mpr hdev),
      if_neg (Nat.not_le_of_lt hno)]
    unfold served
    cases hd : (b.buf i).dirty with
    | true => rfl
    | false => rfl
  change (b.buf i).lock.bind _ = _
  rw [hlock, bind_some, hok]

theorem Simulates.ideintr (h : Simulates b₀ s) (hI : Inv True s)
    (hsize : FSSIZE ≤ b₀.disksize) (hstep : s.ideintr = some s') : Simulates b₀ s' := by
  obtain ⟨l, hl⟩ := hI.queued
  obtain ⟨i, l', status, sector, rfl, hdone, hno, hend, hbio, hdisks, -, -, -, hops, -, -, -, hctrl, hl'⟩ :=
    ideintr_spec hl hstep
  obtain ⟨o, c, -, hlock, hneeds⟩ := hI.owner hl (k := 0) rfl
  have hdev := h.dev hI hl
  obtain ⟨D, hD, hlag⟩ := h.replay
  have hlt : (s.bio.buf i).blockno < s.bio.disksize := by
    rw [h.size]
    exact hno.trans_le hsize
  unfold Lags at hlag
  rw [hdone] at hlag
  dsimp only at hlag
  rw [command_out, command_lba hno] at hlag
  -- the write becomes visible in the disk of `memide.c`
  have hserved : served { s.bio with disk := D } i = { s'.bio with disk := s.disks 1 } := by
    rw [hbio]
    unfold served
    cases hd : (s.bio.buf i).dirty with
    | true =>
      rw [hd, if_pos rfl] at hlag
      rw [hlag]
      rfl
    | false =>
      rw [hd, if_neg Bool.false_ne_true] at hlag
      replace hlag : s.disks 1 = D := hlag
      have hmod : s.disks ((s.bio.buf i).dev % 2) = D := by
        rw [hdev]
        exact hlag
      rw [hmod, hlag]
      rfl
  have hlag' : s'.Lags (s.disks 1) := by
    unfold Lags
    split
    · next hd => exact absurd hd (hctrl _ _ _)
    · rw [hdisks]
  refine ⟨fun q j hq => ?_, ?_, s.disks 1, ?_, hlag'⟩
  · rw [hbio] at hq ⊢
    exact (dev_setBuf (by rfl)).trans (h.root q j hq)
  · rw [hbio]
    exact h.size
  · rw [hops, replay_snoc, hD, bind_some, ← hserved]
    exact iderw_run hlock hneeds hdev hlt

theorem Simulates.step (h : Simulates b₀ s) (hI : Inv True s)
    (hsize : FSSIZE ≤ b₀.disksize) (herr : s.NoError a) (hroot : s.OnRoot a)
    (hstep : step s a = some s') : Simulates b₀ s' := by
  obtain ⟨p, op, pc, hc, hop⟩ | ⟨p, i, c, -, hpc, hs⟩ | ⟨p, i, n, c, -, hpc, hdone, rfl⟩ |
    ⟨status, junk, rfl, hs⟩ | ⟨-, hs⟩ := step_cases hI hstep
  · refine h.cache hI hc fun q dev blockno he => ?_
    rw [hop q dev blockno he] at hroot
    exact hroot
  · obtain ⟨l, hl⟩ := hI.queued
    obtain ⟨hbio, hdisks, -, hops, -, -, -, -, -, hctrl⟩ := append_spec hI hl hpc hs
    refine h.congr hbio hops fun D hD => ?_
    unfold Lags at hD ⊢
    rw [hdisks]
    obtain ⟨-, hsame⟩ | ⟨-, rfl, hbusy⟩ := hctrl
    · rw [hsame]
      exact hD
    · rw [show s.ctrl = .idle from hl.ctrl] at hD
      rw [hbusy]
      exact hD
  · refine h.congr ?_ ?_ fun D hD => ?_
    · split_ifs <;> rfl
    · split_ifs <;> rfl
    · unfold Lags at hD ⊢
      split_ifs <;> exact hD
  · exact h.controller hI herr hs
  · exact h.ideintr hI hsize hs

theorem simulates_init (disks : ℕ → ℕ → Block) (disksize : ℕ) (havedisk1 : Bool) :
    Simulates (init disks disksize havedisk1 : Ide P).bio (init disks disksize havedisk1) where
  root := nofun
  size := rfl
  replay := ⟨disks 1, rfl, rfl⟩

/-! ### Whole runs -/

/-- A request is started where it is the first of the queue and the controller is not busy. -/
theorem started_spec (h : Inv True s) (herr : s.NoError a) (hstep : step s a = some s')
    (hstart : s'.started = s.started ++ [i]) : s'.queue.head? = some i ∧ ∀ c, s.ctrl ≠ .busy c := by
  have hI' := h.step herr.readsSucceed (fun _ => herr) hstep
  obtain ⟨l, hl⟩ := h.queued
  have hgrows : ∀ t : List (Fin NBUF), s'.started = s.started ++ t → t = [i] := fun t ht =>
    append_cancel_left (ht.symm.trans hstart)
  obtain ⟨p, op, pc, hc, -⟩ | ⟨p, j, c, -, hpc, hs⟩ | ⟨p, j, n, c, -, hpc, hdone, rfl⟩ |
    ⟨status, junk, rfl, hs⟩ | ⟨-, hs⟩ := step_cases h hstep
  · have := hgrows [] (by rw [hc.driver.started, append_nil])
    cases this
  · obtain ⟨-, -, -, -, -, -, -, -, hl', ⟨hsame, -⟩ | ⟨hstart', rfl, -⟩⟩ := append_spec h hl hpc hs
    · have := hgrows [] (by rw [hsame, append_nil])
      cases this
    · obtain rfl : j = i := by simpa using hgrows [j] hstart'
      rw [hI'.queue_eq hl']
      refine ⟨rfl, fun c' hc' => ?_⟩
      rw [show s.ctrl = .idle from hl.ctrl] at hc'
      cases hc'
  · have := hgrows [] (by split_ifs <;> exact (append_nil _).symm)
    cases this
  · obtain ⟨_, _, -, -, -, hs', -, -, -⟩ := controller_spec hl herr.readsSucceed (fun _ => herr) hs
    have := hgrows [] (by rw [hs', append_nil])
    cases this
  · obtain ⟨j, l', status, sector, rfl, hdone, -, -, -, -, -, -, -, -, -, -, hstart', -, hl'⟩ :=
      ideintr_spec hl hs
    have htake := hgrows _ hstart'
    rw [hI'.queue_eq hl']
    refine ⟨?_, fun c' hc' => ?_⟩
    · cases l' with
      | nil => cases htake
      | cons k l' =>
        obtain rfl : k = i := by simpa using htake
        rfl
    · rw [hdone] at hc'
      cases hc'

/-- The disk requests of any number of processes, when the controller reports no error. They complete
in the order in which they were appended, which is the order in which they are started, each once and
as the first of the queue. A completed write is on the disk, a completed read has the bytes of its
block, and `iderw` returns after its own request. With `memide.c` for the requests the cache and the
disk are the same. -/
theorem ide_requests (disks : ℕ → ℕ → Block) (disksize : ℕ) (havedisk1 : Bool)
    {acts : List (IdeAct P)} (hrun : Trans.Run step NoError (init disks disksize havedisk1) acts s) :
    s.appended = s.completed ++ s.queue ∧
    s.started = s.completed ++ s.queue.take 1 ∧
    (∀ a s' i, s.NoError a → step s a = some s' → s'.started = s.started ++ [i] →
      s'.queue.head? = some i ∧ ∀ c, s.ctrl ≠ .busy c) ∧
    (∀ s', step s .intr = some s' → ∃ i, s.queue.head? = some i ∧
      s'.completed = s.completed ++ [i] ∧ s'.disks = s.disks ∧
      ((s.bio.buf i).dirty = true →
        s.disks ((s.bio.buf i).dev % 2) (s.bio.buf i).blockno = (s.bio.buf i).data) ∧
      s'.bio.buf i = { s.bio.buf i with
        data := if (s.bio.buf i).dirty then (s.bio.buf i).data
          else s.disks ((s.bio.buf i).dev % 2) (s.bio.buf i).blockno
        valid := true
        dirty := false }) ∧
    (∀ p s', step s (.finish p) = some s' →
      ∃ i n c, s.pc p = .waiting i n c ∧ s.completed[n]? = some i) ∧
    (FSSIZE ≤ disksize → (∀ p dev blockno, .bread p dev blockno ∈ acts → dev = ROOTDEV) →
      s.queue = [] → BioOp.replay s.ops (init disks disksize havedisk1).bio =
        some { s.bio with disk := s.disks 1 }) := by
  have hI : Inv True s := hrun.induct (inv_init ..) fun s a s' hI herr hstep =>
    hI.step herr.readsSucceed (fun _ => herr) hstep
  obtain ⟨l, hl⟩ := hI.queued
  rw [hI.queue_eq hl]
  refine ⟨hl.order, hl.started, fun a s' i => started_spec hI, fun s' hs => ?_, fun p s' hs => ?_,
    fun hsize hroot hempty => ?_⟩
  · obtain ⟨i, l', status, sector, rfl, -, -, hend, hbio, hdisks, -, -, hcomp, -⟩ :=
      ideintr_spec hl hs
    refine ⟨i, rfl, hcomp, hdisks, hend.write trivial, ?_⟩
    rw [hbio, Bio.setBuf_self]
  · obtain ⟨i, n, c, hpc, hdone, -⟩ := finish_eq_some hs
    have hok := hI.pcs p
    rw [hpc] at hok
    have hlt : n < s.completed.length := by
      by_contra hge
      exact hdone (hok.2.2 (Nat.le_of_not_lt hge))
    refine ⟨i, n, c, hpc, ?_⟩
    rw [← hok.1, hl.order, getElem?_append_left hlt]
  · have hQ : ∀ a ∈ acts, ∀ p dev blockno, a = .bread p dev blockno → dev = ROOTDEV := by
      rintro a ha p dev blockno rfl
      exact hroot p dev blockno ha
    have hsim : Inv True s ∧ Simulates (init disks disksize havedisk1).bio s := by
      refine (hrun.and_mem hQ).induct
        (I := fun t => Inv True t ∧ Simulates (init disks disksize havedisk1).bio t)
        ⟨inv_init .., simulates_init ..⟩ fun t a t' ht hC hstep => ?_
      refine ⟨ht.1.step hC.1.readsSucceed (fun _ => hC.1) hstep, ht.2.step ht.1 hsize hC.1 ?_ hstep⟩
      cases a with
      | bread p dev blockno => exact hC.2 p dev blockno rfl
      | _ => trivial
    obtain ⟨D, hD, hlag⟩ := hsim.2.replay
    subst hempty
    unfold Lags at hlag
    rw [show s.ctrl = .idle from hl.ctrl] at hlag
    rw [hD, show s.disks 1 = D from hlag]

/-- The second process appends its read while the first still waits for its own, and the first then
writes its block. -/
def overlapping : List (IdeAct Bool) :=
  [.bread false 1 3, .lock false, .append false, .bread true 1 4, .lock true, .append true,
    .complete 0x40 .zero, .intr, .finish false, .memmove false ⟨0, nbuf_pos⟩ .zero,
    .bwrite false ⟨0, nbuf_pos⟩, .append false, .complete 0x40 .zero, .intr, .finish true,
    .complete 0x40 .zero, .intr, .finish false]

theorem ide_requests_overlapping : ∃ s : Ide Bool,
    Trans.Run step NoError (init (fun _ _ => .zero) 1000 true) overlapping s ∧
    s.completed.map Fin.val = [0, 1, 0] ∧ s.appended = s.completed ++ s.queue ∧
    s.started = s.completed ++ s.queue.take 1 := by
  obtain ⟨s, hrun, hs⟩ : ∃ s : Ide Bool,
      Trans.Run step NoError (init (fun _ _ => .zero) 1000 true) overlapping s ∧
        decide (s.completed.map Fin.val = [0, 1, 0]) = true :=
    Trans.Run.of_exec_any (c := fun s a => decide (s.NoError a)) (fun _ _ h => of_decide_eq_true h)
      (by decide +kernel)
  have h := ide_requests _ _ _ hrun
  exact ⟨s, hrun, of_decide_eq_true hs, h.1, h.2.1⟩

end Xv6.Ide
