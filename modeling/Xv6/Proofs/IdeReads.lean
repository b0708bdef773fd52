import Xv6.Proofs.IdeQueue

/-! What `bread` returns is what is on the disk, as long as no read command fails. `ideintr` looks at
the status only to decide whether to transfer the data: it sets `B_VALID` in any case. -/

open Function

namespace Xv6.Ide

variable {P : Type} {δ : Prop} {s s' : Ide P} {p : P} {i j : Fin NBUF} {a : IdeAct P}

structure OfDisk (disks : ℕ → ℕ → Block) (b : Buf P) : Prop where
  dev : b.dev = ROOTDEV
  valid : b.valid = true
  clean : b.dirty = false
  data : b.data = disks (b.dev % 2) b.blockno

/-- A buffer that a read request has made valid, and that has not been changed since, has the bytes of
its block, and so had every such buffer that `bread` returned. -/
structure Faithful (s : Ide P) : Prop where
  root : ∀ p i, (p, i) ∈ s.bio.users → (s.bio.buf i).dev = ROOTDEV
  bufs : ∀ i, s.fromRead i = true → OfDisk s.disks (s.bio.buf i)
  returned : ∀ e ∈ s.returned, e.fromRead = true → e.data = e.onDisk

theorem OfDisk.congr {disks : ℕ → ℕ → Block} {b b' : Buf P} (h : OfDisk disks b)
    (hb : SameBytes b b') : OfDisk disks b' := by
  obtain ⟨hdev, hno, hvalid, hdirty, hdata⟩ := hb
  refine ⟨hdev.trans h.dev, hvalid.trans h.valid, hdirty.trans h.clean, ?_⟩
  rw [hdata, hdev, hno]
  exact h.data

theorem faithful_init (disks : ℕ → ℕ → Block) (disksize : ℕ) (havedisk1 : Bool) :
    Faithful (init disks disksize havedisk1 : Ide P) where
  root := nofun
  bufs := nofun
  returned := nofun

theorem Faithful.controller {status : UInt8} {junk : Block} (h : Faithful s) (hI : Inv δ s)
    (hread : s.ReadsSucceed (.complete status junk)) (herr : δ → s.NoError (.complete status junk))
    (hstep : s.controller status junk = some s') : Faithful s' := by
  obtain ⟨l, hl⟩ := hI.queued
  obtain ⟨i, l', rfl, -, -, hs', -, hsame, stored, hwrite⟩ := controller_spec hl hread herr hstep
  obtain ⟨o, c, -, hlock, -⟩ := hI.owner hl (k := 0) rfl
  have hdev := h.root o i (hI.wf.locked i o hlock)
  have hbio : s'.bio = s.bio := by rw [hs']
  have hfrom : s'.fromRead = s.fromRead := by rw [hs']
  have hret : s'.returned = s.returned := by rw [hs']
  refine ⟨hbio ▸ h.root, fun j hj => ?_, hret ▸ h.returned⟩
  rw [hfrom] at hj
  rw [hbio]
  obtain ⟨hdev', hvalid, hclean, hdata⟩ := h.bufs j hj
  refine ⟨hdev', hvalid, hclean, ?_⟩
  cases hd : (s.bio.buf i).dirty with
  | false => rw [hsame hd, hdata]
  | true =>
    have hno : (s.bio.buf j).blockno ≠ (s.bio.buf i).blockno := by
      intro he
      obtain rfl := hI.wf.uniq j i hdev' hdev he
      rw [hclean] at hd
      cases hd
    rw [hdata, hwrite hd, hdev', hdev, update_self, update_of_ne hno]

theorem Faithful.ideintr (h : Faithful s) (hI : Inv δ s) (hstep : s.ideintr = some s') :
    Faithful s' := by
  obtain ⟨l, hl⟩ := hI.queued
  obtain ⟨i, l', _, _, rfl, -, -, -, hbio, hdisks, -, -, -, -, hfrom, hret, -⟩ :=
    ideintr_spec hl hstep
  obtain ⟨o, c, -, hlock, -⟩ := hI.owner hl (k := 0) rfl
  have hdev := h.root o i (hI.wf.locked i o hlock)
  refine ⟨fun q j hq => ?_, fun j hj => ?_, hret ▸ h.returned⟩
  · rw [hbio] at hq ⊢
    exact (dev_setBuf (by rfl)).trans (h.root q j hq)
  · rw [hfrom] at hj
    rw [hbio, hdisks]
    by_cases hji : j = i
    · subst hji
      rw [update_self] at hj
      have hclean : (s.bio.buf j).dirty = false := by simpa using hj
      rw [Bio.setBuf_self, hclean]
      exact ⟨hdev, rfl, rfl, rfl⟩
    · rw [update_of_ne hji] at hj
      rw [Bio.setBuf_of_ne hji]
      exact h.bufs j hj

theorem Faithful.of_bufs (hroot : ∀ p i, (p, i) ∈ s'.bio.users → (s'.bio.buf i).dev = ROOTDEV)
    (hbufs : ∀ i, s'.fromRead i = true → OfDisk s'.disks (s'.bio.buf i))
    (h : ∀ e ∈ s.returned, e.fromRead = true → e.data = e.onDisk)
    (hret : s'.returned = s.returned ∨ ∃ i, s'.returned = s.returned ++ [⟨i, (s'.bio.buf i).data,
      s'.fromRead i, s'.disks ((s'.bio.buf i).dev % 2) (s'.bio.buf i).blockno⟩]) : Faithful s' := by
  refine ⟨hroot, hbufs, fun e he hfrom => ?_⟩
  obtain hret | ⟨i, hret⟩ := hret
  · exact h e (hret ▸ he) hfrom
  · rw [hret, List.mem_append, List.mem_singleton] at he
    obtain he | rfl := he
    · exact h e he hfrom
    · exact (hbufs i hfrom).data

variable [DecidableEq P]

theorem Faithful.step (h : Faithful s) (hI : Inv δ s) (hread : s.ReadsSucceed a)
    (herr : δ → s.NoError a) (hroot : s.OnRoot a) (hstep : step s a = some s') : Faithful s' := by
  obtain ⟨p, op, pc, hc, hop⟩ | ⟨p, i, c, -, hpc, hs⟩ | ⟨p, i, n, c, -, hpc, hdone, rfl⟩ |
    ⟨status, junk, rfl, hs⟩ | ⟨-, hs⟩ := step_cases hI hstep
  · refine .of_bufs (run_root hI.wf hc.legit ?_ hc.run h.root) (fun j hj => ?_) h.returned hc.returned
    · intro q dev blockno he
      rw [hop q dev blockno he] at hroot
      exact hroot
    · obtain ⟨hj', hsame⟩ := hc.clean j hj
      rw [hc.driver.disks]
      exact (h.bufs j hj').congr hsame
  · obtain ⟨l, hl⟩ := hI.queued
    obtain ⟨hbio, hdisks, -, -, hfrom, hret, -⟩ := append_spec hI hl hpc hs
    refine ⟨hbio ▸ h.root, fun j hj => ?_, hret ▸ h.returned⟩
    rw [hbio, hdisks]
    exact h.bufs j (hfrom ▸ hj)
  · split_ifs
    · exact .of_bufs h.root h.bufs h.returned (.inr ⟨i, rfl⟩)
    · exact .of_bufs h.root h.bufs h.returned (.inl rfl)
  · exact h.controller hI hread herr hs
  · exact h.ideintr hI hs

/-- When no read command fails, whatever happens to the writes, `bread` returns the bytes of the block
whenever it returns a buffer that a read request has made valid, and such a buffer keeps them. -/
theorem bread_returns_disk (disks : ℕ → ℕ → Block) (disksize : ℕ) (havedisk1 : Bool)
    {acts : List (IdeAct P)}
    (hrun : Trans.Run step (fun s a => s.ReadsSucceed a ∧ s.OnRoot a) (init disks disksize havedisk1)
      acts s) :
    (∀ e ∈ s.returned, e.fromRead = true → e.data = e.onDisk) ∧
    ∀ i, s.fromRead i = true → (s.bio.buf i).valid = true ∧
      (s.bio.buf i).data = s.disks ((s.bio.buf i).dev % 2) (s.bio.buf i).blockno := by
  have hI : Inv False s ∧ Faithful s := hrun.induct (I := fun t => Inv False t ∧ Faithful t)
    ⟨inv_init .., faithful_init ..⟩ fun t a t' ht hC hstep =>
      ⟨ht.1.step hC.1 False.elim hstep, ht.2.step ht.1 hC.1 False.elim hC.2 hstep⟩
  exact ⟨hI.2.returned, fun i hi => ⟨(hI.2.bufs i hi).valid, (hI.2.bufs i hi).data⟩⟩

def readBlock (status : UInt8) : List (IdeAct Unit) :=
  [.bread () 1 3, .lock (), .append (), .complete status .zero, .intr, .finish ()]

theorem readBlock_onRoot (status : UInt8) : ∀ a ∈ readBlock status, ∀ t : Ide Unit, t.OnRoot a := by
  intro a ha t
  simp only [readBlock, List.mem_cons, List.not_mem_nil, or_false] at ha
  rcases ha with rfl | rfl | rfl | rfl | rfl | rfl <;> trivial

theorem bread_returns_disk_readBlock : ∃ s : Ide Unit,
    Trans.Run step (fun s a => s.ReadsSucceed a ∧ s.OnRoot a)
      (init (fun _ _ => .ofFn fun _ => 1) 1000 true) (readBlock IDE_DRDY) s ∧
    s.returned.length = 1 ∧ ∀ e ∈ s.returned, e.fromRead = true → e.data = e.onDisk := by
  obtain ⟨s, hrun, hs⟩ : ∃ s : Ide Unit,
      Trans.Run step NoError (init (fun _ _ => .ofFn fun _ => 1) 1000 true) (readBlock IDE_DRDY) s ∧
        decide (s.returned.length = 1) = true :=
    Trans.Run.of_exec_any (c := fun s a => decide (s.NoError a)) (fun _ _ h => of_decide_eq_true h)
      (by decide +kernel)
  have hrun' : Trans.Run step (fun s a => s.ReadsSucceed a ∧ s.OnRoot a) _ _ s :=
    (hrun.and_mem (readBlock_onRoot _)).mono fun t a hC => ⟨hC.1.readsSucceed, hC.2 t⟩
  exact ⟨s, hrun', of_decide_eq_true hs, (bread_returns_disk _ _ _ hrun').1⟩

/-- The read fails, and `bread` returns the zeros of the new buffer for a block of ones. -/
theorem bread_returns_stale : ∃ s : Ide Unit,
    Trans.Run step OnRoot (init (fun _ _ => .ofFn fun _ => 1) 1000 true)
      (readBlock (IDE_DRDY ||| IDE_ERR)) s ∧
    ∃ e ∈ s.returned, (s.bio.buf e.buf).valid = true ∧ e.fromRead = true ∧ e.data ≠ e.onDisk := by
  obtain ⟨s, hrun, hs⟩ : ∃ s : Ide Unit,
      Trans.Run step Trans.Any (init (fun _ _ => .ofFn fun _ => 1) 1000 true)
        (readBlock (IDE_DRDY ||| IDE_ERR)) s ∧
      s.returned.any (fun e => (s.bio.buf e.buf).valid && e.fromRead &&
        e.data.get 0 != e.onDisk.get 0) = true :=
    Trans.Run.of_exec_any (c := fun _ _ => true) (fun _ _ _ => trivial) (by decide +kernel)
  obtain ⟨e, he, htest⟩ := List.any_eq_true.mp hs
  simp only [Bool.and_eq_true, bne_iff_ne] at htest
  obtain ⟨⟨hvalid, hfrom⟩, hbyte⟩ := htest
  refine ⟨s, (hrun.and_mem (readBlock_onRoot _)).mono fun t a hC => hC.2 t, e, he, hvalid, hfrom, ?_⟩
  intro heq
  exact hbyte (congrArg (·.get 0) heq)

end Xv6.Ide
