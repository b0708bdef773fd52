import Xv6.Proofs.FileTable

/-! The descriptors of all processes and the reference counts of the file table, over every
sequence of system calls. -/

open Function Exec

namespace Xv6.FileTable

open Ptable (ProcState)

variable {I : Type} {t : Files I}

/-! ### The number of descriptors of an entry -/

def refs (ofile : Fin NPROC × Fin NOFILE → Option (Fin NFILE)) (f : Fin NFILE) : ℤ :=
  (Finset.univ.filter fun x => ofile x = some f).card

section Refs

variable {ofile : Fin NPROC × Fin NOFILE → Option (Fin NFILE)} {x : Fin NPROC × Fin NOFILE}
  {f : Fin NFILE}

theorem refs_set (hx : ofile x = none) :
    refs (update ofile x (some f)) = refs ofile + Pi.single f 1 := by
  funext g
  have hcard := Count.card_filter_update (fun o => o = some g) ofile x (some f)
  have hnone : ¬(none : Option (Fin NFILE)) = some g := nofun
  rw [hx, if_neg hnone, sub_zero] at hcard
  rw [refs, hcard, Pi.add_apply, Pi.single_apply, refs]
  exact congrArg _ (if_congr (Option.some_inj.trans eq_comm) rfl rfl)

theorem refs_clear (hx : ofile x = some f) :
    refs (update ofile x none) = refs ofile - Pi.single f 1 := by
  have hclear : update ofile x none x = none := update_self _ _ _
  have hset := refs_set (f := f) hclear
  rw [update_idem, ← hx, update_eq_self] at hset
  rw [hset, add_sub_cancel_right]

theorem one_le_refs (hx : ofile x = some f) : 1 ≤ refs ofile f := by
  rw [refs, Nat.one_le_cast, Nat.one_le_iff_ne_zero, ← Nat.pos_iff_ne_zero, Finset.card_pos]
  exact ⟨x, by simp [hx]⟩

end Refs

/-! ### System calls -/

def Live (st : ProcState) : Prop := st ≠ .unused ∧ st ≠ .zombie

structure Inv (s : State I) : Prop where
  sound : Sound s.files (refs s.ofile) []
  live : ∀ x f, s.ofile x = some f → Live (s.state x.1)

section Calls

variable {s : State I} {p : Fin NPROC} {fds : List (Fin NOFILE)}

theorem live_setSlot {ofile : Fin NPROC × Fin NOFILE → Option (Fin NFILE)}
    (h : ∀ x f, ofile x = some f → Live (s.state x.1)) (hp : Live (s.state p)) (fd : Fin NOFILE)
    (o : Option (Fin NFILE)) (x : Fin NPROC × Fin NOFILE) (f : Fin NFILE)
    (hx : update ofile (p, fd) o x = some f) : Live (s.state x.1) := by
  by_cases he : x = (p, fd)
  · rw [he]
    exact hp
  · rw [update_of_ne he] at hx
    exact h x f hx

theorem wp_files {α : Type} {m : FilesM I α} {Q : α → Files I → Prop}
    (h : m.wp Q (fun _ _ => False) s.files) :
    (files m).wp (fun r s' => s' = { s with files := s'.files } ∧ Q r s'.files) (fun _ _ => False) s :=
  wp_zoom.mpr (h.mono (fun _ _ hQ => ⟨rfl, hQ⟩) fun _ _ => id)

theorem Inv.setFiles (h : Inv s) (ht : Sound t (refs s.ofile) []) :
    Inv { s with files := t } := ⟨ht, h.live⟩

theorem Inv.setSlot (h : Inv s) (hp : Live (s.state p)) {fd : Fin NOFILE} {o : Option (Fin NFILE)}
    (ht : Sound t (refs (update s.ofile (p, fd) o)) []) :
    Inv { s with files := t, ofile := update s.ofile (p, fd) o } :=
  ⟨ht, live_setSlot h.live hp fd o⟩

theorem wp_argfd (fd : ℤ) :
    (argfd p fd : M I _).wp (fun r s' => s' = s ∧ ∀ x, r = some x → s.ofile (p, x.1) = some x.2)
      (fun _ _ => False) s := by
  rw [argfd, wp_bind, wp_get, wp_pure]
  refine ⟨rfl, fun x hx => ?_⟩
  split_ifs at hx
  rw [Option.map_eq_some_iff] at hx
  obtain ⟨f, hf, rfl⟩ := hx
  exact hf

theorem wp_fdalloc (f : Fin NFILE) :
    (fdalloc p f : M I _).wp (fun r s' => (r = none ∧ s' = s) ∨ ∃ fd, r = some fd ∧
      s.ofile (p, fd) = none ∧ s' = { s with ofile := update s.ofile (p, fd) (some f) })
      (fun _ _ => False) s := by
  rw [fdalloc, wp_bind, wp_get]
  cases hfind : lowest fun fd => (s.ofile (p, fd)).isNone with
  | none => exact .inl ⟨rfl, rfl⟩
  | some fd => exact .inr ⟨fd, rfl, by simpa using of_lowest hfind, rfl⟩

section

variable (h : Inv s) (hp : Live (s.state p))
include h hp

theorem wp_sysDup (fd : ℤ) :
    (sysDup p fd : M I _).wp (fun _ s' => Inv s') (fun _ _ => False) s := by
  rw [sysDup]
  refine wp.bind (wp_argfd fd) ?_
  rintro (_ | ⟨fd, f⟩) s' ⟨rfl, hf⟩
  · exact h
  refine wp.bind (wp_fdalloc f) ?_
  rintro r s1 (⟨rfl, rfl⟩ | ⟨fd', rfl, hfree, rfl⟩)
  · exact h
  have hdup := wp_filedup (f := f) h.sound (one_le_refs (hf _ rfl)) nofun
  rw [← refs_set hfree] at hdup
  exact wp.bind (wp_files hdup) fun _ s2 ⟨he, hs2⟩ => he ▸ h.setSlot hp hs2

theorem wp_sysClose (fd : ℤ) :
    (sysClose p fd : M I _).wp (fun _ s' => Inv s') (fun _ _ => False) s := by
  rw [sysClose]
  refine wp.bind (wp_argfd fd) ?_
  rintro (_ | ⟨fd, f⟩) s' ⟨rfl, hf⟩
  · exact h
  have hclose := wp_fileclose (f := f) h.sound (one_le_refs (hf _ rfl))
  rw [← refs_clear (hf _ rfl)] at hclose
  rw [wp_bind, setOfile, wp_modify]
  exact wp.bind (wp_files hclose) fun _ s2 ⟨he, hs2⟩ => he ▸ h.setSlot hp hs2

theorem wp_sysOpen (found : Option I) (omode : BitVec 32) :
    (sysOpen p found omode : M I _).wp (fun _ s' => Inv s') (fun _ _ => False) s := by
  rcases found with _ | ip
  · exact h
  rw [sysOpen]
  refine wp.bind (wp_files (wp_filealloc h.sound)) ?_
  rintro r s1 ⟨he, ⟨rfl, hs1⟩ | ⟨f, rfl, hzero, -, hs1⟩⟩
  · rw [hs1] at he
    exact he ▸ h
  rw [he]
  refine wp.bind (wp_fdalloc f) ?_
  rintro r s2 (⟨rfl, rfl⟩ | ⟨fd, rfl, hfree, rfl⟩)
  · -- no descriptor: the entry has no type yet, and `fileclose` only frees it
    have hclose := wp_fileclose (f := f) hs1 (by simp [hzero])
    rw [add_sub_cancel_right] at hclose
    refine wp.bind (wp_files hclose) fun _ s3 ⟨he, hs3⟩ => ?_
    rw [wp_pure, he]
    exact h.setFiles (by simpa using hs3)
  · rw [← refs_set hfree] at hs1
    have hnone : (s1.files.file f).type = .none := (hs1.none_iff f).mpr (.inr (by simp))
    refine h.setSlot hp ⟨?_, ?_⟩
    · exact hs1.setUp nofun _ rfl nofun fun _ => rfl
    · exact hs1.ends.setFile_other (by simp [hnone]) nofun

theorem wp_sysPipe (arg : Bool) {page : Option ℕ}
    (hpage : ∀ q, page = some q → s.files.pipes q = none) :
    (sysPipe p arg page : M I _).wp (fun _ s' => Inv s') (fun _ _ => False) s := by
  rw [sysPipe]
  split_ifs with harg
  · exact h
  refine wp.bind (wp_files (wp_pipealloc h.sound hpage)) ?_
  rintro r s1 ⟨he, ⟨rfl, hs1⟩ | ⟨rf, wf, rfl, hne, hrf, hwf, hs1⟩⟩
  · exact he ▸ h.setFiles hs1
  -- both failures close the two ends
  have hclose : ∀ ofile, (do files (fileclose rf); files (fileclose wf); Pure.pure (-1) : M I ℤ).wp
      (fun _ s' => s' = { s with files := s'.files, ofile := ofile } ∧
        Sound s'.files (refs s.ofile) [])
      (fun _ _ => False) { s with files := s1.files, ofile := ofile } := by
    intro ofile
    refine wp.bind (wp_files (wp_fileclose (f := rf) hs1 (by simp [hrf, hne]))) ?_
    rintro _ s3 ⟨he3, hs3⟩
    refine wp.bind (wp_files (wp_fileclose (f := wf) hs3 (by simp [hwf, hne.symm]))) ?_
    rintro _ s4 ⟨he4, hs4⟩
    have hcount : refs s.ofile + Pi.single rf 1 + Pi.single wf 1 - Pi.single rf 1 - Pi.single wf 1 =
        refs s.ofile := by abel
    rw [hcount] at hs4
    rw [he3] at he4
    exact ⟨he4, hs4⟩
  rw [he]
  refine wp.bind (wp_fdalloc rf) ?_
  rintro r s2 (⟨rfl, rfl⟩ | ⟨fd0, rfl, hfree0, rfl⟩)
  · refine (hclose _).mono (fun _ s' ⟨he, hs'⟩ => ?_) fun _ _ => id
    rw [he]
    exact h.setFiles hs'
  refine wp.bind (wp_fdalloc wf) ?_
  rintro r s2 (⟨rfl, rfl⟩ | ⟨fd1, rfl, hfree1, rfl⟩)
  · rw [wp_bind, setOfile, wp_modify]
    refine (hclose _).mono (fun _ s' ⟨he, hs'⟩ => ?_) fun _ _ => id
    rw [he]
    dsimp only
    rw [update_idem, ← hfree0, update_eq_self]
    exact h.setFiles hs'
  · rw [← refs_set hfree0, ← refs_set hfree1] at hs1
    exact ⟨hs1, live_setSlot (live_setSlot h.live hp fd0 _) hp fd1 _⟩

end

theorem wp_copyFiles {np : Fin NPROC} (hfds : fds.Nodup) :
    ∀ {s : State I}, Sound s.files (refs s.ofile) [] → (∀ fd ∈ fds, s.ofile (np, fd) = none) →
      (copyFiles p np fds : M I _).wp (fun _ s' => Sound s'.files (refs s'.ofile) [] ∧
        s'.state = s.state ∧ ∀ x, x.1 ≠ np → s'.ofile x = s.ofile x) (fun _ _ => False) s := by
  induction fds with
  | nil => exact fun h _ => ⟨h, rfl, fun _ _ => rfl⟩
  | cons fd fds ih =>
    intro s h hfree
    obtain ⟨hfd, hfds⟩ := List.nodup_cons.mp hfds
    rw [copyFiles, wp_bind, wp_get]
    cases hof : s.ofile (p, fd) with
    | none => exact ih hfds h fun fd' hfd' => hfree fd' (List.mem_cons_of_mem _ hfd')
    | some f =>
      have hnone : s.ofile (np, fd) = none := hfree fd List.mem_cons_self
      have hdup := wp_filedup (f := f) h (one_le_refs hof) nofun
      rw [← refs_set hnone] at hdup
      refine wp.bind (wp_files hdup) fun _ s1 ⟨he, hs1⟩ => ?_
      rw [wp_bind, setOfile, wp_modify, he]
      refine (ih hfds (s := { s with files := s1.files, ofile := update s.ofile (np, fd) _ }) hs1
        fun fd' hfd' => ?_).mono (fun _ s' ⟨hs', hstate, hother⟩ => ?_) fun _ _ => id
      · have hne : (np, fd') ≠ (np, fd) := by
          rintro ⟨⟩
          exact hfd hfd'
        exact (update_of_ne hne _ _).trans (hfree fd' (List.mem_cons_of_mem _ hfd'))
      · refine ⟨hs', hstate, fun x hx => (hother x hx).trans (update_of_ne ?_ _ _)⟩
        rintro rfl
        exact hx rfl

theorem wp_fork (h : Inv s) (kstack pgdir : Bool) :
    (fork p kstack pgdir : M I _).wp (fun _ s' => Inv s') (fun _ _ => False) s := by
  rw [fork, wp_bind, wp_get]
  cases hfind : lowest fun np => decide (s.state np = .unused) with
  | none => exact h
  | some np =>
    have hnp : s.state np = .unused := by simpa using of_lowest hfind
    have hfree : ∀ fd, s.ofile (np, fd) = none := by
      intro fd
      by_contra hfd
      obtain ⟨f, hf⟩ := Option.ne_none_iff_exists'.mp hfd
      exact (h.live _ f hf).1 hnp
    dsimp only
    rw [wp_bind, setState, wp_modify]
    split_ifs
    · rw [wp_bind, setState, wp_modify, wp_pure]
      dsimp only
      rw [update_idem, ← hnp, update_eq_self]
      exact h
    · refine wp.bind (wp_copyFiles (List.nodup_finRange _) (s := { s with
        state := update s.state np .embryo }) h.sound fun fd _ => hfree fd) ?_
      rintro _ s1 ⟨hs1, hstate, hother⟩
      refine ⟨hs1, fun x f hx => ?_⟩
      show Live (update s1.state np .runnable x.1)
      by_cases hx1 : x.1 = np
      · rw [hx1, update_self]
        exact ⟨nofun, nofun⟩
      · rw [update_of_ne hx1, hstate]
        dsimp only
        rw [update_of_ne hx1]
        exact h.live x f (hother x hx1 ▸ hx)

theorem wp_closeFiles : ∀ {s : State I}, Sound s.files (refs s.ofile) [] →
      (closeFiles p fds : M I _).wp (fun _ s' => Sound s'.files (refs s'.ofile) [] ∧
        s'.state = s.state ∧ (∀ x f, s'.ofile x = some f → s.ofile x = some f) ∧
        ∀ fd ∈ fds, s'.ofile (p, fd) = none) (fun _ _ => False) s := by
  induction fds with
  | nil => exact fun h => ⟨h, rfl, fun _ _ => id, nofun⟩
  | cons fd fds ih =>
    intro s h
    rw [closeFiles, wp_bind, wp_get]
    -- in both cases the slot is clear before the rest of the loop, and stays so
    have hrest : ∀ s1 : State I, Sound s1.files (refs s1.ofile) [] → s1.state = s.state →
        (∀ x f, s1.ofile x = some f → s.ofile x = some f) → s1.ofile (p, fd) = none →
        (closeFiles p fds : M I _).wp (fun _ s' => Sound s'.files (refs s'.ofile) [] ∧
          s'.state = s.state ∧ (∀ x f, s'.ofile x = some f → s.ofile x = some f) ∧
          ∀ fd' ∈ fd :: fds, s'.ofile (p, fd') = none) (fun _ _ => False) s1 := by
      intro s1 hs1 hstate hsub hclear
      refine (ih hs1).mono (fun _ s' ⟨hs', hstate', hsub', hall⟩ => ?_) fun _ _ => id
      refine ⟨hs', hstate'.trans hstate, fun x f hx => hsub x f (hsub' x f hx), ?_⟩
      rw [List.forall_mem_cons]
      refine ⟨?_, hall⟩
      by_contra hne
      obtain ⟨f, hf⟩ := Option.ne_none_iff_exists'.mp hne
      exact absurd (hsub' _ f hf) (by rw [hclear]; exact nofun)
    cases hof : s.ofile (p, fd) with
    | none => exact hrest s h rfl (fun _ _ => id) hof
    | some f =>
      have hclose := wp_fileclose (f := f) h (one_le_refs hof)
      rw [← refs_clear hof] at hclose
      refine wp.bind (wp_files hclose) fun _ s1 ⟨he, hs1⟩ => ?_
      rw [wp_bind, setOfile, wp_modify, he]
      refine hrest _ hs1 rfl (fun x g hx => ?_) (update_self _ _ _)
      dsimp only at hx
      by_cases hxp : x = (p, fd)
      · rw [hxp, update_self] at hx
        exact nomatch hx
      · rwa [update_of_ne hxp] at hx

theorem wp_exit (h : Inv s) : (exit p : M I _).wp (fun _ s' => Inv s') (fun _ _ => False) s := by
  rw [exit]
  refine wp.bind (wp_closeFiles h.sound) ?_
  rintro _ s1 ⟨hs1, hstate, hsub, hclear⟩
  refine ⟨hs1, fun x f hx => ?_⟩
  show Live (update s1.state p .zombie x.1)
  have hne : x.1 ≠ p := by
    rintro rfl
    exact absurd (hclear x.2 (List.mem_finRange _)) (by rw [Prod.mk.eta, hx]; exact nofun)
  rw [update_of_ne hne, hstate]
  exact h.live x f (hsub x f hx)

theorem wp_reap (h : Inv s) (hp : s.state p = .zombie) :
    (reap p : M I _).wp (fun _ s' => Inv s') (fun _ _ => False) s := by
  refine ⟨h.sound, fun x f hx => ?_⟩
  have hlive := h.live x f hx
  show Live (update s.state p .unused x.1)
  have hne : x.1 ≠ p := by
    rintro rfl
    exact hlive.2 hp
  rwa [update_of_ne hne]

theorem wp_sysRead (h : Inv s) (fd : ℤ) (k : ℕ) (other : ℤ) :
    (sysRead p fd k other : M I _).wp (fun _ s' => Inv s') (fun _ _ => False) s := by
  rw [sysRead]
  refine wp.bind (wp_argfd fd) ?_
  rintro (_ | ⟨fd, f⟩) s' ⟨rfl, hf⟩
  · exact h
  have hread := wp_fileread h.sound (one_le_refs (hf _ rfl)) k other
  exact (wp_files hread).mono (fun _ s1 ⟨he, hs1⟩ => he ▸ h.setFiles hs1) fun _ _ => id

theorem wp_sysWrite [DecidableEq I] (h : Inv s) (fd : ℤ) (k : ℕ) (other : ℤ) :
    (sysWrite p fd k other : M I _).wp (fun _ s' => Inv s') (fun _ _ => False) s := by
  rw [sysWrite]
  refine wp.bind (wp_argfd fd) ?_
  rintro (_ | ⟨fd, f⟩) s' ⟨rfl, hf⟩
  · exact h
  have hwrite := wp_filewrite h.sound (one_le_refs (hf _ rfl)) k other
  exact (wp_files hwrite).mono (fun _ s1 ⟨he, hs1⟩ => he ▸ h.setFiles hs1) fun _ _ => id

end Calls

/-! ### Runs -/

section Runs

variable [DecidableEq I] {s s' : State I} {a : Act I}

theorem wp_run (h : Inv s) (ha : a.Legal s) :
    a.run.wp (fun _ s' => Inv s') (fun _ _ => False) s := by
  have hp : Live (s.state a.proc) := by
    obtain ⟨hp, -⟩ := ha
    constructor
    · rintro he
      simp [he] at hp
    · rintro he
      simp [he] at hp
  cases a with
  | sysOpen p found omode => exact wp_sysOpen h hp found omode
  | sysPipe p arg page =>
    refine wp_sysPipe h hp arg fun q hq => ?_
    subst hq
    exact ha.2
  | sysDup p fd => exact wp_sysDup h hp fd
  | sysClose p fd => exact wp_sysClose h hp fd
  | fork p kstack pgdir => exact wp_fork h kstack pgdir
  | exit p => exact wp_exit h
  | wait p child => exact wp_reap h ha.2
  | sysRead p fd k other => exact wp_sysRead h fd k other
  | sysWrite p fd k other => exact wp_sysWrite h fd k other

theorem inv_step (h : Inv s) (ha : a.Legal s) (hstep : step s a = some s') : Inv s' := by
  obtain ⟨r, s1, hrun, hs1⟩ := (wp_run h ha).exists_ok
  rw [step, hrun] at hstep
  exact Option.some.inj hstep ▸ hs1

omit [DecidableEq I] in
theorem inv_userinit (inode : I → Inode) : Inv (userinit inode) := by
  have hrefs : refs (userinit inode).ofile = 0 := by
    funext f
    simp [refs, userinit]
  refine ⟨?_, nofun⟩
  rw [hrefs]
  exact ⟨⟨fun _ => rfl, fun _ => le_rfl, by simp [userinit], nofun, nofun⟩, ⟨nofun, nofun, nofun, nofun, nofun⟩⟩

omit [DecidableEq I] in
theorem Sound.exists_isEnd {n : Fin NFILE → ℤ} (h : Sound t n []) {p : ℕ} (w : Bool) :
    (∃ f, IsEnd t p w f) ↔ ∃ f, 0 < (t.file f).ref ∧ (t.file f).type = .pipe ∧
      (t.file f).pipe = p ∧ (if w then (t.file f).writable else (t.file f).readable) = true := by
  refine exists_congr fun f => ⟨fun hf => ⟨?_, hf.1, hf.2.1, ?_⟩, fun ⟨_, htype, hpipe, hw⟩ => ?_⟩
  · have hne : ¬(n f = 0 ∨ f ∈ []) := by
      rw [← h.none_iff, hf.1]
      exact nofun
    have hnonneg := h.nonneg f
    rw [h.ref f]
    omega
  · rw [hf.2.2.1, hf.2.2.2]
    cases w <;> rfl
  · obtain ⟨p', w', hf⟩ := h.ends.isEnd f htype
    obtain rfl : p' = p := hf.2.1.symm.trans hpipe
    rw [hf.2.2.1, hf.2.2.2] at hw
    cases w <;> cases w' <;> first | exact hf | exact nomatch hw

/-- Every entry counts the slots that point to it, an entry without references has no type, a pipe
knows which of its ends are referenced, and no further call panics. -/
theorem fileTable_counts {inode : I → Inode} {acts : List (Act I)}
    (hrun : Trans.Run step (fun s a => Act.Legal s a) (userinit inode) acts s) :
    (∀ f, (s.files.file f).ref = (Finset.univ.filter fun x => s.ofile x = some f).card) ∧
    (∀ f, (s.files.file f).ref = 0 → (s.files.file f).type = .none) ∧
    (∀ p q, s.files.pipes p = some q →
      (q.readopen = true ↔ ∃ f, 0 < (s.files.file f).ref ∧ (s.files.file f).type = .pipe ∧
        (s.files.file f).pipe = p ∧ (s.files.file f).readable = true) ∧
      (q.writeopen = true ↔ ∃ f, 0 < (s.files.file f).ref ∧ (s.files.file f).type = .pipe ∧
        (s.files.file f).pipe = p ∧ (s.files.file f).writable = true)) ∧
    ∀ a : Act I, a.Legal s → ∃ r s', a.run s = .ok r s' := by
  have h : Inv s := hrun.induct (I := Inv) (inv_userinit inode)
    fun _ _ _ hinv ha hstep => inv_step hinv ha hstep
  refine ⟨h.sound.ref, fun f hf => ?_, fun p q hq => ⟨?_, ?_⟩, fun a ha => ?_⟩
  · exact (h.sound.none_iff f).mpr (.inl ((h.sound.ref f).symm.trans hf))
  · exact (h.sound.ends.open_iff p q false hq).trans (h.sound.exists_isEnd false)
  · exact (h.sound.ends.open_iff p q true hq).trans (h.sound.exists_isEnd true)
  · obtain ⟨r, s', hok, -⟩ := (wp_run h ha).exists_ok
    exact ⟨r, s', hok⟩

instance (s : State I) : (a : Act I) → Decidable (a.Legal s)
  | .sysPipe _ _ (some page) => inferInstanceAs (Decidable (_ ∧ s.files.pipes page = none))
  | .exit p => inferInstanceAs (Decidable (_ ∧ p.val ≠ 0))
  | .wait _ child => inferInstanceAs (Decidable (_ ∧ s.state child = .zombie))
  | .sysOpen _ _ _ | .sysPipe _ _ none | .sysDup _ _ | .sysClose _ _ | .fork _ _ _ | .sysRead _ _ _ _
  | .sysWrite _ _ _ _ => inferInstanceAs (Decidable (_ ∧ True))

end Runs

/-- `init` opens the console, duplicates it, makes a pipe and forks; the child closes the end it does
not use. -/
def initPipe : List (Act Unit) :=
  let init : Fin NPROC := ⟨0, by decide⟩
  let child : Fin NPROC := ⟨1, by decide⟩
  [.sysOpen init (some ()) O_RDWR, .sysDup init 0, .sysDup init 0, .sysPipe init true (some 7),
    .fork init true true, .sysClose child 3, .sysWrite child 4 10 10, .sysClose child 17]

theorem fileTable_counts_initPipe : ∃ s : State Unit,
    Trans.Run step (fun s a => Act.Legal s a) (userinit fun _ => ⟨T_DEV, CONSOLE, 0⟩) initPipe s ∧
      (s.files.pipes 7).isSome ∧ ∃ f, (s.files.file f).ref = 6 ∧
        ((Finset.univ.filter fun x => s.ofile x = some f).card : ℤ) = 6 := by
  have hexec : (Trans.exec step (fun s a => decide (Act.Legal s a))
      (userinit fun _ : Unit => ⟨T_DEV, CONSOLE, 0⟩) initPipe).any
      (fun s => decide ((s.files.pipes 7).isSome ∧ ∃ f, (s.files.file f).ref = 6)) = true := by
    decide +kernel
  obtain ⟨s, hrun, hs⟩ := Trans.Run.of_exec_any (C := fun s a => Act.Legal s a)
    (fun _ _ => of_decide_eq_true) hexec
  obtain ⟨hpipe, f, hf⟩ := of_decide_eq_true hs
  exact ⟨s, hrun, hpipe, f, hf, ((fileTable_counts hrun).1 f).symm.trans hf⟩

end Xv6.FileTable
