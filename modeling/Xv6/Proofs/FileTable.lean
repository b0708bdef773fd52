import Xv6.Lib.Count
import Xv6.Spec.FileTable

/-! The reference counts of the file table are the numbers of descriptors, and a pipe knows which
of its ends are open. -/

open Function Exec

namespace Xv6.FileTable

open Ptable (ProcState)

variable {I : Type}

theorem of_lowest {n : ℕ} {test : Fin n → Bool} {i : Fin n} (h : lowest test = some i) :
    test i = true := by
  rw [lowest] at h
  exact (Fin.find?_eq_some_iff.mp h).1

/-! ### The file table on its own -/

namespace Files

variable (s : Files I) (f g : Fin NFILE) (file : File I)

@[simp] theorem setFile_self : (s.setFile f file).file f = file := update_self _ _ _

@[simp] theorem setPipe_file (p : ℕ) (q : Option Pipe) : (s.setPipe p q).file = s.file := rfl

variable {f g} in
theorem setFile_of_ne (h : g ≠ f) : (s.setFile f file).file g = s.file g :=
  update_of_ne h _ _

end Files

def Pipe.isOpen (q : Pipe) (writable : Bool) : Bool := if writable then q.writeopen else q.readopen

def IsEnd (s : Files I) (p : ℕ) (writable : Bool) (f : Fin NFILE) : Prop :=
  (s.file f).type = .pipe ∧ (s.file f).pipe = p ∧ (s.file f).writable = writable ∧
    (s.file f).readable = !writable

structure Ends (s : Files I) : Prop where
  isEnd : ∀ f, (s.file f).type = .pipe → ∃ p w, IsEnd s p w f
  live : ∀ p w f, IsEnd s p w f → (s.pipes p).isSome
  open_iff : ∀ p q w, s.pipes p = some q → (q.isOpen w = true ↔ ∃ f, IsEnd s p w f)
  used : ∀ p q, s.pipes p = some q → ∃ w, q.isOpen w = true
  unique : ∀ p w f g, IsEnd s p w f → IsEnd s p w g → f = g

/-- The entry `f` has `n f` references, and those of `raw` have been allocated and not been set up
yet. -/
structure Counted (file : Fin NFILE → File I) (n : Fin NFILE → ℤ) (raw : List (Fin NFILE)) :
    Prop where
  ref : ∀ f, (file f).ref = n f
  nonneg : ∀ f, 0 ≤ n f
  none_iff : ∀ f, (file f).type = .none ↔ n f = 0 ∨ f ∈ raw
  raw_one : ∀ f ∈ raw, n f = 1
  inode : ∀ f, (file f).type = .inode → (file f).ip.isSome

structure Sound (s : Files I) (n : Fin NFILE → ℤ) (raw : List (Fin NFILE)) : Prop
    extends Counted s.file n raw where
  ends : Ends s

section Ends

variable {s s' : Files I} {f : Fin NFILE} {file : File I} {p : ℕ} {w : Bool} {g : Fin NFILE}

theorem isEnd_setFile_of_ne (h : g ≠ f) : IsEnd (s.setFile f file) p w g ↔ IsEnd s p w g := by
  rw [IsEnd, IsEnd, Files.setFile_of_ne _ _ h]

theorem Ends.congr (h : Ends s) (hpipes : s'.pipes = s.pipes)
    (hend : ∀ p w g, IsEnd s' p w g ↔ IsEnd s p w g)
    (htype : ∀ g, (s'.file g).type = .pipe → (s.file g).type = .pipe) : Ends s' := by
  refine ⟨fun g hg => ?_, fun p w g hg => ?_, fun p q w hq => ?_, fun p q hq => ?_,
    fun p w g g' hg hg' => ?_⟩
  · obtain ⟨p, w, hp⟩ := h.isEnd g (htype g hg)
    exact ⟨p, w, (hend p w g).mpr hp⟩
  · rw [hpipes]
    exact h.live p w g ((hend p w g).mp hg)
  · rw [h.open_iff p q w (hpipes ▸ hq)]
    exact exists_congr fun g => (hend p w g).symm
  · exact h.used p q (hpipes ▸ hq)
  · exact h.unique p w g g' ((hend p w g).mp hg) ((hend p w g').mp hg')

theorem Ends.setFile (h : Ends s) (htype : file.type = (s.file f).type)
    (hpipe : file.pipe = (s.file f).pipe) (hr : file.readable = (s.file f).readable)
    (hw : file.writable = (s.file f).writable) : Ends (s.setFile f file) := by
  refine h.congr rfl (fun p w g => ?_) fun g hg => ?_
  · by_cases hgf : g = f
    · subst hgf
      rw [IsEnd, IsEnd, Files.setFile_self, htype, hpipe, hr, hw]
    · exact isEnd_setFile_of_ne hgf
  · by_cases hgf : g = f
    · subst hgf
      rw [Files.setFile_self, htype] at hg
      exact hg
    · rwa [Files.setFile_of_ne _ _ hgf] at hg

theorem Ends.setFile_other (h : Ends s) (hold : (s.file f).type ≠ .pipe)
    (hnew : file.type ≠ .pipe) : Ends (s.setFile f file) := by
  refine h.congr rfl (fun p w g => ?_) fun g hg => ?_
  · by_cases hgf : g = f
    · subst hgf
      simp [IsEnd, hold, hnew]
    · exact isEnd_setFile_of_ne hgf
  · by_cases hgf : g = f
    · subst hgf
      rw [Files.setFile_self] at hg
      exact absurd hg hnew
    · rwa [Files.setFile_of_ne _ _ hgf] at hg

end Ends

/-! ### What each function does to it -/

section Specs

variable {s : Files I} {n : Fin NFILE → ℤ} {raw : List (Fin NFILE)} {f : Fin NFILE}
  {raw' : List (Fin NFILE)}

variable (s n) in
theorem forall_setFile (file : File I) {Q : Fin NFILE → File I → ℤ → Prop}
    (hf : Q f file file.ref) (hne : ∀ g, g ≠ f → Q g (s.file g) (n g)) (g : Fin NFILE) :
    Q g ((s.setFile f file).file g) (update n f file.ref g) := by
  by_cases hgf : g = f
  · subst hgf
    rwa [Files.setFile_self, update_self]
  · rw [Files.setFile_of_ne _ _ hgf, update_of_ne hgf]
    exact hne g hgf

theorem Counted.setFile (h : Counted s.file n raw) (file : File I)
    (hnonneg : 0 ≤ file.ref) (hnone : file.type = .none ↔ file.ref = 0 ∨ f ∈ raw')
    (hone : f ∈ raw' → file.ref = 1) (hinode : file.type = .inode → file.ip.isSome)
    (hraw : ∀ g, g ≠ f → (g ∈ raw' ↔ g ∈ raw)) :
    Counted (s.setFile f file).file (update n f file.ref) raw' where
  ref := forall_setFile s n file (Q := fun _ file k => file.ref = k) rfl fun g _ => h.ref g
  nonneg := forall_setFile s n file (Q := fun _ _ k => 0 ≤ k) hnonneg fun g _ => h.nonneg g
  none_iff := forall_setFile s n file (Q := fun g file k => file.type = .none ↔ k = 0 ∨ g ∈ raw') hnone
    fun g hg => (h.none_iff g).trans (or_congr_right (hraw g hg).symm)
  raw_one := forall_setFile s n file (Q := fun g _ k => g ∈ raw' → k = 1) hone
    fun g hg hmem => h.raw_one g ((hraw g hg).mp hmem)
  inode := forall_setFile s n file (Q := fun _ file _ => file.type = .inode → file.ip.isSome) hinode
    fun g _ => h.inode g

theorem Counted.congr_raw {file : Fin NFILE → File I}
    (h : Counted file n raw) (hraw : ∀ g, g ∈ raw' ↔ g ∈ raw) : Counted file n raw' :=
  ⟨h.ref, h.nonneg, fun g => (h.none_iff g).trans (or_congr_right (hraw g).symm),
    fun g hg => h.raw_one g ((hraw g).mp hg), h.inode⟩

theorem Counted.setUp (h : Counted s.file n (f :: raw)) (hraw : f ∉ raw) (file : File I)
    (href : file.ref = (s.file f).ref) (htype : file.type ≠ .none)
    (hinode : file.type = .inode → file.ip.isSome) : Counted (s.setFile f file).file n raw := by
  have hone : file.ref = 1 := by rw [href, h.ref f, h.raw_one f List.mem_cons_self]
  have hupdate : update n f file.ref = n := by
    rw [href, h.ref f, update_eq_self]
  rw [← hupdate]
  refine h.setFile file (by omega) ?_ (fun h => (hraw h).elim) hinode fun g hg => by simp [hg]
  simp [htype, hone, hraw]

theorem update_eq_add (n : Fin NFILE → ℤ) (f : Fin NFILE) (k : ℤ) :
    update n f (n f + k) = n + Pi.single f k := by
  funext g
  by_cases hg : g = f
  · subst hg
    simp
  · simp [hg]

theorem wp_filealloc (h : Sound s n raw) :
    (filealloc : FilesM I _).wp (fun r s' => (r = none ∧ s' = s) ∨ ∃ f, r = some f ∧ n f = 0 ∧
      s'.pipes = s.pipes ∧ Sound s' (n + Pi.single f 1) (f :: raw)) (fun _ _ => False) s := by
  rw [filealloc, wp_bind, wp_get]
  cases hfind : lowest fun f => decide ((s.file f).ref = 0) with
  | none => exact .inl ⟨rfl, rfl⟩
  | some f =>
    have href : (s.file f).ref = 0 := by simpa using of_lowest hfind
    have hn : n f = 0 := by rw [← h.ref f, href]
    have hnone := (h.none_iff f).mpr (.inl hn)
    have hone : n + Pi.single f 1 = update n f 1 := by rw [← update_eq_add, hn, zero_add]
    refine .inr ⟨f, rfl, hn, rfl, ?_⟩
    rw [hone]
    refine ⟨h.setFile _ zero_le_one ?_ (fun _ => rfl) (h.inode f) (fun g hg => by simp [hg]),
      h.ends.setFile rfl rfl rfl rfl⟩
    simp [hnone]

theorem wp_filedup (h : Sound s n raw) (hf : 1 ≤ n f) (hraw : f ∉ raw) : (filedup f : FilesM I _).wp
      (fun _ s' => Sound s' (n + Pi.single f 1) raw) (fun _ _ => False) s := by
  rw [← update_eq_add, filedup, wp_bind, wp_get, h.ref f, if_neg (by omega), wp_modify]
  have hnone : (s.file f).type ≠ .none := by
    rw [ne_eq, h.none_iff]
    rintro (h0 | h0)
    · omega
    · exact hraw h0
  rw [← h.ref f]
  refine ⟨h.setFile _ ?_ ⟨fun h => (hnone h).elim, ?_⟩ (fun h => (hraw h).elim) (h.inode f)
    fun _ _ => Iff.rfl, h.ends.setFile rfl rfl rfl rfl⟩
  · have := h.nonneg f
    rw [← h.ref f] at this
    exact add_nonneg this zero_le_one
  · rintro (h0 | h0)
    · have href := h.ref f
      exact absurd h0 (by simp only; omega)
    · exact (hraw h0).elim

def Pipe.closed (q : Pipe) (writable : Bool) : Pipe :=
  if writable then { q with writeopen := false } else { q with readopen := false }

def Pipe.rest (q : Pipe) (writable : Bool) : Option Pipe :=
  if !(q.closed writable).readopen && !(q.closed writable).writeopen then none
  else some (q.closed writable)

theorem wp_pipeclose {p : ℕ} {q : Pipe} (w : Bool) (hq : s.pipes p = some q)
    {Q : Unit → Files I → Prop} {E : Panic → Files I → Prop} (hQ : Q () (s.setPipe p (q.rest w))) :
    (pipeclose p w : FilesM I _).wp Q E s := by
  rw [pipeclose, wp_bind, wp_get, hq]
  show (if !(q.closed w).readopen && !(q.closed w).writeopen then
    Exec.modify (Files.setPipe p none) else Exec.modify (Files.setPipe p (some (q.closed w)))).wp Q E s
  unfold Pipe.rest at hQ
  split_ifs at hQ ⊢ <;> exact hQ

theorem isOpen_closed (q : Pipe) (w w' : Bool) :
    (q.closed w).isOpen w' = (w' != w && q.isOpen w') := by
  cases w <;> cases w' <;> simp [Pipe.closed, Pipe.isOpen]

theorem exists_isOpen (q : Pipe) : (∃ w, q.isOpen w = true) ↔ ¬(!q.readopen && !q.writeopen) = true := by
  obtain ⟨r, w⟩ := q
  cases r <;> cases w <;> simp [Pipe.isOpen]

theorem Ends.close {p : ℕ} {w : Bool} {q : Pipe} (h : Ends s) (hf : IsEnd s p w f)
    (hq : s.pipes p = some q) (file : File I) (hfile : file.type ≠ .pipe) :
    Ends ((s.setFile f file).setPipe p (q.rest w)) := by
  have hend : ∀ {p' w' g}, IsEnd ((s.setFile f file).setPipe p (q.rest w)) p' w' g ↔
      IsEnd s p' w' g ∧ g ≠ f := by
    intro p' w' g
    by_cases hgf : g = f
    · subst hgf
      simp [IsEnd, hfile]
    · simp only [IsEnd, Files.setPipe_file, Files.setFile_of_ne _ _ hgf, hgf, ne_eq, not_false_iff,
        and_true]
  have hother : ∀ {w' g}, IsEnd s p w' g → (g ≠ f ↔ w' ≠ w) := by
    intro w' g hg
    constructor
    · rintro hgf rfl
      exact hgf (h.unique p w' g f hg hf)
    · rintro hw rfl
      exact hw (hg.2.2.1.symm.trans hf.2.2.1)
  have hpipes : ((s.setFile f file).setPipe p (q.rest w)).pipes p = q.rest w :=
    update_self _ _ _
  have hpipes' : ∀ {p'}, p' ≠ p → ((s.setFile f file).setPipe p (q.rest w)).pipes p' = s.pipes p' :=
    fun hp => update_of_ne hp _ _
  -- what is left of the pipe, when it is not freed
  have hkept : ∀ {q''}, q.rest w = some q'' →
      q'' = q.closed w ∧ ∃ w', (q.closed w).isOpen w' = true := by
    intro q'' he
    rw [Pipe.rest] at he
    split_ifs at he with hc
    exact ⟨(Option.some.inj he).symm, (exists_isOpen _).mpr hc⟩
  refine ⟨fun g hg => ?_, fun p' w' g hg => ?_, fun p' q'' w' hq'' => ?_, fun p' q'' hq'' => ?_,
    fun p' w' g g' hg hg' => ?_⟩
  · have hgf : g ≠ f := by
      rintro rfl
      rw [Files.setPipe_file, Files.setFile_self] at hg
      exact hfile hg
    rw [Files.setPipe_file, Files.setFile_of_ne _ _ hgf] at hg
    obtain ⟨p', w', hp⟩ := h.isEnd g hg
    exact ⟨p', w', hend.mpr ⟨hp, hgf⟩⟩
  · obtain ⟨hgs, hgf⟩ := hend.mp hg
    by_cases hp : p' = p
    · subst hp
      have hopen : (q.closed w).isOpen w' = true := by
        rw [isOpen_closed, (h.open_iff p' q w' hq).mpr ⟨g, hgs⟩]
        simp [(hother hgs).mp hgf]
      rw [hpipes, Pipe.rest, if_neg ((exists_isOpen _).mp ⟨w', hopen⟩)]
      rfl
    · rw [hpipes' hp]
      exact h.live p' w' g hgs
  · by_cases hp : p' = p
    · subst hp
      rw [hpipes] at hq''
      obtain ⟨rfl, -⟩ := hkept hq''
      rw [isOpen_closed, Bool.and_eq_true, bne_iff_ne, h.open_iff p' q w' hq]
      constructor
      · rintro ⟨hw, g, hg⟩
        exact ⟨g, hend.mpr ⟨hg, (hother hg).mpr hw⟩⟩
      · rintro ⟨g, hg⟩
        obtain ⟨hg, hgf⟩ := hend.mp hg
        exact ⟨(hother hg).mp hgf, g, hg⟩
    · rw [hpipes' hp] at hq''
      rw [h.open_iff p' q'' w' hq'']
      refine exists_congr fun g => ⟨fun hg => hend.mpr ⟨hg, ?_⟩, fun hg => (hend.mp hg).1⟩
      rintro rfl
      exact hp (hg.2.1.symm.trans hf.2.1)
  · by_cases hp : p' = p
    · subst hp
      rw [hpipes] at hq''
      obtain ⟨rfl, hopen⟩ := hkept hq''
      exact hopen
    · rw [hpipes' hp] at hq''
      exact h.used p' q'' hq''
  · exact h.unique p' w' g g' (hend.mp hg).1 (hend.mp hg').1

theorem wp_fileclose (h : Sound s n raw) (hf : 1 ≤ n f) :
    (fileclose f : FilesM I _).wp (fun _ s' => Sound s' (n - Pi.single f 1)
      (raw.filter (· ≠ f))) (fun _ _ => False) s := by
  have hcount : n - Pi.single f 1 = update n f (n f - 1) := by
    rw [sub_eq_add_neg, ← Pi.single_neg, ← update_eq_add, ← sub_eq_add_neg]
  rw [hcount]
  have href := h.ref f
  have hraw : ∀ g, g ≠ f → (g ∈ raw.filter (· ≠ f) ↔ g ∈ raw) := fun g hg => by simp [hg]
  have hnot : f ∉ raw.filter (· ≠ f) := by simp
  rw [fileclose, wp_bind, wp_get, if_neg (by omega), ← href]
  by_cases hmore : (s.file f).ref - 1 > 0
  · rw [if_pos hmore, wp_modify]
    have hnone : (s.file f).type ≠ .none := by
      rw [ne_eq, h.none_iff]
      rintro (h0 | h0)
      · omega
      · have := h.raw_one f h0
        omega
    refine ⟨h.setFile _ hmore.le ⟨fun h => (hnone h).elim, ?_⟩ (fun h => (hnot h).elim) (h.inode f)
      hraw, h.ends.setFile rfl rfl rfl rfl⟩
    rintro (h0 | h0)
    · exact absurd h0 hmore.ne'
    · exact (hnot h0).elim
  · -- the last reference
    have hlast : (s.file f).ref - 1 = 0 := by omega
    have hcounted : Counted (s.setFile f { s.file f with ref := 0, type := .none }).file
        (update n f ((s.file f).ref - 1)) (raw.filter (· ≠ f)) := by
      rw [hlast]
      exact h.setFile _ le_rfl (by simp) (fun h => (hnot h).elim) nofun hraw
    rw [if_neg hmore, wp_bind, wp_modify]
    by_cases hpipe : (s.file f).type = .pipe
    · obtain ⟨p, w, hend⟩ := h.ends.isEnd f hpipe
      obtain ⟨q, hq⟩ := Option.isSome_iff_exists.mp (h.ends.live p w f hend)
      have hclose := h.ends.close hend hq { s.file f with ref := 0, type := .none } nofun
      obtain ⟨-, rfl, rfl, -⟩ := hend
      rw [if_pos hpipe]
      refine wp_pipeclose (q := q) _ ?_ ⟨hcounted, hclose⟩
      exact hq
    · rw [if_neg hpipe, wp_pure]
      exact ⟨hcounted, h.ends.setFile_other hpipe nofun⟩

theorem Ends.newPipe {f0 f1 : Fin NFILE} {p : ℕ} (h : Ends s) (hne : f0 ≠ f1)
    (h0 : (s.file f0).type ≠ .pipe) (h1 : (s.file f1).type ≠ .pipe) (hp : s.pipes p = none)
    {s' : Files I} (hpipes : s'.pipes = update s.pipes p (some ⟨true, true⟩))
    (hf0 : IsEnd s' p false f0) (hf1 : IsEnd s' p true f1)
    (hother : ∀ g, g ≠ f0 → g ≠ f1 → s'.file g = s.file g) : Ends s' := by
  have hold : ∀ {p' w' g}, IsEnd s p' w' g → p' ≠ p ∧ g ≠ f0 ∧ g ≠ f1 := by
    intro p' w' g hg
    refine ⟨?_, ?_, ?_⟩
    · rintro rfl
      have := h.live p' w' g hg
      rw [hp] at this
      exact nomatch this
    · rintro rfl
      exact h0 hg.1
    · rintro rfl
      exact h1 hg.1
  have hend : ∀ p' w' g, IsEnd s' p' w' g ↔
      IsEnd s p' w' g ∨ p' = p ∧ g = if w' then f1 else f0 := by
    intro p' w' g
    constructor
    · intro hg
      by_cases hg0 : g = f0
      · subst hg0
        obtain rfl : w' = false := hg.2.2.1.symm.trans hf0.2.2.1
        exact .inr ⟨hg.2.1.symm.trans hf0.2.1, rfl⟩
      · by_cases hg1 : g = f1
        · subst hg1
          obtain rfl : w' = true := hg.2.2.1.symm.trans hf1.2.2.1
          exact .inr ⟨hg.2.1.symm.trans hf1.2.1, rfl⟩
        · rw [IsEnd, hother g hg0 hg1] at hg
          exact .inl hg
    · rintro (hg | ⟨rfl, rfl⟩)
      · obtain ⟨-, hg0, hg1⟩ := hold hg
        rw [IsEnd, hother g hg0 hg1]
        exact hg
      · cases w'
        · exact hf0
        · exact hf1
  have hself : s'.pipes p = some ⟨true, true⟩ := by rw [hpipes, update_self]
  have hpipe : ∀ {p'}, p' ≠ p → s'.pipes p' = s.pipes p' := fun hne => by
    rw [hpipes, update_of_ne hne]
  refine ⟨fun g hg => ?_, fun p' w' g hg => ?_, fun p' q w' hq => ?_, fun p' q hq => ?_,
    fun p' w' g g' hg hg' => ?_⟩
  · by_cases hg0 : g = f0
    · exact ⟨p, false, hg0 ▸ hf0⟩
    · by_cases hg1 : g = f1
      · exact ⟨p, true, hg1 ▸ hf1⟩
      · rw [hother g hg0 hg1] at hg
        obtain ⟨p', w', hp'⟩ := h.isEnd g hg
        exact ⟨p', w', (hend p' w' g).mpr (.inl hp')⟩
  · rcases (hend p' w' g).mp hg with hg | ⟨rfl, -⟩
    · rw [hpipe (hold hg).1]
      exact h.live p' w' g hg
    · rw [hself]
      rfl
  · by_cases hp' : p' = p
    · subst hp'
      rw [hself] at hq
      obtain rfl := Option.some.inj hq
      refine ⟨fun _ => ⟨_, (hend p' w' _).mpr (.inr ⟨rfl, rfl⟩)⟩, fun _ => ?_⟩
      cases w' <;> rfl
    · rw [hpipe hp'] at hq
      rw [h.open_iff p' q w' hq]
      refine exists_congr fun g => ?_
      rw [hend]
      simp [hp']
  · by_cases hp' : p' = p
    · subst hp'
      rw [hself] at hq
      obtain rfl := Option.some.inj hq
      exact ⟨true, rfl⟩
    · exact h.used p' q (hpipe hp' ▸ hq)
  · rcases (hend p' w' g).mp hg with hg | ⟨hp', rfl⟩
    · rcases (hend p' w' g').mp hg' with hg' | ⟨hp', -⟩
      · exact h.unique p' w' g g' hg hg'
      · exact absurd hp' (hold hg).1
    · rcases (hend p' w' g').mp hg' with hg' | ⟨-, rfl⟩
      · exact absurd hp' (hold hg').1
      · rfl

theorem Sound.ne_of_zero {f g : Fin NFILE} (h : Sound s n raw) (hf : n f = 0) (hg : g ∈ raw) :
    f ≠ g := by
  rintro rfl
  have := h.raw_one f hg
  omega

theorem wp_pipealloc (h : Sound s n []) {page : Option ℕ}
    (hpage : ∀ p, page = some p → s.pipes p = none) :
    (pipealloc page : FilesM I _).wp (fun r s' => (r = none ∧ Sound s' n []) ∨
      ∃ f0 f1, r = some (f0, f1) ∧ f0 ≠ f1 ∧ n f0 = 0 ∧ n f1 = 0 ∧
        Sound s' (n + Pi.single f0 1 + Pi.single f1 1) []) (fun _ _ => False) s := by
  rw [pipealloc]
  refine wp.bind (wp_filealloc h) ?_
  rintro r s1 (⟨rfl, rfl⟩ | ⟨f0, rfl, hn0, hp1, h₁⟩)
  · exact (wp_pure _).mpr (.inl ⟨rfl, h⟩)
  refine wp.bind (wp_filealloc h₁) ?_
  rintro r s2 (⟨rfl, rfl⟩ | ⟨f1, rfl, hn1, hp2, h2⟩)
  · -- there was one entry only
    refine wp.bind (wp_fileclose (f := f0) h₁ (by simp [hn0])) fun _ s' hs' => ?_
    rw [add_sub_cancel_right] at hs'
    exact (wp_pure _).mpr (.inl ⟨rfl, by simpa using hs'⟩)
  have hne : f1 ≠ f0 := h₁.ne_of_zero hn1 List.mem_cons_self
  rw [Pi.add_apply, Pi.single_eq_of_ne hne, add_zero] at hn1
  cases page with
  | none =>
    refine wp.bind (wp_fileclose (f := f0) h2 (by simp [hn0, hne])) fun _ s3 h3 => ?_
    refine wp.bind (wp_fileclose (f := f1) h3 (by simp [hn1, hne.symm])) fun _ s4 h4 => ?_
    have hcount : n + Pi.single f0 1 + Pi.single f1 1 - Pi.single f0 1 - Pi.single f1 1 = n := by
      abel
    rw [hcount] at h4
    exact (wp_pure _).mpr (.inl ⟨rfl, by simpa [hne] using h4⟩)
  | some p =>
    have hp : s2.pipes p = none := by rw [hp2, hp1, hpage p rfl]
    have hnone0 : (s2.file f0).type = .none := (h2.none_iff f0).mpr (.inr (by simp))
    have hnone1 : (s2.file f1).type = .none := (h2.none_iff f1).mpr (.inr (by simp))
    rw [wp_bind, wp_modify, wp_pure]
    refine .inr ⟨f0, f1, rfl, hne.symm, hn0, hn1, ?_, ?_⟩
    · have hraw : Counted (s2.setPipe p (some ⟨true, true⟩)).file
          (n + Pi.single f0 1 + Pi.single f1 1) [f0, f1] :=
        h2.toCounted.congr_raw fun g => by simp [or_comm]
      have hset0 := hraw.setUp (by simp [hne.symm]) { s2.file f0 with
        type := .pipe, readable := true, writable := false, pipe := p } rfl nofun nofun
      exact hset0.setUp nofun _ rfl nofun nofun
    · refine h2.ends.newPipe hne.symm (by simp [hnone0]) (by simp [hnone1]) hp rfl ?_ ?_ ?_
      · simp [IsEnd, Files.newPipe, Files.setFile_of_ne _ _ hne.symm]
      · simp [IsEnd, Files.newPipe]
      · intro g hg0 hg1
        simp [Files.newPipe, Files.setFile_of_ne _ _ hg0, Files.setFile_of_ne _ _ hg1]

theorem Sound.setOff (h : Sound s n raw) (f : Fin NFILE) (off : ℕ) :
    Sound (s.setFile f { s.file f with off := off }) n raw := by
  have hupdate : update n f (s.file f).ref = n := by rw [h.ref f, update_eq_self]
  refine ⟨?_, h.ends.setFile rfl rfl rfl rfl⟩
  rw [← hupdate]
  refine h.setFile { s.file f with off := off } ?_ ?_ (fun hf => ?_) (h.inode f) fun _ _ => Iff.rfl
  · exact (h.ref f).symm ▸ h.nonneg f
  · exact (h.ref f).symm ▸ h.none_iff f
  · exact (h.ref f).trans (h.raw_one f hf)

theorem Sound.setInode (h : Sound s n raw) (inode : I → Inode) :
    Sound { s with inode := inode } n raw :=
  ⟨h.toCounted, h.ends.congr rfl (fun _ _ _ => Iff.rfl) fun _ => id⟩

theorem Sound.type_ne_none (h : Sound s n []) (hf : 1 ≤ n f) : (s.file f).type ≠ .none := by
  rw [ne_eq, h.none_iff]
  rintro (h0 | h0)
  · omega
  · exact nomatch h0

theorem wp_fileread (h : Sound s n []) (hf : 1 ≤ n f) (k : ℕ) (other : ℤ) :
    (fileread f k other : FilesM I _).wp (fun _ s' => Sound s' n []) (fun _ _ => False) s := by
  rw [fileread, wp_bind, wp_get]
  dsimp only
  split_ifs with hr
  · exact h
  cases htype : (s.file f).type with
  | none => exact absurd htype (h.type_ne_none hf)
  | pipe => exact h
  | inode =>
    obtain ⟨ip, hip⟩ := Option.isSome_iff_exists.mp (h.inode f htype)
    have hset := h.setOff f
      (((s.file f).off + (readi (s.inode ip) (s.file f).off k other).toNat) % 2 ^ 32)
    simp only [htype, hip] at hset
    simp only [hip, wp_bind]
    split_ifs
    · exact hset
    · exact h

theorem writei_fst (ip : Inode) (off k : ℕ) :
    (writei ip off k).1 = k ∨ (writei ip off k).1 = -1 := by
  unfold writei
  split_ifs <;> simp

theorem wp_filewriteFrom [DecidableEq I] (ip : I) (k : ℕ) :
    ∀ (left : ℕ) {s : Files I}, Sound s n [] →
      (filewriteFrom f ip k left : FilesM I _).wp (fun _ s' => Sound s' n []) (fun _ _ => False) s := by
  induction k with
  | zero => exact fun _ _ h => h
  | succ k ih =>
    intro left s h
    rw [filewriteFrom]
    split_ifs with h0
    · exact h
    rw [wp_bind, wp_get]
    have hr := writei_fst (s.inode ip) (s.file f).off (min left FsOps.maxPiece)
    dsimp only
    generalize writei (s.inode ip) (s.file f).off (min left FsOps.maxPiece) = w at hr ⊢
    obtain ⟨r, ip'⟩ := w
    have hset := h.setInode (update s.inode ip ip')
    dsimp only at hr
    simp only [wp_bind, wp_modify]
    rcases hr with rfl | rfl
    · rw [if_neg (Int.natCast_nonneg _).not_gt, if_neg (not_not_intro rfl)]
      split_ifs with hpos
      · exact ih _ (hset.setOff f _)
      · exact ih _ hset
    · exact hset

theorem wp_filewrite [DecidableEq I] (h : Sound s n []) (hf : 1 ≤ n f) (k : ℕ) (other : ℤ) :
    (filewrite f k other : FilesM I _).wp (fun _ s' => Sound s' n []) (fun _ _ => False) s := by
  rw [filewrite, wp_bind, wp_get]
  dsimp only
  split_ifs with hr
  · exact h
  cases htype : (s.file f).type with
  | none => exact absurd htype (h.type_ne_none hf)
  | pipe => exact h
  | inode =>
    obtain ⟨ip, hip⟩ := Option.isSome_iff_exists.mp (h.inode f htype)
    simp only [hip]
    exact wp.bind (wp_filewriteFrom ip k k h) fun _ _ hs' => hs'

end Specs

end Xv6.FileTable
