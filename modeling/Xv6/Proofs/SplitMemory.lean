import Xv6.Proofs.Split
import Xv6.Spec.SplitMemory

/-! Which runs of `split` stay inside the arrays: those that end before `split` is called. The array
`suffix` has no room for a NUL, so the first `strcpy` from it reads past its end. -/

namespace Xv6.Split

open Exec List

/-! Stores that stay inside. -/

/-- What a store does not change: the sizes of the arrays, the arguments and the files. -/
def Mem.shape (s : Mem) : (Arr → ℕ) × List Str × (Str → Input) :=
  (fun r => (s.cells r).length, s.argv, s.input)

variable {s : Mem} {r : Arr}

theorem Mem.put_shape {cells : List (Option UInt8)}
    (h : cells.length = (s.cells r).length) : (s.put r cells).shape = s.shape := by
  unfold Mem.shape Mem.put
  congr 1
  funext r'
  dsimp only
  split_ifs with hr
  · rw [hr, h]
  · rfl

theorem size_of_shape {s s' : Mem} (h : s'.shape = s.shape) (r : Arr) :
    (s'.cells r).length = (s.cells r).length := congrFun (congrArg Prod.fst h) r

variable {E : Halt → Mem → Prop}

variable {c : UInt8} {i : ℕ}

theorem store_spec (h : i < (s.cells r).length) :
    wp (store r i c) (fun _ s' => s'.shape = s.shape) E s := by
  unfold store
  rw [wp_bind, wp_get, if_pos h, wp_modify]
  exact Mem.put_shape length_set

variable {n : ℕ}

theorem alloc_spec (cells : List (Option UInt8)) (s : Mem) :
    wp (alloc r cells) (fun _ s' => s' = s.put r cells) E s := by
  unfold alloc
  exact rfl

theorem Mem.put_cells (s : Mem) (r : Arr) (cells : List (Option UInt8)) : (s.put r cells).cells r = cells :=
  if_pos rfl

theorem strcpyStr_spec (str : Str) : ∀ {i : ℕ} {s : Mem}, i + str.length < (s.cells r).length →
      wp (strcpyStr r i str) (fun _ s' => s'.shape = s.shape) E s := by
  induction str with
  | nil =>
    intro i s h
    exact store_spec h
  | cons c str ih =>
    intro i s h
    rw [length_cons] at h
    unfold strcpyStr
    apply wp.bind (store_spec (by omega))
    intro _ s' hs'
    apply (ih _).mono (fun _ _ h'' => h''.trans hs') fun _ _ he => he
    rw [size_of_shape hs']
    omega

theorem memsetFrom_spec (n : ℕ) : ∀ {i : ℕ} {s : Mem}, i + n ≤ (s.cells r).length →
      wp (memsetFrom r c n i) (fun _ s' => s'.shape = s.shape) E s := by
  induction n with
  | zero =>
    intro i s _
    exact rfl
  | succ n ih =>
    intro i s h
    unfold memsetFrom
    apply wp.bind (store_spec (by omega))
    intro _ s' hs'
    apply (ih _).mono (fun _ _ h'' => h''.trans hs') fun _ _ he => he
    rw [size_of_shape hs']
    omega

/-! The options. -/

variable {argv : List Str}

theorem argvAt_some {arg : Str} (h : argv[i]? = some arg) : argvAt argv i = .ok arg := by
  unfold argvAt
  rw [h]

theorem argvAt_none (h : argv[i]? = none) : argvAt argv i = .error (.fault (.argv i)) := by
  unfold argvAt
  rw [h]

theorem argvAt_bind {α : Type} (h : i < argv.length)
    (g : Str → Except Halt α) : (argvAt argv i >>= g) = g argv[i] := by
  rw [argvAt_some (getElem?_eq_getElem h)]
  rfl

theorem optionsFrom_error {e : Halt} (k : ℕ) : ∀ {i : ℕ} {o : Options},
    optionsFrom argv k i o = .error e → e = .exit := by
  induction k with
  | zero =>
    intro i o h
    cases h
  | succ k ih =>
    intro i o h
    unfold optionsFrom at h
    by_cases hi : i < argv.length
    · rw [if_pos hi, argvAt_bind hi] at h
      by_cases hnext : i + 1 < argv.length
      · rw [if_neg (show ¬i + 1 ≥ argv.length by omega), argvAt_bind hnext] at h
        split_ifs at h
        · cases h
          rfl
        · exact ih h
        · exact ih h
      · rw [if_pos (show i + 1 ≥ argv.length by omega)] at h
        split_ifs at h
        cases h
        rfl
    · rw [if_neg hi] at h
      cases h

/-- The options are wrong, or a file is named that is not a regular file that opens, with no prefix
or one that fits its array. -/
def EndsEarly (argv : List Str) (input : Str → Input) : Prop :=
  ∀ o, options argv = .ok o → ∃ path, argv[o.pos]? = some path ∧
    (∀ bufs, input path ≠ .file bufs) ∧ ∀ arg, argv[o.pos + 1]? = some arg → arg.length < 1000

theorem setPrefix_spec {pos : ℕ} (hsize : (s.cells .pre).length = 1000)
    (harg : ∀ arg, argv[pos + 1]? = some arg → arg.length < 1000) :
    wp (setPrefix argv pos) (fun _ _ => True) E s := by
  unfold setPrefix
  split_ifs with h
  · apply wp.bind (memsetFrom_spec 1000 (by omega))
    intro _ s1 hs1
    rw [argvAt_some (getElem?_eq_getElem h)]
    change wp (strcpyStr .pre 0 argv[pos + 1]) _ _ s1
    apply (strcpyStr_spec _ _).mono (fun _ _ _ => trivial) fun _ _ he => he
    rw [size_of_shape hs1, hsize, zero_add]
    exact harg _ (getElem?_eq_getElem h)
  · exact trivial

theorem main_begin (s : Mem) : wp (do alloc .pre (replicate 1000 none); strcpyStr .pre 0 [120])
      (fun _ s' => (s'.cells .pre).length = 1000) E s := by
  apply wp.bind (alloc_spec _ s)
  intro _ s0 hs0
  have hlen : (s0.cells .pre).length = 1000 := by rw [hs0, Mem.put_cells, length_replicate]
  apply (strcpyStr_spec [120] (by rw [hlen]; decide)).mono _ fun _ _ he => he
  intro _ s1 hs1
  exact (size_of_shape hs1 .pre).trans hlen

theorem lift_ok {α : Type} (a : α) : (lift (.ok a) : M α) = Pure.pure a := rfl

theorem main_spec (h : EndsEarly s.argv s.input) :
    wp (main none) (fun _ _ => True) (fun e _ => e = .exit) s := by
  unfold main
  rw [wp_bind, wp_get]
  rw [← bind_assoc]
  apply wp.bind (main_begin s)
  intro _ s1 hs1
  rw [wp_bind]
  cases ho : options s.argv with
  | error e => exact optionsFrom_error _ ho
  | ok o =>
    obtain ⟨path, hpath, hfile, harg⟩ := h o ho
    apply wp.bind (setPrefix_spec hs1 harg)
    intro _ s2 _
    rw [argvAt_some hpath, lift_ok, pure_bind]
    cases hin : s.input path with
    | cannotOpen => exact rfl
    | cannotStat => exact rfl
    | notFile => exact rfl
    | file bufs => exact absurd hin (hfile bufs)

theorem stopped_of_wp {m : M Unit} {R : Option Halt → Prop}
    (h : wp m (fun _ _ => R none) (fun e _ => R (some e)) s) : R (stopped (m s)) := by
  unfold wp at h
  cases hm : m s with
  | ok _ _ =>
    rw [hm] at h
    exact h
  | halt _ _ =>
    rw [hm] at h
    exact h

/-! Every other run faults. -/

def Faulty (e : Halt) (_ : Mem) : Prop := ∃ f, e = .fault f

def Frame (r : Arr) (s s' : Mem) : Prop := ∀ r', r' ≠ r → s'.cells r' = s.cells r'

theorem load_faulty (r : Arr) (i : ℕ) (s : Mem) : wp (load r i) (fun _ s' => s' = s) Faulty s := by
  unfold load
  rw [wp_bind, wp_get]
  split
  · exact rfl
  · exact ⟨_, rfl⟩

theorem store_faulty (r : Arr) (i : ℕ) (c : UInt8) (s : Mem) :
    wp (store r i c) (fun _ s' => Frame r s s') Faulty s := by
  unfold store
  rw [wp_bind, wp_get]
  split_ifs
  · intro r' hr'
    exact if_neg hr'
  · exact ⟨_, rfl⟩

theorem frame_put (s : Mem) (r : Arr) (cells : List (Option UInt8)) : Frame r s (s.put r cells) :=
  fun _ hr => if_neg hr

theorem strlenFrom_faulty (r : Arr) (off k : ℕ) : ∀ (n : ℕ) (s : Mem),
    wp (strlenFrom r off k n) (fun _ s' => s' = s) Faulty s := by
  induction k with
  | zero =>
    intro n s
    exact rfl
  | succ k ih =>
    intro n s
    unfold strlenFrom
    apply wp.bind (load_faulty r _ s)
    rintro c _ rfl
    split_ifs
    · exact rfl
    · exact ih (n + 1) _

theorem strcpyFrom_faulty (dst src : Arr) (k : ℕ) : ∀ (i j : ℕ) (s : Mem),
    wp (strcpyFrom dst src k i j) (fun _ s' => Frame dst s s') Faulty s := by
  induction k with
  | zero =>
    intro i j s r' _
    rfl
  | succ k ih =>
    intro i j s
    unfold strcpyFrom
    apply wp.bind (load_faulty src j s)
    rintro c _ rfl
    apply wp.bind (store_faulty dst i c _)
    intro _ s1 hs1
    split_ifs
    · exact hs1
    · exact (ih (i + 1) (j + 1) s1).mono (fun _ _ h r' hr' => (h r' hr').trans (hs1 r' hr'))
        fun _ _ he => he

theorem memsetFrom_fills (n : ℕ) : ∀ {i : ℕ} {s : Mem},
    s.cells r = replicate i (some c) ++ replicate n none →
      wp (memsetFrom r c n i) (fun _ s' => s'.cells r = replicate (i + n) (some c)) E s := by
  induction n with
  | zero =>
    intro i s h
    exact h.trans (append_nil _)
  | succ n ih =>
    intro i s h
    have hlt : i < (s.cells r).length := by
      rw [h, length_append, length_replicate, length_replicate]
      omega
    unfold memsetFrom store
    rw [wp_bind, wp_bind, wp_get, if_pos hlt, wp_modify]
    have hput : (s.put r ((s.cells r).set i (some c))).cells r =
        replicate (i + 1) (some c) ++ replicate n none := by
      apply (if_pos rfl).trans
      rw [h, set_append_right _ _ (by simp), length_replicate, Nat.sub_self,
        replicate_succ, set_cons_zero, replicate_succ', append_assoc]
      rfl
    rw [show i + (n + 1) = i + 1 + n by omega]
    exact ih hput

theorem load_some (h : (s.cells r)[i]? = some (some c)) : load r i s = .ok c s := by
  unfold load
  rw [bind_apply, Exec.get]
  dsimp only
  rw [h]
  rfl

theorem load_none (h : (s.cells r)[i]? = none) : load r i s = .halt (.fault (.read r i)) s := by
  unfold load
  rw [bind_apply, Exec.get]
  dsimp only
  rw [h]
  rfl

theorem strcpyFrom_suffix (hc : c ≠ 0) (k : ℕ) : ∀ {i j : ℕ} {s : Mem},
    s.cells .suffix = replicate n (some c) → j + k = n + 1 → j ≤ n →
      wp (strcpyFrom .path .suffix k i j) (fun _ _ => False) Faulty s := by
  induction k with
  | zero =>
    intro i j s _ hk hj
    omega
  | succ k ih =>
    intro i j s hs hk hj
    unfold strcpyFrom
    obtain rfl | hlt := eq_or_lt_of_le hj
    · unfold wp
      rw [bind_apply, load_none (by rw [hs, getElem?_eq_none (by simp)])]
      exact ⟨_, rfl⟩
    · rw [wp_bind]
      unfold wp
      rw [load_some (by rw [hs, getElem?_replicate_of_lt hlt])]
      apply wp.bind (store_faulty .path i c s)
      intro _ s1 hs1
      rw [if_neg hc]
      exact ih ((hs1 _ (by decide)).trans hs) (by omega) (by omega)

theorem openPartM_faults (hc : c ≠ 0) (hs : s.cells .suffix = replicate n (some c)) :
    wp openPartM (fun _ _ => False) Faulty s := by
  unfold openPartM strlenAt strcpyArr
  simp only [bind_assoc]
  rw [wp_bind, wp_get]
  apply wp.bind (strlenFrom_faulty .pre 0 _ 0 s)
  rintro m _ rfl
  rw [wp_bind, wp_get]
  refine wp.bind (strcpyFrom_suffix hc _ hs ?_ (Nat.zero_le n)) fun _ _ hfalse => hfalse.elim
  rw [hs, length_replicate, zero_add]

theorem splitM_faults (maxLine maxSuffix : ℤ) (bufs : List (List UInt8)) (s : Mem) :
    wp (splitM none maxLine maxSuffix bufs) (fun _ _ => False) Faulty s := by
  unfold splitM
  apply wp.bind (alloc_spec _ s)
  rintro _ _ rfl
  have hnew : (s.put .suffix (suffixCells none maxSuffix.toNat)).cells .suffix =
      replicate maxSuffix.toNat none := (Mem.put_cells ..).trans (append_nil _)
  apply wp.bind (memsetFrom_fills maxSuffix.toNat (i := 0) hnew)
  intro _ s2 hs2
  apply wp.bind (alloc_spec _ s2)
  rintro _ _ rfl
  unfold strcpyArr
  rw [bind_assoc, wp_bind, wp_get]
  apply wp.bind (strcpyFrom_faulty .path .pre _ 0 0 _)
  intro _ s4 hs4
  have hsuffix := ((hs4 .suffix (by decide)).trans (frame_put s2 .path _ .suffix (by decide))).trans hs2
  exact wp.bind (openPartM_faults (by decide) hsuffix) fun _ _ hfalse => hfalse.elim

theorem strcpyStr_faults (str : Str) : ∀ {i : ℕ} {s : Mem},
    (s.cells r).length ≤ i + str.length → wp (strcpyStr r i str) (fun _ _ => False) Faulty s := by
  induction str with
  | nil =>
    intro i s h
    unfold strcpyStr store
    rw [wp_bind, wp_get, if_neg (by simpa using h)]
    exact ⟨_, rfl⟩
  | cons c str ih =>
    intro i s h
    unfold strcpyStr
    by_cases hi : i < (s.cells r).length
    · apply wp.bind (store_spec hi)
      intro _ s1 hs1
      apply ih
      rw [size_of_shape hs1]
      rw [length_cons] at h
      omega
    · unfold store
      rw [bind_assoc, wp_bind, wp_get, if_neg hi]
      exact ⟨_, rfl⟩

theorem setPrefix_faults {pos : ℕ} {arg : Str}
    (hsize : (s.cells .pre).length = 1000) (harg : argv[pos + 1]? = some arg)
    (hlen : 1000 ≤ arg.length) : wp (setPrefix argv pos) (fun _ _ => False) Faulty s := by
  have hlt : pos + 1 < argv.length := (List.getElem?_eq_some_iff.mp harg).1
  unfold setPrefix
  rw [if_pos hlt]
  apply wp.bind (memsetFrom_spec 1000 (by omega))
  intro _ s1 hs1
  rw [argvAt_some harg]
  change wp (strcpyStr .pre 0 arg) _ _ s1
  apply strcpyStr_faults
  rw [size_of_shape hs1, hsize, zero_add]
  exact hlen

theorem main_faulty (h : ¬EndsEarly s.argv s.input) :
    wp (main none) (fun _ _ => False) Faulty s := by
  unfold EndsEarly at h
  push Not at h
  obtain ⟨o, ho, hpath⟩ := h
  unfold main
  rw [wp_bind, wp_get]
  rw [← bind_assoc]
  apply wp.bind (main_begin s)
  intro _ s1 hs1
  rw [wp_bind, ho]
  by_cases hlong : ∀ arg, s.argv[o.pos + 1]? = some arg → arg.length < 1000
  · apply wp.bind (setPrefix_spec hs1 hlong)
    intro _ s2 _
    cases hat : s.argv[o.pos]? with
    | none =>
      rw [argvAt_none hat]
      exact ⟨_, rfl⟩
    | some path =>
      have hfile : ¬∀ bufs, s.input path ≠ .file bufs := by
        intro hfile
        obtain ⟨arg, harg, hlen⟩ := hpath path hat hfile
        exact absurd (hlong arg harg) (Nat.not_lt.mpr hlen)
      push Not at hfile
      obtain ⟨bufs, hbufs⟩ := hfile
      rw [argvAt_some hat, lift_ok, pure_bind, hbufs]
      exact splitM_faults _ _ _ s2
  · push Not at hlong
    obtain ⟨arg, harg, hlen⟩ := hlong
    apply wp.bind (setPrefix_faults hs1 harg hlen)
    intro _ _ hfalse
    exact hfalse.elim

/-- A run makes no access outside the arrays, to bytes not written or to `argv` at `argc` or later
exactly when it ends early. -/
theorem main_in_bounds (argv : List Str) (input : Str → Input) :
    (∀ f, stopped (main none (start argv input)) ≠ some (.fault f)) ↔ EndsEarly argv input := by
  constructor
  · intro h
    by_contra hnot
    have hfault : ∃ f, stopped (main none (start argv input)) = some (.fault f) := by
      apply stopped_of_wp (R := fun o => ∃ f, o = some (.fault f))
      apply (main_faulty (s := start argv input) hnot).mono
      · exact fun _ _ hfalse => hfalse.elim
      · rintro _ _ ⟨f, rfl⟩
        exact ⟨f, rfl⟩
    obtain ⟨f, hf⟩ := hfault
    exact h f hf
  · intro h f
    apply stopped_of_wp (R := fun o => o ≠ some (.fault f))
    apply (main_spec (s := start argv input) h).mono
    · intro _ _ _ hf
      cases hf
    · rintro _ _ rfl hf
      cases hf

/-- `split f` on a file with one line reads `suffix[2]`. -/
theorem main_reads_past_suffix :
    stopped (main none (start [[115], [102]] fun _ => .file [[97, 10]])) =
      some (.fault (.read .suffix 2)) := by
  decide +kernel

end Xv6.Split
