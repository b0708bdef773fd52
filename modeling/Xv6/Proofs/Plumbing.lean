import Xv6.Spec.Shell

/-! What `runcmd` connects: every program it executes has descriptors 0, 1 and 2 and no other,
and the ends of a pipe are held by the programs of its two sides whose stream is not connected
to something else on the way. -/

open Function Option

namespace Xv6.Shell

variable {R α F : Type} {l : List (Option F)} {fd : Fin NOFILE} {k : Redir} {cmd left right : Cmd α}

/-! ### Descriptor tables -/

namespace Fds

def cells (l : List (Option F)) : Fds F := fun fd => l.getD fd.val none

def std (a b c : F) : Fds F := cells [some a, some b, some c, none, none]

theorem update_cells (h : fd.val < l.length)
    (x : Option F) : update (cells l) fd x = cells (l.set fd.val x) := by
  funext j
  rcases eq_or_ne j fd with rfl | hne
  · simp [cells, h]
  · have hval : fd.val ≠ j.val := fun he => hne (Fin.ext he.symm)
    rw [update_of_ne hne]
    simp [cells, List.getElem?_set_ne hval]

theorem close_cells (h : fd.val < l.length) : (cells l).close fd = cells (l.set fd.val none) :=
  update_cells h none

theorem fdalloc_cells (fd : Fin NOFILE) (f : F) (h : l.findIdx? isNone = some fd.val) :
    (cells l).fdalloc f = some (fd, cells (l.set fd.val (some f))) := by
  obtain ⟨hlt, hfree, hlow⟩ := List.findIdx?_eq_some_iff_getElem.mp h
  have hfind : (Fin.find? fun fd => (cells l fd).isNone) = some fd := by
    apply Fin.find?_eq_some_iff.mpr
    refine ⟨by simpa [cells, hlt] using hfree, fun j hj => ?_⟩
    have hj' : j.val < l.length := lt_trans hj hlt
    simpa [cells, hj', isSome_iff_ne_none] using hlow j.val hj
  rw [fdalloc, hfind]
  simp only [map_some, update_cells hlt]

theorem openFile_cells (fd : Fin NOFILE) (f : F) (h : l.findIdx? isNone = some fd.val) :
    (cells l).openFile f = some (cells (l.set fd.val (some f))) := by
  rw [openFile, fdalloc_cells fd f h]
  rfl

theorem exists_cells {t : Fds F} (h : ∀ fd : Fin NOFILE, (t fd).isSome → fd.val < 3) :
    ∃ a b c, t = cells [a, b, c, none, none] := by
  refine ⟨t ⟨0, by decide⟩, t ⟨1, by decide⟩, t ⟨2, by decide⟩, funext fun fd => ?_⟩
  rcases lt_or_ge fd.val 3 with hlt | hge
  · obtain ⟨k, hk⟩ := fd
    interval_cases k <;> rfl
  · have hnone : t fd = none := by
      by_contra hne
      have := h fd (isSome_iff_ne_none.mpr hne)
      omega
    obtain ⟨k, hk⟩ := fd
    have hk' : k < 16 := hk
    rw [hnone]
    interval_cases k <;> rfl

theorem isSome_std (a b c : F) (fd : Fin NOFILE) : (std a b c fd).isSome ↔ fd.val < 3 := by
  obtain ⟨k, hk⟩ := fd
  have hk' : k < 16 := hk
  interval_cases k <;> simp [std, cells]

theorem std_eq_some {a b c x : F} (h : std a b c fd = some x) :
    fd.val = 0 ∧ a = x ∨ fd.val = 1 ∧ b = x ∨ fd.val = 2 ∧ c = x := by
  have hlt : fd.val < 3 := (isSome_std a b c fd).mp (by rw [h]; rfl)
  obtain ⟨k, hk⟩ := fd
  interval_cases k <;> simp_all [std, cells]

theorem exists_std {t : Fds F} (h : ∀ fd : Fin NOFILE, (t fd).isSome ↔ fd.val < 3) :
    ∃ a b c, t = std a b c := by
  obtain ⟨a, b, c, rfl⟩ := exists_cells fun fd => (h fd).mp
  obtain ⟨a, rfl⟩ := isSome_iff_exists.mp ((h ⟨0, by decide⟩).mpr (by decide))
  obtain ⟨b, rfl⟩ := isSome_iff_exists.mp ((h ⟨1, by decide⟩).mpr (by decide))
  obtain ⟨c, rfl⟩ := isSome_iff_exists.mp ((h ⟨2, by decide⟩).mpr (by decide))
  exact ⟨a, b, c, rfl⟩

theorem redirect_std (a b c f : F) (k : Redir) : ((std a b c).close k.fd).openFile f =
      some (std (if k = .input then f else a) (if k = .output then f else b) c) := by
  cases k
  · rw [std, close_cells (Nat.succ_pos 4), openFile_cells ⟨0, by decide⟩ f rfl]
    rfl
  · rw [std, close_cells (Nat.lt_add_left 3 Nat.one_lt_two), openFile_cells ⟨1, by decide⟩ f rfl]
    rfl

variable (a b c rf wf : F)

theorem pipe_std : (std a b c).pipe rf wf =
    some (⟨3, by decide⟩, ⟨4, by decide⟩, cells [some a, some b, some c, some rf, some wf]) := by
  rw [pipe, std, fdalloc_cells ⟨3, by decide⟩ rf rfl]
  simp only [bind_some]
  rw [fdalloc_cells ⟨4, by decide⟩ wf rfl]
  rfl

theorem dup_cells {f : F} (low : Fin NOFILE)
    (hf : cells l fd = some f) (h : l.findIdx? isNone = some low.val) :
    (cells l).dup fd = some (cells (l.set low.val (some f))) := by
  rw [dup, hf]
  exact openFile_cells low f h

theorem dup_left :
    ((cells [some a, some b, some c, some rf, some wf]).close ⟨1, by decide⟩).dup ⟨4, by decide⟩ =
      some (cells [some a, some wf, some c, some rf, some wf]) := by
  rw [close_cells (by simp), dup_cells ⟨1, by decide⟩ (f := wf) rfl rfl]
  rfl

theorem dup_right :
    ((cells [some a, some b, some c, some rf, some wf]).close ⟨0, by decide⟩).dup ⟨3, by decide⟩ =
      some (cells [some rf, some b, some c, some rf, some wf]) := by
  rw [close_cells (by simp), dup_cells ⟨0, by decide⟩ (f := rf) rfl rfl]
  rfl

theorem close_ends : ((cells [some a, some b, some c, some rf, some wf]).close ⟨3, by decide⟩).close
      ⟨4, by decide⟩ = std a b c := by
  rw [close_cells (by simp), close_cells (by simp)]
  rfl

end Fds

/-! ### Where the streams of a program come from -/

def Redir.side : Redir → Dir
  | input => .right
  | output => .left

def Redir.pipeEnd (π : Path) : Redir → Res R α
  | input => .read π
  | output => .write π

namespace Cmd

def sub : Cmd α → Path → Option (Cmd α)
  | cmd, [] => some cmd
  | redir cmd _ _, .down :: ρ => cmd.sub ρ
  | pipe left _, .left :: ρ => left.sub ρ
  | pipe _ right, .right :: ρ => right.sub ρ
  | list left _, .left :: ρ => left.sub ρ
  | list _ right, .right :: ρ => right.sub ρ
  | back cmd, .down :: ρ => cmd.sub ρ
  | _, _ => none

def programs : Cmd α → List (Path × List α)
  | exec [] => []
  | exec (a :: argv) => [([], a :: argv)]
  | redir cmd _ _ => cmd.programs.map (Prod.map (.down :: ·) id)
  | pipe left right => left.programs.map (Prod.map (.left :: ·) id) ++
      right.programs.map (Prod.map (.right :: ·) id)
  | list left right => left.programs.map (Prod.map (.left :: ·) id) ++
      right.programs.map (Prod.map (.right :: ·) id)
  | back cmd => cmd.programs.map (Prod.map (.down :: ·) id)

/-- The stream `k` of the node `ρ` is neither redirected nor piped inside the command. -/
def inherits (k : Redir) : Cmd α → Path → Bool
  | redir cmd _ kind, .down :: ρ => kind ≠ k && cmd.inherits k ρ
  | pipe left _, .left :: ρ => k.side ≠ .left && left.inherits k ρ
  | pipe _ right, .right :: ρ => k.side ≠ .right && right.inherits k ρ
  | list left _, .left :: ρ => left.inherits k ρ
  | list _ right, .right :: ρ => right.inherits k ρ
  | back cmd, .down :: ρ => cmd.inherits k ρ
  | _, _ => true

/-- What the stream `k` of the node `ρ` is connected to, for a command at `π` that is run with
this stream connected to `x`. -/
def stream (k : Redir) : Cmd α → Path → Path → Res R α → Res R α
  | redir cmd file kind, .down :: ρ, π, x =>
    cmd.stream k ρ (π ++ [.down]) (if kind = k then .file π file kind.mode else x)
  | pipe left _, .left :: ρ, π, x =>
    left.stream k ρ (π ++ [.left]) (if k.side = .left then k.pipeEnd π else x)
  | pipe _ right, .right :: ρ, π, x =>
    right.stream k ρ (π ++ [.right]) (if k.side = .right then k.pipeEnd π else x)
  | list left _, .left :: ρ, π, x => left.stream k ρ (π ++ [.left]) x
  | list _ right, .right :: ρ, π, x => right.stream k ρ (π ++ [.right]) x
  | back cmd, .down :: ρ, π, x => cmd.stream k ρ (π ++ [.down]) x
  | _, _, _, x => x

end Cmd

/-- The program of a node of a command at `π`, with its streams as `Cmd.stream` has them. -/
def planned (cmd : Cmd α) (π : Path) (a b c : Res R α) (leaf : Path × List α) : Program R α :=
  ⟨π ++ leaf.1, leaf.2, Fds.std (cmd.stream .input leaf.1 π a) (cmd.stream .output leaf.1 π b) c⟩

theorem map_planned {cmd child : Cmd α} {d : Dir} {π : Path} {a a' b b' : Res R α} (c : Res R α)
    (hin : ∀ ρ, cmd.stream .input (d :: ρ) π a = child.stream .input ρ (π ++ [d]) a')
    (hout : ∀ ρ, cmd.stream .output (d :: ρ) π b = child.stream .output ρ (π ++ [d]) b') :
    (child.programs.map (Prod.map (d :: ·) id)).map (planned cmd π a b c) =
      child.programs.map (planned child (π ++ [d]) a' b' c) := by
  rw [List.map_map]
  apply List.map_congr_left
  intro leaf _
  simp [planned, hin, hout]

theorem runcmd_std (cmd : Cmd α) (π : Path) (a b c : Res R α) :
    runcmd cmd π (Fds.std a b c) = some (cmd.programs.map (planned cmd π a b c)) := by
  induction cmd generalizing π a b with
  | exec argv =>
    cases argv with
    | nil => rfl
    | cons arg argv => simp [runcmd, Cmd.programs, planned, Cmd.stream]
  | redir cmd file kind ih =>
    simp only [runcmd, Fds.redirect_std, bind_eq_bind, bind_some, ih, Cmd.programs]
    rw [map_planned c (fun _ => rfl) (fun _ => rfl)]
  | pipe left right ihl ihr =>
    simp only [runcmd, Fds.pipe_std, bind_eq_bind, bind_some, Fds.dup_left,
      Fds.dup_right, Fds.close_ends, ihl, ihr, Cmd.programs, List.map_append]
    rw [map_planned c (fun _ => rfl) (fun _ => rfl), map_planned c (fun _ => rfl) (fun _ => rfl)]
    rfl
  | list left right ihl ihr =>
    simp only [runcmd, bind_eq_bind, bind_some, ihl, ihr, Cmd.programs,
      List.map_append]
    rw [map_planned c (fun _ => rfl) (fun _ => rfl), map_planned c (fun _ => rfl) (fun _ => rfl)]
    rfl
  | back cmd ih =>
    simp only [runcmd, ih, Cmd.programs]
    rw [map_planned c (fun _ => rfl) (fun _ => rfl)]

namespace Cmd

def piped (k : Redir) (left right : Cmd α) : Cmd α :=
  match k with
  | .input => right
  | .output => left

theorem stream_of_inherits {cmd : Cmd α} {ρ : Path} (h : cmd.inherits k ρ = true)
    (π : Path) (x : Res R α) : cmd.stream k ρ π x = x := by
  fun_induction cmd.inherits k ρ generalizing π x <;>
    simp_all [stream]

theorem stream_append (k : Redir) {cmd below : Cmd α} {σ : Path} (h : cmd.sub σ = some below)
    (ρ π : Path) (x : Res R α) : ∃ y, cmd.stream k (σ ++ ρ) π x = below.stream k ρ (π ++ σ) y := by
  fun_induction cmd.sub σ generalizing π x with
  | case1 cmd =>
    obtain rfl := some.inj h
    exact ⟨x, by simp⟩
  | case2 cmd file kind σ ih | case3 left right σ ih | case4 left right σ ih
  | case5 left right σ ih | case6 left right σ ih | case7 cmd σ ih =>
    obtain ⟨y, hy⟩ := ih h (π ++ [_]) _
    exact ⟨y, by simpa [stream] using hy⟩
  | case8 => exact nomatch h

/-- Where the stream `k` of the node `ρ` can come from, for a command at `π` run with `x`: it is
inherited, it is a file, or it is an end of the last pipe above `ρ` it is connected to. -/
inductive Origin (k : Redir) (cmd : Cmd α) (ρ π : Path) (x : Res R α) : Res R α → Prop
  | inherited (h : cmd.inherits k ρ = true) : Origin k cmd ρ π x x
  | file (σ : Path) (name : α) (mode : ℕ) : Origin k cmd ρ π x (.file σ name mode)
  | pipe {σ τ : Path} {left right : Cmd α} (hsub : cmd.sub σ = some (.pipe left right))
      (hρ : ρ = σ ++ k.side :: τ) (hin : (piped k left right).inherits k τ = true) :
      Origin k cmd ρ π x (k.pipeEnd (π ++ σ))

theorem Origin.under {cmd child : Cmd α} {d : Dir} {ρ π : Path} {x x' y : Res R α}
    (h : Origin k child ρ (π ++ [d]) x' y) (hsub : ∀ σ, cmd.sub (d :: σ) = child.sub σ)
    (hx : child.inherits k ρ = true → Origin k cmd (d :: ρ) π x x') :
    Origin k cmd (d :: ρ) π x y := by
  cases h with
  | inherited hin => exact hx hin
  | file σ name mode => exact .file σ name mode
  | @pipe σ τ left right hσ hρ hin =>
    rw [List.append_assoc]
    exact .pipe ((hsub σ).trans hσ) (by simp [hρ]) hin

theorem origin_stream (k : Redir) (cmd : Cmd α) (ρ π : Path) (x : Res R α) :
    Origin k cmd ρ π x (cmd.stream k ρ π x) := by
  fun_induction cmd.stream k ρ π x with
  | case1 cmd file kind ρ π x ih =>
    apply ih.under fun _ => rfl
    intro hin
    split
    · exact .file _ _ _
    · exact .inherited (by simp [inherits, *])
  | case2 left right ρ π x ih =>
    apply ih.under fun _ => rfl
    intro hin
    cases k with
    | input => exact .inherited (by simp [inherits, Redir.side, hin])
    | output => simpa [Redir.side] using Origin.pipe (σ := []) (by rw [sub]) rfl hin
  | case3 left right ρ π x ih =>
    apply ih.under fun _ => rfl
    intro hin
    cases k with
    | input => simpa [Redir.side] using Origin.pipe (σ := []) (by rw [sub]) rfl hin
    | output => exact .inherited (by simp [inherits, Redir.side, hin])
  | case4 left right ρ π x ih | case5 left right ρ π x ih | case6 cmd ρ π x ih =>
    exact ih.under (fun _ => rfl) fun hin => .inherited hin
  | case7 cmd ρ π x hredir hleft hright hlleft hlright hback =>
    apply Origin.inherited
    fun_cases cmd.inherits k ρ with
    | case7 => rfl
    | case1 cmd file kind ρ => exact (hredir cmd file kind ρ rfl rfl).elim
    | case2 left right ρ => exact (hleft left right ρ rfl rfl).elim
    | case3 left right ρ => exact (hright left right ρ rfl rfl).elim
    | case4 left right ρ => exact (hlleft left right ρ rfl rfl).elim
    | case5 left right ρ => exact (hlright left right ρ rfl rfl).elim
    | case6 cmd ρ => exact (hback cmd ρ rfl rfl).elim

/-- The programs of the side of a PIPE node that inherit the stream get the end of its pipe. -/
theorem stream_pipe {σ τ : Path}
    (h : cmd.sub σ = some (.pipe left right)) (hin : (piped k left right).inherits k τ = true)
    (x : Res R α) : cmd.stream k (σ ++ k.side :: τ) [] x = k.pipeEnd σ := by
  obtain ⟨y, hy⟩ := stream_append k h (k.side :: τ) [] x
  rw [hy]
  cases k <;> exact stream_of_inherits hin _ _

theorem of_stream_pipe {cmd : Cmd α} {ρ σ : Path} {r : R}
    (h : cmd.stream k ρ [] (.outer r) = k.pipeEnd σ) :
    ∃ left right τ, cmd.sub σ = some (.pipe left right) ∧ ρ = σ ++ k.side :: τ ∧
      (piped k left right).inherits k τ = true := by
  have horigin := origin_stream k cmd ρ [] (.outer r)
  generalize cmd.stream k ρ [] (.outer r) = y at h horigin
  cases horigin with
  | inherited => cases k <;> exact nomatch h
  | file => cases k <;> exact nomatch h
  | @pipe σ' τ left right hsub hρ hin =>
    have hσ : σ' = σ := by cases k <;> simpa [Redir.pipeEnd] using h
    subst hσ
    exact ⟨left, right, τ, hsub, hρ, hin⟩

theorem stream_ne {k k' : Redir} (hne : k ≠ k') (cmd : Cmd α) (ρ σ : Path) (r : R) :
    cmd.stream k ρ [] (.outer r) ≠ k'.pipeEnd σ := by
  have horigin := origin_stream k cmd ρ [] (.outer r)
  generalize cmd.stream k ρ [] (.outer r) = y at horigin
  cases horigin <;> cases k <;> cases k' <;> first | exact absurd rfl hne | exact nofun

end Cmd

/-- A program that inherits the stream `k` from a side of a PIPE node has the end of the pipe. -/
theorem planned_pipe {σ τ : Path} (hsub : cmd.sub σ = some (.pipe left right))
    (hin : (Cmd.piped k left right).inherits k τ = true) (a b c : Res R α) (argv : List α) :
    (planned cmd [] a b c (σ ++ k.side :: τ, argv)).ofile k.fd = some (k.pipeEnd σ) := by
  cases k with
  | input => exact congrArg some (Cmd.stream_pipe hsub hin a)
  | output => exact congrArg some (Cmd.stream_pipe hsub hin b)

theorem of_planned_pipe {σ : Path} {a b c : R}
    {leaf : Path × List α} (hsub : cmd.sub σ = some (.pipe left right))
    (h : (planned cmd [] (.outer a) (.outer b) (.outer c) leaf).ofile fd = some (k.pipeEnd σ)) :
    fd = k.fd ∧ ∃ τ, leaf.1 = σ ++ k.side :: τ ∧ (Cmd.piped k left right).inherits k τ = true := by
  have hstream : ∀ r : R, cmd.stream k leaf.1 [] (.outer r) = k.pipeEnd σ →
      ∃ τ, leaf.1 = σ ++ k.side :: τ ∧ (Cmd.piped k left right).inherits k τ = true := by
    intro r hr
    obtain ⟨left', right', τ, hsub', hleaf, hin⟩ := Cmd.of_stream_pipe hr
    rw [hsub] at hsub'
    cases hsub'
    exact ⟨τ, hleaf, hin⟩
  rcases Fds.std_eq_some h with ⟨hfd, hx⟩ | ⟨hfd, hx⟩ | ⟨-, hx⟩
  · cases k with
    | input => exact ⟨Fin.ext hfd, hstream a hx⟩
    | output => exact absurd hx (Cmd.stream_ne (by decide) cmd leaf.1 σ a)
  · cases k with
    | input => exact absurd hx (Cmd.stream_ne (by decide) cmd leaf.1 σ b)
    | output => exact ⟨Fin.ext hfd, hstream b hx⟩
  · cases k <;> exact nomatch hx

/-- A process with descriptors 0, 1 and 2 open runs `cmd`: no call fails for want of a
descriptor, and the programs executed are those of its EXEC nodes. Each of them has exactly
descriptors 0, 1 and 2. The write end of the pipe of a PIPE node is descriptor 1 of the programs
on its left whose output is not redirected or piped in the left command, the read end is
descriptor 0 of those on its right whose input is not redirected or piped in the right one, and
no program has an end in another way. -/
theorem runcmd_plumbing (cmd : Cmd α) (t : Fds R)
    (hstd : ∀ fd : Fin NOFILE, (t fd).isSome ↔ fd.val < 3) :
    ∃ ps : List (Program R α), runcmd cmd [] (fun fd => (t fd).map .outer) = some ps ∧
      ps.map (fun p => (p.node, p.argv)) = cmd.programs ∧
      (∀ p ∈ ps, ∀ fd, (p.ofile fd).isSome ↔ fd.val < 3) ∧
      ∀ σ left right, cmd.sub σ = some (.pipe left right) →
        (∀ p ∈ ps, ∀ τ, p.node = σ ++ .left :: τ → left.inherits .output τ = true →
          p.ofile ⟨1, by decide⟩ = some (.write σ)) ∧
        (∀ p ∈ ps, ∀ τ, p.node = σ ++ .right :: τ → right.inherits .input τ = true →
          p.ofile ⟨0, by decide⟩ = some (.read σ)) ∧
        (∀ p ∈ ps, ∀ fd, p.ofile fd = some (.write σ) →
          fd.val = 1 ∧ ∃ τ, p.node = σ ++ .left :: τ ∧ left.inherits .output τ = true) ∧
        ∀ p ∈ ps, ∀ fd, p.ofile fd = some (.read σ) →
          fd.val = 0 ∧ ∃ τ, p.node = σ ++ .right :: τ ∧ right.inherits .input τ = true := by
  obtain ⟨a, b, c, rfl⟩ := Fds.exists_std hstd
  have houter : (fun fd => (Fds.std a b c fd).map .outer) =
      Fds.std (.outer a) (.outer b) (.outer c : Res R α) := by
    funext fd
    obtain ⟨k, hk⟩ := fd
    have hk' : k < 16 := hk
    interval_cases k <;> rfl
  refine ⟨_, by rw [houter, runcmd_std], ?_, ?_, ?_⟩
  · simp [planned, comp_def]
  · intro p hp fd
    obtain ⟨leaf, -, rfl⟩ := List.mem_map.mp hp
    exact Fds.isSome_std _ _ _ fd
  · intro σ left right hsub
    refine ⟨?_, ?_, ?_, ?_⟩ <;> intro p hp <;> obtain ⟨⟨ρ, argv⟩, -, rfl⟩ := List.mem_map.mp hp
    · rintro τ rfl hin
      exact planned_pipe (k := .output) hsub hin _ _ _ argv
    · rintro τ rfl hin
      exact planned_pipe (k := .input) hsub hin _ _ _ argv
    · intro fd h
      obtain ⟨rfl, hτ⟩ := of_planned_pipe (k := .output) hsub h
      exact ⟨rfl, hτ⟩
    · intro fd h
      obtain ⟨rfl, hτ⟩ := of_planned_pipe (k := .input) hsub h
      exact ⟨rfl, hτ⟩

def threeStages : Cmd String :=
  .pipe (.redir (.exec ["ls"]) "in" .input)
    (.pipe (.exec ["grep"]) (.redir (.exec ["wc"]) "out" .output))

/-- The second program reads the first pipe and writes the second, and nobody else holds the
write end of the second. -/
theorem runcmd_plumbing_threeStages :
    ∃ ps : List (Program ℕ String),
      runcmd threeStages [] (fun fd => (Fds.std 0 1 2 fd).map .outer) = some ps ∧
      ps.map Program.argv = [["ls"], ["grep"], ["wc"]] ∧
      (∀ p ∈ ps, p.node = [.right, .left] → p.ofile ⟨0, by decide⟩ = some (.read []) ∧
        p.ofile ⟨1, by decide⟩ = some (.write [.right])) ∧
      ∀ p ∈ ps, ∀ fd, p.ofile fd = some (.write [.right]) → p.node = [.right, .left] := by
  obtain ⟨ps, hrun, hps, -, hpipes⟩ :=
    runcmd_plumbing threeStages (Fds.std 0 1 2) (Fds.isSome_std 0 1 2)
  have hargv : ps.map Program.argv = (ps.map fun p => (p.node, p.argv)).map Prod.snd := by
    simp [comp_def]
  have hnode : ∀ p ∈ ps, (p.node, p.argv) ∈ threeStages.programs := by
    intro p hp
    rw [← hps]
    exact List.mem_map_of_mem hp
  obtain ⟨-, hread, -, -⟩ := hpipes [] _ _ rfl
  obtain ⟨hwrite, -, hheld, -⟩ := hpipes [.right] _ _ rfl
  refine ⟨ps, hrun, by rw [hargv, hps]; rfl, fun p hp hat => ?_, fun p hp fd hfd => ?_⟩
  · exact ⟨hread p hp [.left] hat rfl, hwrite p hp [] hat rfl⟩
  · obtain ⟨-, τ, hτ, -⟩ := hheld p hp fd hfd
    have hmem := hnode p hp
    rw [hτ] at hmem ⊢
    have hτ : τ = [] := (by simpa [threeStages, Cmd.programs] using hmem : τ = [] ∧ _).1
    rw [hτ]
    rfl

end Xv6.Shell
