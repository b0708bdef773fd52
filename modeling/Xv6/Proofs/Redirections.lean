import Xv6.Proofs.Plumbing
import Xv6.Proofs.ShellParser

/-! Which of several redirections a command runs with. `parseredirs` puts each redirection around
those it has read, and `runcmd` opens the files from the outside in: the first of a line is opened
last. -/

namespace Xv6.Shell

variable {R α : Type}

/-- A simple command or a parenthesised block without its redirections, and the redirections in
the order of the line. -/
inductive Redirected : List Token → Cmd Text → List Redirection → Prop
  | words {ts us : List Token} {ws : List Text} {rs rs' : List Redirection}
      (hredirs : Redirs ts rs) (hargs : Args us ws rs') (hlen : ws.length < MAXARGS) :
      Redirected (ts ++ us) (.exec ws) (rs ++ rs')
  | block {ts us : List Token} {cmd : Cmd Text} {rs : List Redirection}
      (h : Derives .line ts cmd) (hredirs : Redirs us rs) :
      Redirected (.lparen :: ts ++ .rparen :: us) cmd rs

def files (k : Redir) (rs : List (Redir × α)) : List α := (rs.filter (·.1 = k)).map Prod.snd

def OnFile (k : Redir) (x : Res R α) : Option α → Res R α → Prop
  | some f, y => ∃ π, y = .file π f k.mode
  | none, y => y = x

theorem Redirected.derives {ts : List Token} {cmd : Cmd Text} {rs : List Redirection}
    (h : Redirected ts cmd rs) : Derives .line ts (wrap cmd rs) := by
  have hexec : Derives .exec ts (wrap cmd rs) := by
    cases h with
    | words hredirs hargs hlen => exact .words hredirs hargs hlen
    | block h hredirs => exact .block h hredirs
  have hline := Derives.line 0 (.pipe hexec)
  rwa [List.replicate_zero, List.append_nil] at hline

theorem OnFile.snoc {k k' : Redir} {rs : List (Redir × α)} {f : α} {π : Path} {x y : Res R α}
    (h : OnFile k (if k' = k then .file π f k'.mode else x) (files k rs).head? y) :
    OnFile k x (files k (rs ++ [(k', f)])).head? y := by
  have hsnoc : files k (rs ++ [(k', f)]) = files k rs ++ if k' = k then [f] else [] := by
    unfold files
    rw [List.filter_append, List.map_append]
    split_ifs with hk <;> simp [hk]
  rw [hsnoc]
  cases hfiles : files k rs with
  | nil =>
    rw [hfiles] at h
    split_ifs at h ⊢ with hk
    · exact ⟨π, by rw [h, hk]⟩
    · exact h
  | cons g gs =>
    rw [hfiles] at h
    exact h

/-- Inside the redirections `rs` a command runs with `a'` and `b'` for the descriptors 0 and 1. -/
def RunsWith (rs : List (Redir × α)) (π : Path) (a b c a' b' : Res R α) : Prop :=
  ∃ π', ∀ cmd, runcmd (wrap cmd rs) π (Fds.std a b c) = runcmd cmd π' (Fds.std a' b' c)

theorem runcmd_wrap (rs : List (Redir × α)) (π : Path) (a b c : Res R α) :
    ∃ a' b', RunsWith rs π a b c a' b' ∧ OnFile .input a (files .input rs).head? a' ∧
      OnFile .output b (files .output rs).head? b' := by
  induction rs using List.reverseRecOn generalizing π a b with
  | nil => exact ⟨a, b, ⟨π, fun _ => rfl⟩, rfl, rfl⟩
  | append_singleton rs r ih =>
    obtain ⟨k, f⟩ := r
    obtain ⟨a', b', ⟨π', hrun⟩, hin, hout⟩ := ih (π ++ [.down])
      (if k = .input then .file π f k.mode else a) (if k = .output then .file π f k.mode else b)
    refine ⟨a', b', ⟨π', fun cmd => ?_⟩, hin.snoc, hout.snoc⟩
    rw [← hrun, wrap, List.foldl_append]
    simp only [List.foldl_cons, List.foldl_nil, runcmd, Fds.redirect_std, Option.bind_eq_bind,
      Option.bind_some]
    rfl

theorem RunsWith.unique (w : α) {rs : List (Redir × α)} {π : Path} {a b c a1 b1 a2 b2 : Res R α}
    (h1 : RunsWith rs π a b c a1 b1) (h2 : RunsWith rs π a b c a2 b2) : a1 = a2 ∧ b1 = b2 := by
  obtain ⟨π1, h1⟩ := h1
  obtain ⟨π2, h2⟩ := h2
  have heq := (h1 (.exec [w])).symm.trans (h2 (.exec [w]))
  simp only [runcmd, Option.some.injEq, List.cons.injEq, Program.mk.injEq, and_true, true_and] at heq
  exact ⟨Option.some.inj (congrFun heq.2 ⟨0, by decide⟩), Option.some.inj (congrFun heq.2 ⟨1, by decide⟩)⟩

theorem OnFile.unique {k : Redir} {x y : Res R α} {f g : α}
    (hf : OnFile k x (some f) y) (hg : OnFile k x (some g) y) : f = g := by
  obtain ⟨π, rfl⟩ := hf
  obtain ⟨π', heq⟩ := hg
  cases heq
  rfl

/-- A command runs with descriptor 0 on the file of its last `<`, and descriptor 1 on the file of its
last `>` or `>>`, if there are such, exactly when the first redirection of each kind has the same file
as the last. -/
theorem last_redirection_wins {line : Text} {cmd : Cmd Text} {rs : List Redirection} (h0 : 0 ∉ line)
    (hline : Redirected (tokens line) cmd rs) (a b c : Res R Text) :
    parsecmd line = .ok (wrap cmd rs) ∧
      ((∃ a' b', RunsWith rs [] a b c a' b' ∧ OnFile .input a (files .input rs).getLast? a' ∧
          OnFile .output b (files .output rs).getLast? b') ↔
        ∀ k, (files k rs).head? = (files k rs).getLast?) := by
  refine ⟨parsecmd_of_derives h0 hline.derives, ?_⟩
  obtain ⟨a', b', hrun, hin, hout⟩ := runcmd_wrap rs [] a b c
  constructor
  · rintro ⟨a'', b'', hrun', hin', hout'⟩ k
    obtain ⟨rfl, rfl⟩ := hrun.unique [] hrun'
    have hsame : ∀ {x y : Res R Text}, OnFile k x (files k rs).head? y →
        OnFile k x (files k rs).getLast? y → (files k rs).head? = (files k rs).getLast? := by
      intro x y hfirst hlast
      cases hfiles : files k rs with
      | nil => rfl
      | cons f fs =>
        rw [hfiles, List.head?_cons] at hfirst
        rw [hfiles, List.getLast?_eq_some_getLast (List.cons_ne_nil f fs)] at hlast
        rw [List.head?_cons, List.getLast?_eq_some_getLast (List.cons_ne_nil f fs)]
        exact congrArg some (hfirst.unique hlast)
    cases k with
    | input => exact hsame hin hin'
    | output => exact hsame hout hout'
  · intro hlast
    exact ⟨a', b', hrun, hlast .input ▸ hin, hlast .output ▸ hout⟩

def ascii (s : String) : Text := s.toList.map Char.toUInt8

/-- `wc <a >b` -/
theorem last_redirection_wins_wc : parsecmd (ascii "wc <a >b") =
      .ok (wrap (.exec [ascii "wc"]) [(.input, ascii "a"), (.output, ascii "b")]) ∧
    ∃ π π', RunsWith (R := ℕ) [(.input, ascii "a"), (.output, ascii "b")] [] (.outer 0) (.outer 1)
      (.outer 2) (.file π (ascii "a") O_RDONLY) (.file π' (ascii "b") (O_WRONLY ||| O_CREATE)) := by
  have hline : Redirected (tokens (ascii "wc <a >b")) (.exec [ascii "wc"])
      [(.input, ascii "a"), (.output, ascii "b")] := by
    have htok : tokens (ascii "wc <a >b") =
        [] ++ (.word (ascii "wc") :: ([.lt, .word (ascii "a"), .gt, .word (ascii "b")] ++ [])) := by
      simp +decide [ascii, tokens]
    rw [htok]
    exact .words .nil (.cons (.cons rfl (.cons rfl .nil)) .nil) (by decide)
  obtain ⟨hparse, hiff⟩ := last_redirection_wins (by decide) hline (.outer 0) (.outer 1) (.outer 2)
  obtain ⟨a', b', hrun, ⟨π, rfl⟩, ⟨π', rfl⟩⟩ := hiff.mpr fun k => by cases k <;> rfl
  exact ⟨hparse, π, π', hrun⟩

/-- `ls >a >b` writes to `a`. -/
theorem first_redirection_wins : ∃ tree, parsecmd (ascii "ls >a >b") = .ok tree ∧
    runcmd tree [] (Fds.std (.outer 0) (.outer 1) (.outer 2)) =
      some [⟨[.down, .down], [ascii "ls"],
        Fds.std (.outer 0) (.file [.down] (ascii "a") (O_WRONLY ||| O_CREATE)) (.outer 2)⟩] := by
  refine ⟨.redir (.redir (.exec [ascii "ls"]) (ascii "a") .output) (ascii "b") .output,
    by decide +kernel, ?_⟩
  simp only [runcmd, Fds.redirect_std, Option.bind_eq_bind, Option.bind_some]
  rfl

end Xv6.Shell
