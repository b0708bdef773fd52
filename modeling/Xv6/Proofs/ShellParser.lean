import Mathlib.Data.List.TakeWhile
import Xv6.Spec.ShellGrammar

/-! The parser of `sh.c` accepts the lines of the grammar and builds their trees. -/

namespace Xv6.Shell

open List Nat

variable {s s' : Text} {t : Token} {ts us : List Token}

/-! ### Reading tokens -/

theorem skip_suffix (s : Text) : skip s <:+ s := dropWhile_suffix _

theorem tokens_skip (s : Text) : tokens (skip s) = tokens s := by
  induction s with
  | nil => rfl
  | cons c s ih =>
    by_cases hc : c ∈ whitespace
    · rw [tokens, if_pos hc, ← ih, skip, dropWhile_cons_of_pos (by simpa using hc)]
      rfl
    · rw [skip, dropWhile_cons_of_neg (by simpa using hc)]

theorem skip_cases (s : Text) : skip s = [] ∨ ∃ c r, skip s = c :: r ∧ c ∉ whitespace := by
  cases h : skip s with
  | nil => exact .inl rfl
  | cons c r =>
    have hc := head?_dropWhile_not (fun c => decide (c ∈ whitespace)) s
    rw [← skip, h] at hc
    exact .inr ⟨c, r, rfl, by simpa using hc⟩

def Token.lead : Token → Option UInt8
  | bar => '|'.toUInt8
  | lparen => '('.toUInt8
  | rparen => ')'.toUInt8
  | semi => ';'.toUInt8
  | amp => '&'.toUInt8
  | lt => '<'.toUInt8
  | gt => '>'.toUInt8
  | append => '>'.toUInt8
  | word _ => none

def Token.tok : Token → Tok
  | bar => .bar
  | lparen => .lparen
  | rparen => .rparen
  | semi => .semi
  | amp => .amp
  | lt => .lt
  | gt => .gt
  | append => .append
  | word _ => .word

def leads (ts : List Token) (toks : List Char) : Bool :=
  ts.head?.any fun t => t.lead.any (· ∈ toks.map Char.toUInt8)

def Span.text (w : Span) : Text := w.q.take (w.q.length - w.eq.length)

structure Placed (s : Text) (w : Span) : Prop where
  suffix : w.q <:+ s
  split : w.q = w.text ++ w.eq
  word : ∀ c ∈ w.text, isWord c = true
  maximal : ∀ c, w.eq.head? = some c → isWord c = false

theorem Placed.mono {w : Span} (h : Placed s' w) (hsuf : s' <:+ s) : Placed s w :=
  ⟨h.suffix.trans hsuf, h.split, h.word, h.maximal⟩

/-- The first token of a text that starts with something else than whitespace, and how `scan`
reads it. -/
structure Scanned (c : UInt8) (r : Text) (t : Token) (e : Text) : Prop where
  scan : scan (c :: r) = (t.tok, e)
  tokens : tokens (c :: r) = t :: Shell.tokens e
  suffix : e <:+ r
  lead : t.lead = if c ∈ symbols then some c else none
  word : ∀ w, t = .word w → c :: r = w ++ e ∧ (∀ c ∈ w, isWord c = true) ∧
    ∀ c, e.head? = some c → isWord c = false

variable {c : UInt8}

theorem single_cases (h : single c = some t) :
    c ∉ whitespace ∧ c ≠ '>'.toUInt8 ∧ c ∈ symbols ∧ t.lead = some c ∧ (∀ w, t ≠ .word w) ∧
      ∀ r, scan (c :: r) = (t.tok, r) := by
  unfold single at h
  split_ifs at h with h1 h2 h3 h4 h5 h6
  all_goals
    obtain rfl := Option.some.inj h
    subst c
    exact ⟨by decide, by decide, by decide, rfl, nofun, fun _ => rfl⟩

theorem scanned_single (r : Text) (h : single c = some t) : Scanned c r t r := by
  obtain ⟨hws, hgt, hsym, hlead, hword, hscan⟩ := single_cases h
  refine ⟨hscan r, ?_, suffix_rfl, ?_, fun w hw => (hword w hw).elim⟩
  · rw [tokens, if_neg hws, if_neg hgt, h]
  · rw [hlead, if_pos hsym]

theorem scanned_gt (r : Text) : ∃ t e, Scanned '>'.toUInt8 r t e := by
  have htokens : tokens ('>'.toUInt8 :: r) =
      if r.head? = some '>'.toUInt8 then .append :: tokens r.tail else .gt :: tokens r := by
    rw [tokens, if_neg (by decide), if_pos rfl]
  have hscan : scan ('>'.toUInt8 :: r) =
      if r.head? = some '>'.toUInt8 then (.append, r.tail) else (.gt, r) := rfl
  by_cases hr : r.head? = some '>'.toUInt8
  · rw [if_pos hr] at htokens hscan
    exact ⟨.append, r.tail, hscan, htokens, tail_suffix r, rfl, fun _ h => by cases h⟩
  · rw [if_neg hr] at htokens hscan
    exact ⟨.gt, r, hscan, htokens, suffix_rfl, rfl, fun _ h => by cases h⟩

theorem notMem_symbols (hgt : c ≠ '>'.toUInt8) (h : single c = none) : c ∉ symbols := by
  intro hc
  have hall : symbols.all (fun c => c = '>'.toUInt8 ∨ single c ≠ none) = true := by decide
  exact (of_decide_eq_true (all_eq_true.mp hall c hc)).elim hgt (fun hne => hne h)

theorem scanned_word (r : Text) (hc : isWord c = true) (h0 : c ≠ 0) :
    Scanned c r (.word (c :: r.takeWhile isWord)) (r.dropWhile isWord) := by
  obtain ⟨hws, hsym⟩ : c ∉ whitespace ∧ c ∉ symbols := by simpa [isWord] using hc
  have hne : ∀ d ∈ symbols, c ≠ d := fun d hd he => hsym (he ▸ hd)
  have hsingle : single c = none := by
    cases h : single c with
    | none => rfl
    | some t => exact absurd (single_cases h).2.2.1 hsym
  refine ⟨?_, ?_, dropWhile_suffix _, (if_neg hsym).symm, ?_⟩
  · rw [scan, if_neg h0, if_neg (hne _ (by decide)), if_neg (hne _ (by decide)),
      if_neg (hne _ (by decide)), if_neg (hne _ (by decide)), if_neg (hne _ (by decide)),
      if_neg (hne _ (by decide)), if_neg (hne _ (by decide)), dropWhile_cons_of_pos hc]
    rfl
  · rw [tokens, if_neg hws, if_neg (hne _ (by decide)), hsingle]
  · rintro w ⟨⟩
    refine ⟨by simp, ?_, ?_⟩
    · intro d hd
      rcases mem_cons.mp hd with rfl | hd
      · exact hc
      · exact mem_takeWhile_imp hd
    · intro d hd
      have := head?_dropWhile_not isWord r
      rw [hd] at this
      simpa using this

theorem scanned (r : Text) (hc : c ∉ whitespace) (h0 : c ≠ 0) : ∃ t e, Scanned c r t e := by
  by_cases hgt : c = '>'.toUInt8
  · subst hgt
    exact scanned_gt r
  · cases h : single c with
    | some t => exact ⟨t, r, scanned_single r h⟩
    | none =>
      have hsym := notMem_symbols hgt h
      exact ⟨_, _, scanned_word r (by simp [isWord, hc, hsym]) h0⟩

structure Got (s : Text) (t : Token) (w : Span) (s' : Text) : Prop where
  gettoken : gettoken s = (t.tok, w, s')
  suffix : s' <:+ s
  shorter : s'.length < s.length
  word : ∀ x, t = .word x → w.text = x ∧ Placed s w

theorem skip_eq_nil_iff (h0 : 0 ∉ s) : skip s = [] ↔ tokens s = [] := by
  constructor
  · intro h
    rw [← tokens_skip, h, tokens]
  · intro h
    rcases skip_cases s with hnil | ⟨c, r, hskip, hc⟩
    · exact hnil
    · have hmem : c ∈ s := (skip_suffix s).subset (hskip ▸ mem_cons_self)
      obtain ⟨t, e, hscan⟩ := scanned r hc fun he => h0 (he ▸ hmem)
      rw [← tokens_skip, hskip, hscan.tokens] at h
      cases h

theorem gettoken_nil (h0 : 0 ∉ s) (h : tokens s = []) : ∃ w, gettoken s = (.eof, w, []) :=
  ⟨⟨[], []⟩, by simp only [gettoken, (skip_eq_nil_iff h0).mpr h]; rfl⟩

theorem gettoken_cons (h0 : 0 ∉ s) (h : tokens s = t :: us) :
    ∃ w s', Got s t w s' ∧ tokens s' = us := by
  rcases skip_cases s with hnil | ⟨c, r, hskip, hc⟩
  · rw [← tokens_skip, hnil, tokens] at h
    cases h
  · have hmem : c ∈ s := (skip_suffix s).subset (hskip ▸ mem_cons_self)
    obtain ⟨t', e, hscan⟩ := scanned r hc fun he => h0 (he ▸ hmem)
    rw [← tokens_skip, hskip, hscan.tokens] at h
    obtain ⟨rfl, rfl⟩ := cons.inj h
    have hr : r <:+ s := (suffix_cons c r).trans (hskip ▸ skip_suffix s)
    have hlt : r.length < s.length := by
      have := (skip_suffix s).length_le
      rw [hskip] at this
      exact this
    have hle := ((skip_suffix e).trans hscan.suffix).length_le
    refine ⟨⟨c :: r, e⟩, skip e, ⟨?_, ?_, ?_, ?_⟩, tokens_skip e⟩
    · simp [gettoken, hskip, hscan.scan]
    · exact ((skip_suffix e).trans hscan.suffix).trans hr
    · omega
    · intro x hx
      obtain ⟨hsplit, hword, hmax⟩ := hscan.word x hx
      have htext : Span.text ⟨c :: r, e⟩ = x := by
        simp [Span.text, hsplit]
      refine ⟨htext, hskip ▸ skip_suffix s, ?_, ?_, hmax⟩
      · rw [htext]
        exact hsplit
      · rwa [htext]

theorem peek_eq (h0 : 0 ∉ s) {toks : List Char} (htoks : toks.map Char.toUInt8 ⊆ symbols) :
    peek s toks = (leads (tokens s) toks, skip s) := by
  rw [← tokens_skip]
  rcases skip_cases s with hnil | ⟨c, r, hskip, hc⟩
  · simp only [peek, hnil, tokens]
    rfl
  · have hmem : c ∈ s := (skip_suffix s).subset (hskip ▸ mem_cons_self)
    have hc0 : c ≠ 0 := fun he => h0 (he ▸ hmem)
    obtain ⟨t, e, hscan⟩ := scanned r hc hc0
    simp only [peek, hskip, hscan.tokens, leads, head?_cons, Option.any_some, hscan.lead]
    by_cases hsym : c ∈ symbols
    · rw [if_pos hsym, Option.any_some]
      simp only [ne_eq, hc0, not_false_eq_true, true_and]
    · have : c ∉ toks.map Char.toUInt8 := fun h => hsym (htoks h)
      rw [if_neg hsym, Option.any_none, decide_eq_false (fun h => this h.2)]

theorem read_symbol (h0 : 0 ∉ s) (h : tokens s = t :: us) :
    ∃ w s', gettoken (skip s) = (t.tok, w, s') ∧ s' <:+ s ∧ s'.length < s.length ∧ tokens s' = us ∧
      ∀ x, t = .word x → w.text = x ∧ Placed s w := by
  have hsuf := skip_suffix s
  obtain ⟨w, s', hgot, htok⟩ := gettoken_cons (s := skip s) (fun h => h0 (hsuf.subset h))
    ((tokens_skip s).trans h)
  have hle := hsuf.length_le
  have hlt := hgot.shorter
  refine ⟨w, s', hgot.gettoken, hgot.suffix.trans hsuf, by omega, htok, fun x hx => ?_⟩
  obtain ⟨htext, hplaced⟩ := hgot.word x hx
  exact ⟨htext, hplaced.mono hsuf⟩

inductive Symbol : Char → Token → Prop
  | bar : Symbol '|' .bar
  | lparen : Symbol '(' .lparen
  | rparen : Symbol ')' .rparen
  | semi : Symbol ';' .semi
  | amp : Symbol '&' .amp

theorem leads_symbol {c : Char} (hc : Symbol c t) (ts : List Token) :
    leads ts [c] = true ↔ ∃ us, ts = t :: us := by
  cases ts with
  | nil => simp [leads]
  | cons t' us =>
    have hiff : leads (t' :: us) [c] = true ↔ t' = t := by
      cases hc <;> cases t' <;> simp [leads, Token.lead] <;> decide
    simp [hiff]

theorem peek_symbol {c : Char} (hc : Symbol c t) (h0 : 0 ∉ s) :
    (∃ us w s', tokens s = t :: us ∧ peek s [c] = (true, skip s) ∧
      gettoken (skip s) = (t.tok, w, s') ∧ s' <:+ s ∧ s'.length < s.length ∧ tokens s' = us) ∨
    (∀ us, tokens s ≠ t :: us) ∧ peek s [c] = (false, skip s) := by
  have hpeek : peek s [c] = (leads (tokens s) [c], skip s) :=
    peek_eq h0 (by cases hc <;> decide)
  cases hleads : leads (tokens s) [c] with
  | true =>
    obtain ⟨us, htok⟩ := (leads_symbol hc _).mp hleads
    obtain ⟨w, s', hget, hsuf, hlt, htok', -⟩ := read_symbol h0 htok
    exact .inl ⟨us, w, s', htok, hleads ▸ hpeek, hget, hsuf, hlt, htok'⟩
  | false =>
    refine .inr ⟨fun us htok => ?_, hleads ▸ hpeek⟩
    rw [(leads_symbol hc _).mpr ⟨us, htok⟩] at hleads
    exact nomatch hleads

theorem peek_present {c : Char} (hc : Symbol c t) (h0 : 0 ∉ s) (htok : tokens s = t :: us) :
    ∃ w s', peek s [c] = (true, skip s) ∧ gettoken (skip s) = (t.tok, w, s') ∧ s' <:+ s ∧
      s'.length < s.length ∧ tokens s' = us := by
  rcases peek_symbol hc h0 with ⟨us', w, s', htok', hpeek, hget, hsuf, hlt, hus⟩ | ⟨hne, -⟩
  · obtain ⟨-, rfl⟩ := cons.inj (htok.symm.trans htok')
    exact ⟨w, s', hpeek, hget, hsuf, hlt, hus⟩
  · exact absurd htok (hne us)

theorem peek_absent {c : Char} (hc : Symbol c t) (h0 : 0 ∉ s) (htok : ∀ us, tokens s ≠ t :: us) :
    peek s [c] = (false, skip s) := by
  rcases peek_symbol hc h0 with ⟨us', -, -, htok', -⟩ | ⟨-, hpeek⟩
  · exact absurd htok' (htok us')
  · exact hpeek

/-! ### One round of each loop -/

section Rounds

variable (fuel argc : ℕ) (cmd : Cmd Span)

theorem leads_redir (ts : List Token) :
    leads ts ['<', '>'] = ts.head?.any fun t => t.redir.isSome := by
  cases ts with
  | nil => rfl
  | cons t ts => cases t <;> rfl

theorem parseredirs_stop (h0 : 0 ∉ s) (h : leads (tokens s) ['<', '>'] = false) :
    parseredirs (fuel + 1) cmd s = .ok (cmd, skip s) := by
  simp only [parseredirs, peek_eq h0 (by decide : ['<', '>'].map Char.toUInt8 ⊆ symbols), h]
  rfl

theorem parseredirs_round (h0 : 0 ∉ s) {k : Redir} (hk : t.redir = some k)
    (h : tokens s = t :: us) :
    (∃ w us' file s', us = .word w :: us' ∧ tokens s' = us' ∧ s' <:+ s ∧ s'.length < s.length ∧
      file.text = w ∧ Placed s file ∧
      parseredirs (fuel + 1) cmd s = parseredirs fuel (.redir cmd file k) s') ∨
    (∀ w us', us ≠ .word w :: us') ∧
      parseredirs (fuel + 1) cmd s = .error (.panic "missing file for redirection") := by
  have hleads : leads (tokens s) ['<', '>'] = true := by simp [leads_redir, h, hk]
  obtain ⟨w1, s1, hget1, hsuf1, hlt1, htok1, -⟩ := read_symbol h0 h
  have h01 : 0 ∉ s1 := fun h => h0 (hsuf1.subset h)
  cases us with
  | nil =>
    obtain ⟨w2, hget2⟩ := gettoken_nil h01 htok1
    refine .inr ⟨nofun, ?_⟩
    simp only [parseredirs, peek_eq h0 (by decide : ['<', '>'].map Char.toUInt8 ⊆ symbols), hleads,
      hget1, hget2]
    rfl
  | cons t2 us =>
    obtain ⟨w2, s2, hgot, htok2⟩ := gettoken_cons h01 htok1
    by_cases hword : t2.tok = .word
    · obtain ⟨x, rfl⟩ : ∃ x, t2 = .word x := by
        cases t2 <;> first | exact ⟨_, rfl⟩ | exact nomatch hword
      obtain ⟨htext, hplaced⟩ := hgot.word x rfl
      have hlt2 := hgot.shorter
      refine .inl ⟨x, us, w2, s2, rfl, htok2, hgot.suffix.trans hsuf1, by omega, htext,
        hplaced.mono hsuf1, ?_⟩
      simp only [parseredirs, peek_eq h0 (by decide : ['<', '>'].map Char.toUInt8 ⊆ symbols), hleads,
        hget1, hgot.gettoken]
      cases t <;> cases hk <;> rfl
    · refine .inr ⟨?_, ?_⟩
      · rintro w us' ⟨⟩
        exact hword rfl
      · simp only [parseredirs, peek_eq h0 (by decide : ['<', '>'].map Char.toUInt8 ⊆ symbols),
          hleads, hget1, hgot.gettoken, ne_eq, hword, not_false_iff, if_true]
        rfl

theorem parseargs_stop (h0 : 0 ∉ s)
    (h : tokens s = [] ∨ leads (tokens s) ['|', ')', '&', ';'] = true) :
    ∃ s', parseargs (fuel + 1) argc cmd s = .ok (cmd, s') ∧ s' <:+ s ∧ tokens s' = tokens s := by
  have hsuf := skip_suffix s
  have hpeek := peek_eq h0 (by decide : ['|', ')', '&', ';'].map Char.toUInt8 ⊆ symbols)
  cases hleads : leads (tokens s) ['|', ')', '&', ';'] with
  | true =>
    refine ⟨skip s, ?_, hsuf, tokens_skip s⟩
    simp only [parseargs, hpeek, hleads, if_true]
  | false =>
    have hnil : tokens s = [] := h.resolve_right (by simp [hleads])
    obtain ⟨w, hget⟩ := gettoken_nil (s := skip s) (fun h => h0 (hsuf.subset h))
      ((tokens_skip s).trans hnil)
    refine ⟨[], ?_, nil_suffix, by rw [hnil, tokens]⟩
    simp only [parseargs, hpeek, hleads, hget, if_true]
    rfl

theorem parseargs_word (h0 : 0 ∉ s) {x : Text} (h : tokens s = .word x :: us) :
    ∃ w s', tokens s' = us ∧ s' <:+ s ∧ s'.length < s.length ∧ w.text = x ∧ Placed s w ∧
      parseargs (fuel + 1) argc cmd s = if MAXARGS ≤ argc + 1 then .error (.panic "too many args")
        else (parseredirs (s'.length + 1) (cmd.push w) s').bind
          fun r => parseargs fuel (argc + 1) r.1 r.2 := by
  obtain ⟨w, s', hget, hsuf, hlt, htok, hword⟩ := read_symbol h0 h
  obtain ⟨htext, hplaced⟩ := hword x rfl
  have hleads : leads (tokens s) ['|', ')', '&', ';'] = false := by rw [h]; rfl
  refine ⟨w, s', htok, hsuf, hlt, htext, hplaced, ?_⟩
  simp only [parseargs, peek_eq h0 (by decide : ['|', ')', '&', ';'].map Char.toUInt8 ⊆ symbols),
    hleads, hget, Token.tok]
  rfl

theorem parseargs_other (h0 : 0 ∉ s) (h : tokens s = t :: us) (hword : ∀ x, t ≠ .word x)
    (hleads : leads (tokens s) ['|', ')', '&', ';'] = false) :
    parseargs (fuel + 1) argc cmd s = .error (.panic "syntax") := by
  obtain ⟨w, s', hget, -⟩ := read_symbol h0 h
  simp only [parseargs, peek_eq h0 (by decide : ['|', ')', '&', ';'].map Char.toUInt8 ⊆ symbols),
    hleads, hget]
  cases t <;> first | rfl | exact absurd rfl (hword _)

end Rounds

/-! ### What is accepted derives from the grammar -/

def Cmd.strings {α : Type} : Cmd α → List α
  | .exec argv => argv
  | .redir cmd file _ => cmd.strings ++ [file]
  | .pipe left right => left.strings ++ right.strings
  | .list left right => left.strings ++ right.strings
  | .back cmd => cmd.strings

/-- A parser run on `s` stops, and when it returns it has read tokens that derive its command.
The strings of the command are words of `s`, or among `old`. -/
def Yields (s : Text) (old : List Span) (D : List Token → Cmd Text → Prop) : Parse → Prop
  | .ok (cmd, s') => s' <:+ s ∧ (∀ w ∈ cmd.strings, w ∈ old ∨ Placed s w) ∧
      ∃ ts, tokens s = ts ++ tokens s' ∧ D ts (cmd.map Span.text)
  | .error (.panic _) => True
  | .error .fuel => False

variable {rs : List Redirection} {ws : List Text} {α : Type} {k : Cmd Span × Text → Parse}
  {ret : Cmd Span}

section Yields

variable {old old' : List Span} {D D' : List Token → Cmd Text → Prop} {p : Parse}

theorem Yields.mono (h : Yields s old D p) (hold : ∀ w ∈ old, w ∈ old' ∨ Placed s w)
    (hD : ∀ ts cmd, D ts cmd → D' ts cmd) : Yields s old' D' p := by
  match p, h with
  | .ok (cmd, s'), ⟨hsuf, hstr, ts, htok, hd⟩ =>
    exact ⟨hsuf, fun w hw => (hstr w hw).elim (hold w) .inr, ts, htok, hD ts _ hd⟩
  | .error (.panic _), _ => trivial

theorem Yields.after (ts : List Token) (hsuf : s' <:+ s) (htok : tokens s = ts ++ tokens s')
    (h : Yields s' old (fun us cmd => D (ts ++ us) cmd) p) : Yields s old D p := by
  match p, h with
  | .ok (cmd, s''), ⟨hsuf', hstr, us, htok', hd⟩ =>
    refine ⟨hsuf'.trans hsuf, fun w hw => (hstr w hw).imp_right (·.mono hsuf), ts ++ us, ?_, hd⟩
    rw [htok, htok', append_assoc]
  | .error (.panic _), _ => trivial

theorem Yields.bind (h : Yields s old D p)
    (hk : ∀ cmd s', s' <:+ s → ∀ ts, D ts (cmd.map Span.text) → tokens s = ts ++ tokens s' →
      Yields s' (old ++ cmd.strings) (fun us cmd => D' (ts ++ us) cmd) (k (cmd, s'))) :
    Yields s old D' (p.bind k) := by
  match p, h with
  | .ok (cmd, s'), ⟨hsuf, hstr, ts, htok, hd⟩ =>
    have hold : ∀ w ∈ old ++ cmd.strings, w ∈ old ∨ Placed s w := by
      intro w hw
      rcases mem_append.mp hw with hw | hw
      · exact .inl hw
      · exact hstr w hw
    exact (Yields.after ts hsuf htok (hk cmd s' hsuf ts hd htok)).mono hold fun _ _ h => h
  | .error (.panic _), _ => trivial

theorem parseredirs_yields (fuel : ℕ) (cmd : Cmd Span) (h0 : 0 ∉ s) (hfuel : s.length < fuel) :
    Yields s cmd.strings (fun ts t => ∃ rs, Redirs ts rs ∧ t = wrap (cmd.map Span.text) rs)
      (parseredirs fuel cmd s) := by
  induction fuel generalizing s cmd with
  | zero => omega
  | succ fuel ih =>
    have hstop : leads (tokens s) ['<', '>'] = false → Yields s cmd.strings
        (fun ts t => ∃ rs, Redirs ts rs ∧ t = wrap (cmd.map Span.text) rs)
        (parseredirs (fuel + 1) cmd s) := by
      intro h
      rw [parseredirs_stop fuel cmd h0 h]
      exact ⟨skip_suffix s, fun w hw => .inl hw, [], (tokens_skip s).symm, [], .nil, rfl⟩
    cases htok : tokens s with
    | nil => exact hstop (by rw [htok]; rfl)
    | cons t us =>
      cases hk : t.redir with
      | none => exact hstop (by simp [leads_redir, htok, hk])
      | some k =>
        rcases parseredirs_round fuel cmd h0 hk htok with
          ⟨x, us', file, s', rfl, htok', hsuf, hlt, rfl, hplaced, hround⟩ | ⟨-, hround⟩
        · rw [hround]
          have hrest := ih (.redir cmd file k) (s := s') (fun h => h0 (hsuf.subset h)) (by omega)
          have hold : ∀ w ∈ (Cmd.redir cmd file k).strings, w ∈ cmd.strings ∨ Placed s w := by
            intro w hw
            rcases mem_append.mp hw with hw | hw
            · exact .inl hw
            · exact .inr (mem_singleton.mp hw ▸ hplaced)
          refine (Yields.after [t, .word file.text] hsuf (by rw [htok, htok']; rfl)
            (hrest.mono (fun _ => .inl) ?_)).mono hold fun _ _ h => h
          rintro ts cmd' ⟨rs, hrs, rfl⟩
          exact ⟨(k, file.text) :: rs, .cons hk hrs, rfl⟩
        · rw [hround]
          trivial

theorem wrap_append (cmd : Cmd α) (rs rs' : List (Redir × α)) :
    wrap (wrap cmd rs) rs' = wrap cmd (rs ++ rs') := by
  simp [wrap]

theorem push_wrap (w : α) (cmd : Cmd α) (rs : List (Redir × α)) :
    (wrap cmd rs).push w = wrap (cmd.push w) rs := by
  induction rs generalizing cmd with
  | nil => rfl
  | cons r rs ih => exact ih (.redir cmd r.2 r.1)

theorem map_push {α β : Type} (f : α → β) (w : α) (cmd : Cmd α) :
    (cmd.push w).map f = (cmd.map f).push (f w) := by
  induction cmd with
  | redir cmd file kind ih => simp [Cmd.push, Cmd.map, ih]
  | exec argv => simp [Cmd.push, Cmd.map]
  | _ => rfl

theorem strings_push {w x : α} {cmd : Cmd α} (h : x ∈ (cmd.push w).strings) :
    x ∈ cmd.strings ∨ x = w := by
  induction cmd with
  | exec argv => simpa [Cmd.push, Cmd.strings] using h
  | redir cmd file kind ih =>
    rcases mem_append.mp h with h | h
    · exact (ih h).imp_left (mem_append_left _)
    · exact .inl (mem_append_right _ h)
  | _ => exact .inl h

theorem parseargs_yields (fuel : ℕ) {argc : ℕ}
    (h0 : 0 ∉ s) (hfuel : s.length < fuel) (hargc : ws.length = argc)
    (hlen : argc < MAXARGS) (hret : ret.map Span.text = wrap (.exec ws) rs) :
    Yields s ret.strings (fun ts t => ∃ ws' rs', Args ts ws' rs' ∧
      (ws ++ ws').length < MAXARGS ∧ t = wrap (.exec (ws ++ ws')) (rs ++ rs'))
      (parseargs fuel argc ret s) := by
  induction fuel generalizing s argc ret ws rs with
  | zero => omega
  | succ fuel ih =>
    have hstop : tokens s = [] ∨ leads (tokens s) ['|', ')', '&', ';'] = true →
        Yields s ret.strings (fun ts t => ∃ ws' rs', Args ts ws' rs' ∧
          (ws ++ ws').length < MAXARGS ∧ t = wrap (.exec (ws ++ ws')) (rs ++ rs'))
          (parseargs (fuel + 1) argc ret s) := by
      intro h
      obtain ⟨s', hargs, hsuf, htok⟩ := parseargs_stop fuel argc ret h0 h
      rw [hargs]
      exact ⟨hsuf, fun w hw => .inl hw, [], htok.symm, [], [], .nil, by simpa [hargc],
        by simpa using hret⟩
    cases htok : tokens s with
    | nil => exact hstop (.inl htok)
    | cons t us =>
      cases hleads : leads (tokens s) ['|', ')', '&', ';'] with
      | true => exact hstop (.inr hleads)
      | false =>
        by_cases hword : ∃ x, t = .word x
        · obtain ⟨x, rfl⟩ := hword
          obtain ⟨w, s', htok', hsuf, hlt, rfl, hplaced, hround⟩ :=
            parseargs_word fuel argc ret h0 htok
          have h0' : 0 ∉ s' := fun h => h0 (hsuf.subset h)
          rw [hround]
          split_ifs with hmax
          · trivial
          · have hold : ∀ x ∈ (ret.push w).strings, x ∈ ret.strings ∨ Placed s x := by
              intro x hx
              rcases strings_push hx with hx | rfl
              · exact .inl hx
              · exact .inr hplaced
            refine (Yields.after [.word w.text] hsuf (by rw [htok, htok']; rfl)
              ((parseredirs_yields _ (ret.push w) h0' (lt_succ_self _)).bind ?_)).mono hold
              fun _ _ h => h
            rintro ret' s'' hsuf' ts ⟨rs', hrs', hret'⟩ -
            have hle := hsuf'.length_le
            have hshape : ret'.map Span.text = wrap (.exec (ws ++ [w.text])) (rs ++ rs') := by
              rw [hret', map_push, hret, push_wrap, wrap_append]
              rfl
            refine (ih (fun h => h0' (hsuf'.subset h)) (by omega) (by simp [hargc]) (by omega)
              hshape).mono (fun x hx => .inl (mem_append_right _ hx)) ?_
            rintro us' t' ⟨ws'', rs'', hargs, hlen', rfl⟩
            have hcons := Args.cons (w := w.text) hrs' hargs
            exact ⟨w.text :: ws'', rs' ++ rs'', hcons, by simpa using hlen', by simp⟩
        · rw [parseargs_other fuel argc ret h0 htok (fun x hx => hword ⟨x, hx⟩) hleads]
          trivial

theorem parsebacks_yields (fuel : ℕ) (cmd : Cmd Span) (h0 : 0 ∉ s) (hfuel : s.length < fuel) :
    Yields s cmd.strings
      (fun ts t => ∃ n, ts = replicate n .amp ∧ t = Cmd.back^[n] (cmd.map Span.text))
      (parsebacks fuel cmd s) := by
  induction fuel generalizing s cmd with
  | zero => omega
  | succ fuel ih =>
    rcases peek_symbol .amp h0 with ⟨us, w, s', htok, hpeek, hget, hsuf, hlt, htok'⟩ | ⟨-, hpeek⟩
    · simp only [parsebacks, hpeek, hget]
      apply Yields.after [.amp] hsuf (by rw [htok, htok']; rfl)
      refine (ih (.back cmd) (fun h => h0 (hsuf.subset h)) (by omega)).mono (fun _ => .inl) ?_
      rintro ts t ⟨n, rfl, rfl⟩
      exact ⟨n + 1, rfl, rfl⟩
    · simp only [parsebacks, hpeek]
      exact ⟨skip_suffix s, fun w hw => .inl hw, [], (tokens_skip s).symm, 0, rfl, rfl⟩

section Nested

variable {pl : Text → Parse} {n : ℕ}
  (hline : ∀ s : Text, 0 ∉ s → s.length < n → Yields s [] (Derives .line) (pl s))

include hline

theorem parseblock_yields (h0 : 0 ∉ s) (hn : s.length ≤ n) :
    Yields s [] (Derives .exec) (parseblock pl s) := by
  rcases peek_symbol .lparen h0 with ⟨us, w, s1, htok, hpeek, hget, hsuf, hlt, htok1⟩ | ⟨-, hpeek⟩
  · simp only [parseblock, hpeek, hget]
    have h01 : 0 ∉ s1 := fun h => h0 (hsuf.subset h)
    apply Yields.after [.lparen] hsuf (by rw [htok, htok1]; rfl)
    apply (hline s1 h01 (by omega)).bind
    intro cmd s2 hsuf2 ts hcmd _
    have h02 : 0 ∉ s2 := fun h => h01 (hsuf2.subset h)
    rcases peek_symbol .rparen h02 with ⟨us2, w2, s3, htok2, hpeek2, hget2, hsuf3, hlt3, htok3⟩ |
      ⟨-, hpeek2⟩
    · simp only [hpeek2, hget2]
      apply Yields.after [.rparen] hsuf3 (by rw [htok2, htok3]; rfl)
      apply (parseredirs_yields _ cmd (fun h => h02 (hsuf3.subset h)) (lt_succ_self _)).mono
      · exact fun w hw => .inl (by simpa using hw)
      · rintro us' t ⟨rs, hrs, rfl⟩
        simpa using Derives.block hcmd hrs
    · simp only [hpeek2]
      trivial
  · simp only [parseblock, hpeek]
    trivial

theorem parseexec_yields (h0 : 0 ∉ s) (hn : s.length ≤ n) :
    Yields s [] (Derives .exec) (parseexec pl s) := by
  have hsuf := skip_suffix s
  have h0' : 0 ∉ skip s := fun h => h0 (hsuf.subset h)
  have hle := hsuf.length_le
  rcases peek_symbol .lparen h0 with ⟨-, -, -, -, hpeek, -⟩ | ⟨-, hpeek⟩
  · simp only [parseexec, hpeek]
    exact Yields.after [] hsuf (tokens_skip s).symm (parseblock_yields hline h0' (by omega))
  · simp only [parseexec, hpeek]
    apply Yields.after [] hsuf (tokens_skip s).symm
    apply (parseredirs_yields _ (.exec []) h0' (lt_succ_self _)).bind
    rintro ret s2 hsuf2 ts ⟨rs, hrs, hret⟩ -
    refine (parseargs_yields _ (fun h => h0' (hsuf2.subset h)) (lt_succ_self _) rfl
      (by decide) hret).mono (fun w hw => .inl (mem_append_right _ hw)) ?_
    rintro us t ⟨ws, rs', hargs, hlen, rfl⟩
    simpa using Derives.words hrs hargs (by simpa using hlen)

theorem parsepipe_yields (fuel : ℕ) (h0 : 0 ∉ s) (hn : s.length ≤ n) (hfuel : s.length < fuel) :
    Yields s [] (Derives .pipe) (parsepipe pl fuel s) := by
  induction fuel generalizing s with
  | zero => omega
  | succ fuel ih =>
    apply (parseexec_yields hline h0 hn).bind
    intro cmd s1 hsuf1 ts hcmd _
    have h01 : 0 ∉ s1 := fun h => h0 (hsuf1.subset h)
    have hle := hsuf1.length_le
    rcases peek_symbol .bar h01 with ⟨us, w, s2, htok, hpeek, hget, hsuf, hlt, htok2⟩ | ⟨-, hpeek⟩
    · simp only [hpeek, hget]
      apply Yields.after [.bar] hsuf (by rw [htok, htok2]; rfl)
      refine Yields.bind ((ih (fun h => h01 (hsuf.subset h)) (by omega) (by omega)).mono
        (fun _ => nofun) fun _ _ h => h) ?_
      intro right s3 hsuf3 us' hright _
      refine ⟨suffix_rfl, fun w hw => .inl (by simpa [Cmd.strings] using hw), [], rfl, ?_⟩
      simpa [Cmd.map] using Derives.bar hcmd hright
    · simp only [hpeek]
      refine ⟨skip_suffix s1, fun w hw => .inl (by simpa using hw), [], (tokens_skip s1).symm, ?_⟩
      simpa using Derives.pipe hcmd

end Nested

theorem parseline_yields (fuel : ℕ) (h0 : 0 ∉ s) (hfuel : s.length < fuel) :
    Yields s [] (Derives .line) (parseline fuel s) := by
  induction fuel generalizing s with
  | zero => omega
  | succ fuel ih =>
    apply (parsepipe_yields (fun s h0 h => ih h0 h) _ h0 (by omega) (lt_succ_self _)).bind
    intro cmd s1 hsuf1 ts hcmd _
    have h01 : 0 ∉ s1 := fun h => h0 (hsuf1.subset h)
    have hle := hsuf1.length_le
    apply (parsebacks_yields _ cmd h01 (lt_succ_self _)).bind
    rintro cmd' s2 hsuf2 - ⟨k, rfl, hcmd'⟩ -
    have h02 : 0 ∉ s2 := fun h => h01 (hsuf2.subset h)
    have hle2 := hsuf2.length_le
    rcases peek_symbol .semi h02 with ⟨us, w, s3, htok, hpeek, hget, hsuf, hlt, htok3⟩ | ⟨-, hpeek⟩
    · simp only [hpeek, hget]
      apply Yields.after [.semi] hsuf (by rw [htok, htok3]; rfl)
      refine Yields.bind ((ih (fun h => h02 (hsuf.subset h)) (by omega)).mono
        (fun _ => nofun) fun _ _ h => h) ?_
      intro right s4 hsuf4 us' hright _
      refine ⟨suffix_rfl, fun w hw => .inl (by simp_all [Cmd.strings]), [], rfl, ?_⟩
      simpa [Cmd.map, hcmd'] using Derives.seq k hcmd hright
    · simp only [hpeek]
      refine ⟨skip_suffix s2, fun w hw => .inl (by simp_all), [], (tokens_skip s2).symm, ?_⟩
      simpa [hcmd'] using Derives.line k hcmd

end Yields

/-! ### What derives from the grammar is accepted -/

def Returns (s : Text) (us : List Token) (t : Cmd Text) (p : Parse) : Prop :=
  ∃ cmd s', p = .ok (cmd, s') ∧ s' <:+ s ∧ tokens s' = us ∧ cmd.map Span.text = t

def Ends (us stop : List Token) : Prop :=
  us = [] ∨ ∃ t ∈ stop, ∃ us', us = t :: us'

variable {ts' : List Token}

section Returns

variable {stop stop' : List Token}

theorem Ends.mono (h : Ends us stop) (hsub : stop ⊆ stop') : Ends us stop' := by
  rcases h with rfl | ⟨t, ht, us', rfl⟩
  · exact .inl rfl
  · exact .inr ⟨t, hsub ht, us', rfl⟩

theorem Ends.cons (ht : t ∈ stop) (us : List Token) : Ends (t :: us) stop := .inr ⟨t, ht, us, rfl⟩

theorem Ends.ne (h : Ends us stop) (ht : t ∉ stop) (us' : List Token) : us ≠ t :: us' := by
  rintro rfl
  rcases h with h | ⟨t', ht', us'', h⟩
  · exact nomatch h
  · obtain ⟨rfl, -⟩ := cons.inj h
    exact ht ht'

def execStop : List Token := [.bar, .rparen, .amp, .semi]

theorem Ends.leads_redir (h : Ends us execStop) : leads us ['<', '>'] = false := by
  rcases h with rfl | ⟨t, ht, us', rfl⟩
  · rfl
  · have hall : ∀ t ∈ execStop, t.redir = none := by decide
    simp [Shell.leads_redir, hall t ht]

theorem Ends.stops (h : Ends us execStop) :
    us = [] ∨ leads us ['|', ')', '&', ';'] = true := by
  rcases h with rfl | ⟨t, ht, us', rfl⟩
  · exact .inl rfl
  · have hall : ∀ t ∈ execStop, t.lead.any (· ∈ ['|', ')', '&', ';'].map Char.toUInt8) = true := by
      decide
    exact .inr (hall t ht)

theorem Returns.after {p : Parse} {cmd : Cmd Text} (hsuf : s' <:+ s) (h : Returns s' us cmd p) :
    Returns s us cmd p := by
  obtain ⟨c, s'', hp, hsuf', htok, hc⟩ := h
  exact ⟨c, s'', hp, hsuf'.trans hsuf, htok, hc⟩

theorem Returns.bind {p : Parse} {cmd cmd' : Cmd Text} (h : Returns s us cmd p) {us' : List Token}
    (hk : ∀ c s', s' <:+ s → tokens s' = us → c.map Span.text = cmd →
      Returns s' us' cmd' (k (c, s'))) : Returns s us' cmd' (p.bind k) := by
  obtain ⟨c, s', rfl, hsuf, htok, hc⟩ := h
  exact (hk c s' hsuf htok hc).after hsuf

theorem parseredirs_returns (h : Redirs ts rs) (fuel : ℕ)
    (cmd : Cmd Span) (h0 : 0 ∉ s) (htok : tokens s = ts ++ us)
    (hstop : leads us ['<', '>'] = false) (hfuel : s.length < fuel) :
    Returns s us (wrap (cmd.map Span.text) rs) (parseredirs fuel cmd s) := by
  induction h generalizing s cmd fuel with
  | nil =>
    obtain ⟨fuel, rfl⟩ := exists_eq_add_one_of_ne_zero (ne_zero_of_lt hfuel)
    rw [nil_append] at htok
    rw [parseredirs_stop fuel cmd h0 (by rw [htok]; exact hstop)]
    exact ⟨cmd, skip s, rfl, skip_suffix s, (tokens_skip s).trans htok, rfl⟩
  | @cons t k w ts rs hk _ ih =>
    obtain ⟨fuel, rfl⟩ := exists_eq_add_one_of_ne_zero (ne_zero_of_lt hfuel)
    rcases parseredirs_round fuel cmd h0 hk htok with
      ⟨w', us', file, s', hus, htok', hsuf, hlt, rfl, -, hround⟩ | ⟨hne, -⟩
    · obtain ⟨hw, rfl⟩ := cons.inj hus
      obtain rfl := Token.word.inj hw
      rw [hround]
      exact (ih fuel (.redir cmd file k) (fun h => h0 (hsuf.subset h)) htok' (by omega)).after hsuf
    · exact absurd rfl (hne w _)

theorem Args.leads_redir (h : Args ts ws rs)
    (hstop : leads us ['<', '>'] = false) : leads (ts ++ us) ['<', '>'] = false := by
  cases h with
  | nil => exact hstop
  | cons => rfl

theorem parseargs_returns {ws ws' : List Text} {rs rs' : List Redirection} (h : Args ts ws' rs')
    (fuel : ℕ) {argc : ℕ} (h0 : 0 ∉ s) (htok : tokens s = ts ++ us)
    (hstop : Ends us execStop) (hfuel : s.length < fuel) (hargc : ws.length = argc)
    (hlen : (ws ++ ws').length < MAXARGS) (hret : ret.map Span.text = wrap (.exec ws) rs) :
    Returns s us (wrap (.exec (ws ++ ws')) (rs ++ rs')) (parseargs fuel argc ret s) := by
  induction h generalizing s fuel argc ret ws rs with
  | nil =>
    obtain ⟨fuel, rfl⟩ := exists_eq_add_one_of_ne_zero (ne_zero_of_lt hfuel)
    rw [nil_append] at htok
    obtain ⟨s', hargs, hsuf, htok'⟩ := parseargs_stop fuel argc ret h0 (htok ▸ hstop.stops)
    exact ⟨ret, s', hargs, hsuf, htok'.trans htok, by simpa using hret⟩
  | @cons w ts ts' ws' rs' rs'' hredirs hargs ih =>
    obtain ⟨fuel, rfl⟩ := exists_eq_add_one_of_ne_zero (ne_zero_of_lt hfuel)
    rw [cons_append, append_assoc] at htok
    obtain ⟨span, s', htok', hsuf, hlt, rfl, -, hround⟩ :=
      parseargs_word fuel argc ret h0 htok
    have h0' : 0 ∉ s' := fun h => h0 (hsuf.subset h)
    rw [length_append, length_cons] at hlen
    rw [hround, if_neg (by omega)]
    refine Returns.after hsuf (Returns.bind (parseredirs_returns hredirs _ (ret.push span) h0'
      htok' (hargs.leads_redir hstop.leads_redir) (lt_succ_self _)) ?_)
    intro ret' s'' hsuf' htok'' hret'
    have hle := hsuf'.length_le
    have hshape : ret'.map Span.text = wrap (.exec (ws ++ [span.text])) (rs ++ rs') := by
      rw [hret', map_push, hret, push_wrap, wrap_append]
      rfl
    have hrest := ih fuel (fun h => h0' (hsuf'.subset h)) htok'' (by omega)
      (by simp [hargc] : (ws ++ [span.text]).length = argc + 1) (by simp; omega) hshape
    simpa using hrest

theorem parsebacks_returns (n : ℕ) (fuel : ℕ) (cmd : Cmd Span) (h0 : 0 ∉ s)
    (htok : tokens s = replicate n .amp ++ us) (hstop : ∀ us', us ≠ .amp :: us')
    (hfuel : s.length < fuel) :
    Returns s us (Cmd.back^[n] (cmd.map Span.text)) (parsebacks fuel cmd s) := by
  induction n generalizing s cmd fuel with
  | zero =>
    obtain ⟨fuel, rfl⟩ := exists_eq_add_one_of_ne_zero (ne_zero_of_lt hfuel)
    have hpeek := peek_absent .amp h0 fun us' h => hstop us' (htok.symm.trans h)
    simp only [parsebacks, hpeek]
    exact ⟨cmd, skip s, rfl, skip_suffix s, (tokens_skip s).trans htok, rfl⟩
  | succ n ih =>
    obtain ⟨fuel, rfl⟩ := exists_eq_add_one_of_ne_zero (ne_zero_of_lt hfuel)
    obtain ⟨w, s', hpeek, hget, hsuf, hlt, hus⟩ := peek_present .amp h0 htok
    simp only [parsebacks, hpeek, hget]
    exact (ih fuel (.back cmd) (fun h => h0 (hsuf.subset h)) hus (by omega)).after hsuf

/-- What the parser of a nonterminal does with tokens that derive from it, when they are followed
by something that cannot continue them. -/
def Accepts : Nonterminal → List Token → Cmd Text → Prop
  | .line, ts, t => ∀ (s : Text) us fuel, 0 ∉ s → tokens s = ts ++ us → Ends us [.rparen] →
      s.length < fuel → Returns s us t (parseline fuel s)
  | .pipe, ts, t => ∀ (s : Text) us n fuel, 0 ∉ s → tokens s = ts ++ us →
      Ends us [.rparen, .amp, .semi] → s.length ≤ n → s.length < fuel →
      Returns s us t (parsepipe (parseline n) fuel s)
  | .exec, ts, t => ∀ (s : Text) us n, 0 ∉ s → tokens s = ts ++ us → Ends us execStop →
      s.length ≤ n → Returns s us t (parseexec (parseline n) s)

theorem accepts_block {cmd : Cmd Text} (h : Accepts .line ts cmd) (hredirs : Redirs ts' rs) :
    Accepts .exec (.lparen :: ts ++ .rparen :: ts') (wrap cmd rs) := by
  intro s us n h0 htok hends hn
  obtain ⟨-, -, hpeek, -⟩ := peek_present .lparen h0 htok
  -- `parseexec` has looked at the parenthesis, `parseblock` looks at it again
  have hsuf1 := skip_suffix s
  have h01 : 0 ∉ skip s := fun h => h0 (hsuf1.subset h)
  have hle1 := hsuf1.length_le
  have htok1 : tokens (skip s) = .lparen :: (ts ++ .rparen :: (ts' ++ us)) := by
    rw [tokens_skip, htok]
    simp
  obtain ⟨w, s2, hpeek1, hget, hsuf2, hlt2, htok2⟩ := peek_present .lparen h01 htok1
  have h02 : 0 ∉ s2 := fun h => h01 (hsuf2.subset h)
  simp only [parseexec, parseblock, hpeek, hpeek1, hget]
  refine Returns.after (hsuf2.trans hsuf1) (Returns.bind
    (h s2 _ n h02 htok2 (.cons (by decide) _) (by omega)) ?_)
  intro c s3 hsuf3 htok3 hc
  have h03 : 0 ∉ s3 := fun h => h02 (hsuf3.subset h)
  obtain ⟨w', s4, hpeek3, hget3, hsuf4, -, htok4⟩ := peek_present .rparen h03 htok3
  simp only [hpeek3, hget3]
  rw [← hc]
  exact (parseredirs_returns hredirs _ c (fun h => h03 (hsuf4.subset h)) htok4
    hends.leads_redir (lt_succ_self _)).after hsuf4

theorem ne_lparen {rs rs' : List Redirection}
    (hredirs : Redirs ts rs) (hargs : Args ts' ws rs') (hends : Ends us execStop)
    (us' : List Token) : ts ++ ts' ++ us ≠ .lparen :: us' := by
  intro h
  cases hredirs with
  | cons hk =>
    obtain ⟨rfl, -⟩ := cons.inj h
    exact nomatch hk
  | nil =>
    cases hargs with
    | cons => exact nomatch (cons.inj h).1
    | nil => exact hends.ne (by decide) us' h

theorem accepts_words {rs rs' : List Redirection}
    (hredirs : Redirs ts rs) (hargs : Args ts' ws rs') (hlen : ws.length < MAXARGS) :
    Accepts .exec (ts ++ ts') (wrap (.exec ws) (rs ++ rs')) := by
  intro s us n h0 htok hends hn
  have hpeek := peek_absent .lparen h0 fun us' h =>
    ne_lparen hredirs hargs hends us' (htok.symm.trans h)
  have hsuf := skip_suffix s
  have h01 : 0 ∉ skip s := fun h => h0 (hsuf.subset h)
  have htok1 : tokens (skip s) = ts ++ (ts' ++ us) := by
    rw [tokens_skip, htok, append_assoc]
  simp only [parseexec, hpeek]
  refine Returns.after hsuf (Returns.bind (parseredirs_returns hredirs _ (.exec []) h01 htok1
    (hargs.leads_redir hends.leads_redir) (lt_succ_self _)) ?_)
  intro ret s2 hsuf2 htok2 hret
  have h02 : 0 ∉ s2 := fun h => h01 (hsuf2.subset h)
  exact parseargs_returns hargs _ h02 htok2 hends (lt_succ_self _)
    (rfl : ([] : List Text).length = 0) hlen hret

theorem accepts_pipe {cmd : Cmd Text} (h : Accepts .exec ts cmd) : Accepts .pipe ts cmd := by
  intro s us n fuel h0 htok hends hn hfuel
  obtain ⟨fuel, rfl⟩ := exists_eq_add_one_of_ne_zero (ne_zero_of_lt hfuel)
  refine Returns.bind (h s us n h0 htok (hends.mono (by decide)) hn) ?_
  intro c s1 hsuf1 htok1 hc
  have hpeek := peek_absent .bar (s := s1) (fun h => h0 (hsuf1.subset h))
    fun us' h => hends.ne (by decide) us' (htok1.symm.trans h)
  simp only [hpeek]
  exact ⟨c, skip s1, rfl, skip_suffix s1, (tokens_skip s1).trans htok1, hc⟩

theorem accepts_bar {cmd right : Cmd Text} (h : Accepts .exec ts cmd)
    (hright : Accepts .pipe ts' right) : Accepts .pipe (ts ++ .bar :: ts') (.pipe cmd right) := by
  intro s us n fuel h0 htok hends hn hfuel
  obtain ⟨fuel, rfl⟩ := exists_eq_add_one_of_ne_zero (ne_zero_of_lt hfuel)
  rw [append_assoc] at htok
  refine Returns.bind (h s _ n h0 htok (.cons (by decide) _) hn) ?_
  intro c s1 hsuf1 htok1 hc
  have hle1 := hsuf1.length_le
  have h01 : 0 ∉ s1 := fun h => h0 (hsuf1.subset h)
  obtain ⟨w, s2, hpeek, hget, hsuf2, hlt2, htok2⟩ := peek_present .bar h01 htok1
  simp only [hpeek, hget]
  refine Returns.after hsuf2 (Returns.bind (hright s2 us n fuel (fun h => h01 (hsuf2.subset h))
    htok2 hends (by omega) (by omega)) ?_)
  intro r s3 hsuf3 htok3 hr
  exact ⟨.pipe c r, s3, rfl, suffix_rfl, htok3, by rw [Cmd.map, hc, hr]⟩

theorem Ends.amps (h : Ends us stop) (hsub : .amp :: stop ⊆ stop') (k : ℕ) :
    Ends (replicate k .amp ++ us) stop' := by
  cases k with
  | zero => exact h.mono fun t ht => hsub (mem_cons_of_mem _ ht)
  | succ k => exact .cons (hsub mem_cons_self) _

theorem backs_returns {cmd : Cmd Text} (k : ℕ) (h : Accepts .pipe ts cmd) (fuel : ℕ) (h0 : 0 ∉ s)
    (htok : tokens s = ts ++ replicate k .amp ++ us) (hends : Ends us [.rparen, .semi])
    (hfuel : s.length ≤ fuel) :
    Returns s us (Cmd.back^[k] cmd) ((parsepipe (parseline fuel) (s.length + 1) s).bind
      fun r => parsebacks (r.2.length + 1) r.1 r.2) := by
  rw [append_assoc] at htok
  refine Returns.bind (h s _ fuel _ h0 htok (hends.amps (by decide) k) hfuel
    (lt_succ_self _)) ?_
  intro c s1 hsuf1 htok1 hc
  rw [← hc]
  exact parsebacks_returns k _ c (fun h => h0 (hsuf1.subset h)) htok1
    (fun us' => hends.ne (by decide) us') (lt_succ_self _)

theorem parseline_succ (fuel : ℕ) (s : Text) : parseline (fuel + 1) s =
    ((parsepipe (parseline fuel) (s.length + 1) s).bind
      fun r => parsebacks (r.2.length + 1) r.1 r.2).bind fun r =>
        if (peek r.2 [';']).1 = false then .ok (r.1, (peek r.2 [';']).2)
        else (parseline fuel (gettoken (peek r.2 [';']).2).2.2).bind
          fun right => .ok (.list r.1 right.1, right.2) := by
  rw [parseline]
  cases parsepipe (parseline fuel) (s.length + 1) s with
  | error e => rfl
  | ok r =>
    cases hbacks : parsebacks (r.2.length + 1) r.1 r.2 with
    | error e => simp only [Except.bind, bind, hbacks]
    | ok r' => simp [Except.bind, bind, hbacks]

theorem accepts_line {cmd : Cmd Text} (k : ℕ) (h : Accepts .pipe ts cmd) :
    Accepts .line (ts ++ replicate k .amp) (Cmd.back^[k] cmd) := by
  intro s us fuel h0 htok hends hfuel
  obtain ⟨fuel, rfl⟩ := exists_eq_add_one_of_ne_zero (ne_zero_of_lt hfuel)
  rw [parseline_succ]
  refine Returns.bind (backs_returns k h fuel h0 htok (hends.mono (by decide)) (by omega)) ?_
  intro c s1 hsuf1 htok1 hc
  have hpeek := peek_absent .semi (s := s1) (fun h => h0 (hsuf1.subset h))
    fun us' h => hends.ne (by decide) us' (htok1.symm.trans h)
  simp only [hpeek, if_true]
  exact ⟨c, skip s1, rfl, skip_suffix s1, (tokens_skip s1).trans htok1, hc⟩

theorem accepts_seq {cmd right : Cmd Text} (k : ℕ) (h : Accepts .pipe ts cmd)
    (hright : Accepts .line ts' right) : Accepts .line (ts ++ replicate k .amp ++ .semi :: ts')
      (.list (Cmd.back^[k] cmd) right) := by
  intro s us fuel h0 htok hends hfuel
  obtain ⟨fuel, rfl⟩ := exists_eq_add_one_of_ne_zero (ne_zero_of_lt hfuel)
  rw [append_assoc (ts ++ _)] at htok
  rw [parseline_succ]
  refine Returns.bind (backs_returns k h fuel h0 htok (.cons (by decide) _) (by omega)) ?_
  intro c s1 hsuf1 htok1 hc
  have hle1 := hsuf1.length_le
  have h01 : 0 ∉ s1 := fun h => h0 (hsuf1.subset h)
  obtain ⟨w, s2, hpeek, hget, hsuf2, hlt2, htok2⟩ := peek_present .semi h01 htok1
  simp only [hpeek, hget, Bool.true_eq_false, if_false]
  refine Returns.after hsuf2 (Returns.bind (hright s2 us fuel (fun h => h01 (hsuf2.subset h))
    htok2 hends (by omega)) ?_)
  intro r s3 hsuf3 htok3 hr
  exact ⟨.list c r, s3, rfl, suffix_rfl, htok3, by rw [Cmd.map, hc, hr]⟩

theorem Derives.accepts {nt : Nonterminal} {cmd : Cmd Text} (h : Derives nt ts cmd) :
    Accepts nt ts cmd := by
  induction h with
  | line n _ ih => exact accepts_line n ih
  | seq n _ _ ih ihr => exact accepts_seq n ih ihr
  | pipe _ ih => exact accepts_pipe ih
  | bar _ _ ih ihr => exact accepts_bar ih ihr
  | block _ hredirs ih => exact accepts_block ih hredirs
  | words hredirs hargs hlen => exact accepts_words hredirs hargs hlen

end Returns

/-! ### The strings of the tree -/

theorem nulterminate_eq (cmd : Cmd Span) :
    nulterminate cmd = cmd.strings.map fun w => w.eq.length := by
  induction cmd with
  | exec argv => rfl
  | redir cmd file kind ih => simp [nulterminate, Cmd.strings, ih]
  | pipe left right ihl ihr => simp [nulterminate, Cmd.strings, ihl, ihr]
  | list left right ihl ihr => simp [nulterminate, Cmd.strings, ihl, ihr]
  | back cmd ih => exact ih

theorem map_congr {α β : Type} {f g : α → β} {cmd : Cmd α} (h : ∀ w ∈ cmd.strings, f w = g w) :
    cmd.map f = cmd.map g := by
  induction cmd with
  | exec argv => exact congrArg Cmd.exec (map_congr_left h)
  | redir cmd file kind ih =>
    rw [Cmd.map, Cmd.map, ih fun w hw => h w (mem_append_left _ hw),
      h file (mem_append_right _ mem_cons_self)]
  | pipe left right ihl ihr | list left right ihl ihr =>
    rw [Cmd.map, Cmd.map, ihl fun w hw => h w (mem_append_left _ hw),
      ihr fun w hw => h w (mem_append_right _ hw)]
  | back cmd ih => rw [Cmd.map, Cmd.map, ih h]

variable {line : Text}

theorem Placed.outside {w v : Span} (hw : Placed line w) (hv : Placed line v) :
    w.eq.length ≤ v.eq.length ∨ v.q.length < w.eq.length := by
  by_contra hin
  obtain ⟨hlt, hle⟩ : v.eq.length < w.eq.length ∧ w.eq.length ≤ v.q.length := by omega
  have hweq : w.eq <:+ line := List.IsSuffix.trans ⟨w.text, hw.split.symm⟩ hw.suffix
  have hveq : v.eq <:+ line := List.IsSuffix.trans ⟨v.text, hv.split.symm⟩ hv.suffix
  obtain ⟨y, hy⟩ := suffix_of_suffix_length_le hveq hweq hlt.le
  obtain ⟨z, hz⟩ := suffix_of_suffix_length_le hweq hv.suffix hle
  have htext : z ++ y = v.text := by
    rw [hv.split, ← hy, ← append_assoc] at hz
    exact append_cancel_right hz
  cases y with
  | nil => simp [← hy] at hlt
  | cons c y =>
    have hfalse := hw.maximal c (by rw [← hy]; rfl)
    rw [hv.word c (by simp [← htext])] at hfalse
    exact nomatch hfalse

theorem cstring_append {x e : Text} {nuls : List ℕ} (h0 : 0 ∉ x)
    (hnuls : ∀ n ∈ nuls, n ≤ e.length ∨ (x ++ e).length < n) (he : e.length ∈ nuls) :
    cstring nuls (x ++ e) = x := by
  induction x with
  | nil =>
    cases e with
    | nil => rfl
    | cons c e => exact if_pos (.inr he)
  | cons c x ih =>
    simp only [mem_cons, not_or, cons_append, length_cons, length_append] at *
    have hc : ¬(c = 0 ∨ (x ++ e).length + 1 ∈ nuls) := by
      rintro (rfl | hmem)
      · exact h0.1 rfl
      · have := hnuls _ hmem
        rw [length_append] at this
        omega
    rw [cstring, if_neg hc, ih h0.2 fun n hn => ?_]
    have := hnuls n hn
    omega

theorem mem_nulterminate {cmd : Cmd Span} {n : ℕ} :
    n ∈ nulterminate cmd ↔ ∃ w ∈ cmd.strings, w.eq.length = n := by
  rw [nulterminate_eq, mem_map]

theorem cstring_eq_text {cmd : Cmd Span} (h0 : 0 ∉ line)
    (hcmd : ∀ w ∈ cmd.strings, Placed line w) {w : Span} (hw : w ∈ cmd.strings) :
    cstring (nulterminate cmd) w.q = w.text := by
  have hplaced := hcmd w hw
  have h0w : 0 ∉ w.text := fun h => h0 (hplaced.suffix.subset (by
    rw [hplaced.split]
    exact mem_append_left _ h))
  have hsplit := hplaced.split
  rw [hsplit]
  apply cstring_append h0w
  · intro n hn
    obtain ⟨v, hv, rfl⟩ := mem_nulterminate.mp hn
    rw [← hsplit]
    exact (hcmd v hv).outside hplaced
  · exact mem_nulterminate.mpr ⟨w, hw, rfl⟩

theorem parsecmd_cases (h0 : 0 ∉ line) :
    (∃ cmd s, parseline (line.length + 1) line = .ok (cmd, s) ∧ tokens s = [] ∧
      (∀ w ∈ cmd.strings, Placed line w) ∧ Derives .line (tokens line) (cmd.map Span.text) ∧
      parsecmd line = .ok (cmd.map Span.text)) ∨ ∃ msg, parsecmd line = .error (.panic msg) ∧
      ∀ cmd s, parseline (line.length + 1) line = .ok (cmd, s) → tokens s ≠ [] := by
  have hyields := parseline_yields (line.length + 1) h0 (lt_succ_self _)
  match hrun : parseline (line.length + 1) line, hyields with
  | .ok (cmd, s), ⟨hsuf, hstr, ts, htok, hd⟩ =>
    have h0s : 0 ∉ s := fun h => h0 (hsuf.subset h)
    by_cases hs : skip s = []
    · have hnil := (skip_eq_nil_iff h0s).mp hs
      have hplaced : ∀ w ∈ cmd.strings, Placed line w := fun w hw => (hstr w hw).resolve_left nofun
      have hcstr := map_congr fun w hw => cstring_eq_text h0 hplaced hw
      refine .inl ⟨cmd, s, rfl, hnil, hplaced, by rwa [htok, hnil, append_nil], ?_⟩
      simp [parsecmd, hrun, bind, Except.bind, peek, hs, hcstr]
    · refine .inr ⟨"syntax", ?_, ?_⟩
      · simp [parsecmd, hrun, bind, Except.bind, peek, hs]
      · rintro cmd' s' ⟨⟩ hnil
        exact hs ((skip_eq_nil_iff h0s).mpr hnil)
  | .error (.panic msg), _ =>
    refine .inr ⟨msg, ?_, nofun⟩
    simp [parsecmd, hrun, bind, Except.bind]

theorem parsecmd_of_derives {t : Cmd Text} (h0 : 0 ∉ line)
    (h : Derives .line (tokens line) t) : parsecmd line = .ok t := by
  obtain ⟨cmd, s, hrun, -, hnil, rfl⟩ :=
    h.accepts line [] _ h0 (append_nil _).symm (.inl rfl) (lt_succ_self _)
  rcases parsecmd_cases h0 with ⟨cmd', s', hrun', -, -, -, hparse⟩ | ⟨msg, -, hne⟩
  · rw [hrun] at hrun'
    cases hrun'
    exact hparse
  · exact absurd hnil (hne cmd s hrun)

/-- On a line without NUL bytes `parsecmd` returns a tree or panics, and it returns exactly the
tree the grammar derives from the tokens of the line. -/
theorem parsecmd_derives (line : Text) (h0 : 0 ∉ line) :
    ((∃ t, parsecmd line = .ok t) ∨ ∃ msg, parsecmd line = .error (.panic msg)) ∧
      ∀ t, parsecmd line = .ok t ↔ Derives .line (tokens line) t := by
  rcases parsecmd_cases h0 with ⟨cmd, s, -, -, -, hd, hparse⟩ | ⟨msg, hparse, -⟩
  · refine ⟨.inl ⟨_, hparse⟩, fun t => ⟨fun h => ?_, parsecmd_of_derives h0⟩⟩
    rw [hparse] at h
    obtain rfl := Except.ok.inj h
    exact hd
  · refine ⟨.inr ⟨msg, hparse⟩, fun t => ⟨fun h => ?_, parsecmd_of_derives h0⟩⟩
    rw [hparse] at h
    exact nomatch h

def sampleLine : Text := "ls<a b|(wc)>>f&".toList.map Char.toUInt8

def sampleTree : Cmd Text :=
  let str (w : String) : Text := w.toList.map Char.toUInt8
  .back (.pipe (.redir (.exec [str "ls", str "b"]) (str "a") .input)
    (.redir (.exec [str "wc"]) (str "f") .output))

theorem parsecmd_derives_sampleLine :
    0 ∉ sampleLine ∧ parsecmd sampleLine = .ok sampleTree ∧
      Derives .line (tokens sampleLine) sampleTree := by
  have h0 : 0 ∉ sampleLine := by decide
  have hparse : parsecmd sampleLine = .ok sampleTree := by decide +kernel
  exact ⟨h0, hparse, ((parsecmd_derives sampleLine h0).2 sampleTree).mp hparse⟩

/-- The strings of the tree that `parsecmd` returns are the words it was built from, and no NUL
that `nulterminate` stores is outside of the line or inside a word. -/
theorem parsecmd_strings {line : Text} {tree : Cmd Text} (h0 : 0 ∉ line)
    (h : parsecmd line = .ok tree) :
    ∃ cmd s, parseline (line.length + 1) line = .ok (cmd, s) ∧ tree = cmd.map Span.text ∧
      (∀ w ∈ cmd.strings, w.q <:+ line ∧ w.q = w.text ++ w.eq ∧
        cstring (nulterminate cmd) w.q = w.text) ∧
      ∀ n ∈ nulterminate cmd, n ≤ line.length ∧
        ∀ w ∈ cmd.strings, n ≤ w.eq.length ∨ w.q.length < n := by
  rcases parsecmd_cases h0 with ⟨cmd, s, hrun, -, hplaced, -, hparse⟩ | ⟨msg, hparse, -⟩
  · rw [h] at hparse
    refine ⟨cmd, s, hrun, Except.ok.inj hparse, fun w hw => ?_, fun n hn => ?_⟩
    · exact ⟨(hplaced w hw).suffix, (hplaced w hw).split, cstring_eq_text h0 hplaced hw⟩
    · obtain ⟨v, hv, rfl⟩ := mem_nulterminate.mp hn
      have hv := hplaced v hv
      refine ⟨?_, fun w hw => hv.outside (hplaced w hw)⟩
      exact (List.IsSuffix.trans ⟨v.text, hv.split.symm⟩ hv.suffix).length_le
  · rw [h] at hparse
    exact nomatch hparse

theorem parsecmd_strings_sampleLine :
    ∃ cmd s, parseline (sampleLine.length + 1) sampleLine = .ok (cmd, s) ∧
      sampleTree = cmd.map Span.text ∧
      ∀ w ∈ cmd.strings, cstring (nulterminate cmd) w.q = w.text := by
  obtain ⟨cmd, s, hrun, htree, hstr, -⟩ :=
    parsecmd_strings (show 0 ∉ sampleLine by decide)
      (show parsecmd sampleLine = .ok sampleTree by decide +kernel)
  exact ⟨cmd, s, hrun, htree, fun w hw => (hstr w hw).2.2⟩

end Xv6.Shell
