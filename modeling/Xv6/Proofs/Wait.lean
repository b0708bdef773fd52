import Xv6.Proofs.Slots

/-! `exit` and `wait`. Every process but init has a parent that lives, init takes the children of
those that exit, and who sleeps in `wait` has a child to wait for. -/

open Function

namespace Xv6.Ptable

open State

variable {n : ℕ} {C : Type} [DecidableEq C] {s s' : State n C} {c : C} {p q np : Fin n} {i : ℕ}

def Pc.orphans : Pc n → Option (Fin n)
  | .forkStack np => some np
  | .forkCopy np => some np
  | _ => none

def Pc.adopts : Pc n → Option (Fin n)
  | .forkReady np => some np
  | _ => none

def ProcState.settled : ProcState → Bool
  | .unused => false
  | .embryo => false
  | _ => true

structure Family (s : State n C) : Prop where
  init : s.pc s.initproc ≠ .dead
  root : (s.proc s.initproc).parent = none
  self : ∀ q, (s.proc q).parent ≠ some q
  alive : ∀ q r, (s.proc q).parent = some r → s.pc r ≠ .dead
  free : ∀ q, (s.proc q).state = .unused → (s.proc q).parent = none
  orphan : ∀ p q, (s.pc p).orphans = some q → (s.proc q).parent = none
  adopted : ∀ p q, (s.pc p).adopts = some q → (s.proc q).parent = some p
  settled : ∀ q, (s.proc q).state.settled = true → q ≠ s.initproc → (s.proc q).parent ≠ none
  waiting : ∀ p, (s.proc p).state = .sleeping → s.pc p = .waiting →
    (s.proc p).chan = some (.proc p) ∧ (∃ q, (s.proc q).parent = some p) ∧
      ∀ q, (s.proc q).parent = some p → (s.proc q).state ≠ .zombie

structure Quiet (s s' : State n C) : Prop where
  init : s'.initproc = s.initproc
  parent : ∀ q, (s'.proc q).parent = (s.proc q).parent
  alive : ∀ q, s.pc q ≠ .dead → s'.pc q ≠ .dead
  free : ∀ q, (s'.proc q).state = .unused → (s.proc q).state = .unused
  settled : ∀ q, (s'.proc q).state.settled = true → (s.proc q).state.settled = true
  zombie : ∀ q, (s'.proc q).state = .zombie → (s.proc q).state = .zombie
  orphans : ∀ p q, (s'.pc p).orphans = some q → (s.pc p).orphans = some q
  adopts : ∀ p q, (s'.pc p).adopts = some q → (s.pc p).adopts = some q
  waiting : ∀ p, (s'.proc p).state = .sleeping → s'.pc p = .waiting →
    (s.proc p).state = .sleeping ∧ s.pc p = .waiting ∧ (s'.proc p).chan = (s.proc p).chan

omit [DecidableEq C] in
theorem Family.quiet (h : Family s) (hq : Quiet s s') : Family s' where
  init := by
    rw [hq.init]
    exact hq.alive _ h.init
  root := by
    rw [hq.init, hq.parent]
    exact h.root
  self q := by
    rw [hq.parent]
    exact h.self q
  alive q r hr := hq.alive r (h.alive q r (hq.parent q ▸ hr))
  free q hu := by
    rw [hq.parent]
    exact h.free q (hq.free q hu)
  orphan p q hp := by
    rw [hq.parent]
    exact h.orphan p q (hq.orphans p q hp)
  adopted p q hp := by
    rw [hq.parent]
    exact h.adopted p q (hq.adopts p q hp)
  settled q hs hi := by
    rw [hq.parent]
    exact h.settled q (hq.settled q hs) (hq.init ▸ hi)
  waiting p hs hpc := by
    obtain ⟨hs, hpc, hchan⟩ := hq.waiting p hs hpc
    obtain ⟨hc, ⟨q, hkid⟩, hz⟩ := h.waiting p hs hpc
    refine ⟨hchan.trans hc, ⟨q, (hq.parent q).trans hkid⟩, fun r hr hrz => ?_⟩
    exact hz r (hq.parent r ▸ hr) (hq.zombie r hrz)

theorem settled_of_kin {x y : ProcState} (h : Kin x y) : y.settled = x.settled := by
  rcases h with rfl | ⟨rfl, rfl⟩ <;> rfl

variable {x : Pc n}

theorem alive_update {f : Fin n → Pc n} (hx : x ≠ .dead) {r : Fin n} (hr : f r ≠ .dead) :
    update f p x r ≠ .dead := by
  by_cases hrp : r = p
  · rwa [hrp, update_self]
  · rwa [update_of_ne hrp]

omit [DecidableEq C] in
/-- Only the process `p`, which lives before and after, moves, and sleepers may be woken. -/
theorem quiet_move (hinit : s'.initproc = s.initproc)
    (hpc : s'.pc = update s.pc p x) (hx : x ≠ .dead)
    (hparent : ∀ q, (s'.proc q).parent = (s.proc q).parent)
    (hkin : ∀ q ≠ p, Kin (s.proc q).state (s'.proc q).state)
    (hchan : ∀ q ≠ p, (s'.proc q).chan = (s.proc q).chan)
    (hlive : (s.proc p).state.lifeless = false) (hlive' : (s'.proc p).state.lifeless = false)
    (horphans : ∀ q, x.orphans = some q → (s.pc p).orphans = some q)
    (hadopts : ∀ q, x.adopts = some q → (s.pc p).adopts = some q)
    (hwait : (s'.proc p).state = .sleeping → x ≠ .waiting) : Quiet s s' := by
  have hself : s'.pc p = x := by rw [hpc, update_self]
  have hother : ∀ q ≠ p, s'.pc q = s.pc q := fun q hq => by rw [hpc, update_of_ne hq]
  refine ⟨hinit, hparent, fun q hq => ?_, fun q hq => ?_, fun q hq => ?_, fun q hq => ?_,
    fun r q hr => ?_, fun r q hr => ?_, fun q hs hw => ?_⟩
  · rw [hpc]
    exact alive_update hx hq
  · by_cases hqp : q = p
    · subst hqp
      rw [hq] at hlive'
      cases hlive'
    · exact (hkin q hqp).same (by simp) hq
  · by_cases hqp : q = p
    · subst hqp
      cases hst : (s.proc q).state <;> simp_all [ProcState.lifeless, ProcState.settled]
    · rw [← settled_of_kin (hkin q hqp), hq]
  · by_cases hqp : q = p
    · subst hqp
      rw [hq] at hlive'
      cases hlive'
    · exact (hkin q hqp).same (by simp) hq
  · by_cases hrp : r = p
    · subst hrp
      exact horphans q (hself ▸ hr)
    · exact hother r hrp ▸ hr
  · by_cases hrp : r = p
    · subst hrp
      exact hadopts q (hself ▸ hr)
    · exact hother r hrp ▸ hr
  · by_cases hqp : q = p
    · subst hqp
      exact absurd (hself.symm.trans hw) (hwait hs)
    · exact ⟨(hkin q hqp).sleeping hs, hother q hqp ▸ hw, hchan q hqp⟩

omit [DecidableEq C] in
theorem quiet_rouse (hinit : s'.initproc = s.initproc) (hpc : s'.pc = s.pc)
    (hparent : ∀ q, (s'.proc q).parent = (s.proc q).parent)
    (hkin : ∀ q, Kin (s.proc q).state (s'.proc q).state)
    (hchan : ∀ q, (s'.proc q).chan = (s.proc q).chan) : Quiet s s' := by
  refine ⟨hinit, hparent, fun q hq => hpc ▸ hq, fun q hq => (hkin q).same (by simp) hq, fun q hq => ?_,
    fun q hq => (hkin q).same (by simp) hq, fun r q hr => hpc ▸ hr, fun r q hr => hpc ▸ hr,
    fun q hs hw => ⟨(hkin q).sleeping hs, hpc ▸ hw, hchan q⟩⟩
  rw [← settled_of_kin (hkin q), hq]

omit [DecidableEq C] in
theorem quiet_self {y : Proc n} (hrun : (s.proc p).state = .running)
    (hinit : s'.initproc = s.initproc) (hpc : s'.pc = update s.pc p x) (hx : x ≠ .dead)
    (hproc : s'.proc = update s.proc p y) (hparent : y.parent = (s.proc p).parent)
    (hlive : y.state.lifeless = false) (horphans : ∀ q, x.orphans = some q → (s.pc p).orphans = some q)
    (hadopts : ∀ q, x.adopts = some q → (s.pc p).adopts = some q)
    (hwait : y.state = .sleeping → x ≠ .waiting) : Quiet s s' := by
  have hself : s'.proc p = y := by rw [hproc, update_self]
  have hother : ∀ q ≠ p, s'.proc q = s.proc q := fun q hq => by rw [hproc, update_of_ne hq]
  refine quiet_move (p := p) (x := x) hinit hpc hx (fun q => ?_) (fun q hq => ?_) (fun q hq => ?_) ?_ ?_
    horphans hadopts ?_
  · by_cases hq : q = p
    · rw [hq, hself, hparent]
    · rw [hother q hq]
  · rw [hother q hq]
    exact .inl rfl
  · rw [hother q hq]
  · rw [hrun]
    rfl
  · rwa [hself]
  · rwa [hself]

theorem parent_wakeup1 (t : Fin n → Proc n) (ch : Option (Chan n)) (q : Fin n) :
    (wakeup1 t ch q).parent = (t q).parent ∧ (wakeup1 t ch q).chan = (t q).chan := by
  rcases wakeup1_eq t ch q with h | ⟨-, -, h⟩ <;> rw [h] <;> exact ⟨rfl, rfl⟩

theorem parent_kill (t : Fin n → Proc n) (pid : BitVec 32) (q : Fin n) :
    ((kill t pid).2 q).parent = (t q).parent ∧ ((kill t pid).2 q).chan = (t q).chan := by
  unfold kill
  split
  · next p _ =>
    by_cases hq : q = p
    · subst hq
      simp
    · simp [update_of_ne hq]
  · exact ⟨rfl, rfl⟩

omit [DecidableEq C] in
theorem InWait.quiet {s0 : State n C} (hw : InWait s c p i s0) (h : Sound s) : Quiet s s0 := by
  rcases hw with ⟨-, -, -, rfl⟩ | ⟨hc, hp, rfl⟩
  · exact quiet_rouse rfl rfl (fun _ => rfl) (fun _ => .inl rfl) fun _ => rfl
  · have hproc : (s.cpu c).proc = some p := by rw [hc]; rfl
    have hrun := h.seats.running c p hproc
    exact quiet_self (x := s.pc p) hrun rfl (update_eq_self _ _).symm (h.alive hproc) rfl rfl
      (by simp [hrun, ProcState.lifeless]) (fun _ hq => hq) (fun _ hq => hq) (by simp [hrun])

/-! The steps that change the family. -/

theorem Pc.forking_of (h : x.orphans = some q ∨ x.adopts = some q) : x.forking = some q := by
  cases x <;> simp_all [Pc.orphans, Pc.adopts, Pc.forking]

omit [DecidableEq C] in
/-- The slot `np`, which is not init's, changes without becoming a sleeper or a zombie. Only `p` may
have been filling it, and `p` goes on with it or returns. -/
theorem Family.slot (h : Family s) (hni : np ≠ s.initproc)
    (hinit : s'.initproc = s.initproc) (hother : ∀ q ≠ np, s'.proc q = s.proc q)
    (hx : x = .user ∨ x = .forkStack np ∧ (s'.proc np).parent = none ∨
      x = .forkReady np ∧ (s'.proc np).parent = some p)
    (hpc : ∀ r, s'.pc r = .user ∨ r = p ∧ s'.pc r = x ∨ r ≠ p ∧ s'.pc r = s.pc r)
    (hno : ∀ r ≠ p, (s.pc r).forking ≠ some np)
    (hparent : ∀ r, (s'.proc np).parent = some r → r ≠ np ∧ s.pc r ≠ .dead)
    (hfree : (s'.proc np).state = .unused → (s'.proc np).parent = none)
    (hsettled : (s'.proc np).state.settled = true →
      (s'.proc np).state = .runnable ∧ (s'.proc np).parent ≠ none)
    (hkid : ∀ r, (s.proc r).state = .sleeping → (s.proc np).parent = some r →
      (s'.proc np).parent = some r) : Family s' := by
  have hcases : ∀ q, q = np ∨ s'.proc q = s.proc q := fun q => (eq_or_ne q np).imp_right (hother q)
  have halive : ∀ r, s.pc r ≠ .dead → s'.pc r ≠ .dead := by
    intro r hr
    rcases hpc r with h' | ⟨-, h'⟩ | ⟨-, h'⟩ <;> rw [h']
    · simp
    · rcases hx with rfl | ⟨rfl, -⟩ | ⟨rfl, -⟩ <;> simp
    · exact hr
  have hactive : ∀ {y : ProcState}, (s'.proc np).state = y → y.settled = true → y = .runnable :=
    fun hy hs => hy ▸ (hsettled (hy ▸ hs)).1
  refine ⟨hinit ▸ halive _ h.init, ?_, fun q hq => ?_, fun q r hr => ?_, fun q hq => ?_,
    fun r q hr => ?_, fun r q hr => ?_, fun q hq hi => ?_, fun r hr hw => ?_⟩
  · rw [hinit, hother _ hni.symm]
    exact h.root
  · rcases hcases q with rfl | hq'
    · exact (hparent q hq).1 rfl
    · exact h.self q (hq' ▸ hq)
  · rcases hcases q with rfl | hq'
    · exact halive r (hparent r hr).2
    · exact halive r (h.alive q r (hq' ▸ hr))
  · rcases hcases q with rfl | hq'
    · exact hfree hq
    · rw [hq'] at hq ⊢
      exact h.free q hq
  · rcases hpc r with h' | ⟨-, h'⟩ | ⟨hrp, h'⟩ <;> rw [h'] at hr
    · cases hr
    · rcases hx with rfl | ⟨rfl, hnone⟩ | ⟨rfl, -⟩ <;> cases hr
      exact hnone
    · rw [hother q fun hq => hno r hrp (Pc.forking_of (.inl (hq ▸ hr)))]
      exact h.orphan r q hr
  · rcases hpc r with h' | ⟨rfl, h'⟩ | ⟨hrp, h'⟩ <;> rw [h'] at hr
    · cases hr
    · rcases hx with rfl | ⟨rfl, -⟩ | ⟨rfl, hsome⟩ <;> cases hr
      exact hsome
    · rw [hother q fun hq => hno r hrp (Pc.forking_of (.inr (hq ▸ hr)))]
      exact h.adopted r q hr
  · rcases hcases q with rfl | hq'
    · exact (hsettled hq).2
    · rw [hq'] at hq ⊢
      exact h.settled q hq (hinit ▸ hi)
  · have hold : s.pc r = .waiting := by
      rcases hpc r with h' | ⟨-, h'⟩ | ⟨-, h'⟩ <;> rw [h'] at hw
      · cases hw
      · rcases hx with rfl | ⟨rfl, -⟩ | ⟨rfl, -⟩ <;> cases hw
      · exact hw
    rcases hcases r with rfl | hr'
    · cases hactive hr rfl
    rw [hr'] at hr ⊢
    obtain ⟨hch, ⟨q, hq⟩, hz⟩ := h.waiting r hr hold
    refine ⟨hch, ⟨q, ?_⟩, fun k hk hkz => ?_⟩
    · rcases hcases q with rfl | hq'
      · exact hkid r hr hq
      · rw [hq', hq]
    · rcases hcases k with rfl | hk'
      · cases hactive hkz rfl
      · rw [hk'] at hk hkz
        exact hz k hk hkz

omit [DecidableEq C] in
theorem Sound.fills_alone (hs : Sound s) (hp : s.pc p = x) (hx : x.forking = some np)
    (r : Fin n) (hr : r ≠ p) : (s.pc r).forking ≠ some np := fun h =>
  hr (hs.posts.forkOnce r p np h (by rw [hp, hx]))

theorem pc_cases {f g : Fin n → Pc n} (hg : g = update f p x) (r : Fin n) :
    g r = .user ∨ r = p ∧ g r = x ∨ r ≠ p ∧ g r = f r := by
  subst hg
  by_cases hr : r = p
  · exact .inr (.inl ⟨hr, hr ▸ update_self ..⟩)
  · exact .inr (.inr ⟨hr, update_of_ne hr _ _⟩)

omit [DecidableEq C] in
theorem Family.ne_init (h : Family s) (hs : Sound s) (hq : (s.proc q).state.lifeless = true) :
    q ≠ s.initproc := by
  rintro rfl
  exact h.init ((hs.posts.dead _).mpr hq)

omit [DecidableEq C] in
theorem Family.vacant (h : Family s) {y : Proc n} (hni : np ≠ s.initproc)
    (hinit : s'.initproc = s.initproc) (hpc : s'.pc = update s.pc p x)
    (hx : x = .user ∨ x = .forkStack np) (hproc : s'.proc = update s.proc np y)
    (hnp : (s.proc np).parent = none) (hy : y.parent = none) (hsettled : y.state.settled = false)
    (hno : ∀ r ≠ p, (s.pc r).forking ≠ some np) : Family s' := by
  have hself : s'.proc np = y := by rw [hproc, update_self]
  refine h.slot hni hinit (fun q hq => by rw [hproc, update_of_ne hq])
    (hx.imp_right fun hx => .inl ⟨hx, by rw [hself, hy]⟩) (pc_cases hpc) hno ?_ ?_ ?_ fun r _ hr => ?_
  · simp [hself, hy]
  · simp [hself, hy]
  · simp [hself, hsettled]
  · rw [hnp] at hr
    cases hr

omit [DecidableEq C] in
theorem Family.adopt (h : Family s) (hs : Sound s) (hc : s.cpu c = .runs p i)
    (hp : s.pc p = .forkCopy np) :
    Family ((s.setProc np { s.proc np with parent := some p }).goto p (.forkReady np)) := by
  have hnp := hs.posts.fork p np (by rw [hp]; rfl)
  have hne : p ≠ np := fun e => by
    have hrun := hs.seats.running c p (Sound.proc_of_runs hc)
    rw [e, hnp] at hrun
    cases hrun
  have hself : ((s.setProc np { s.proc np with parent := some p }).goto p (.forkReady np)).proc np =
      { s.proc np with parent := some p } := update_self _ _ _
  refine h.slot (h.ne_init hs (by rw [hnp]; rfl)) rfl (fun q hq => update_of_ne hq _ _)
    (.inr (.inr ⟨rfl, by rw [hself]⟩)) (pc_cases rfl) (hs.fills_alone hp rfl) (fun r hr => ?_) ?_ ?_
    fun r _ hr => ?_
  · rw [hself] at hr
    obtain rfl := Option.some.inj hr
    exact ⟨hne, by simp [hp]⟩
  · simp [hnp]
  · simp [hnp, ProcState.settled]
  · rw [h.orphan p np (by rw [hp]; rfl)] at hr
    cases hr

omit [DecidableEq C] in
theorem Family.birth (h : Family s) (hs : Sound s) (hp : s.pc p = .forkReady np) :
    Family (((s.setProc np { s.proc np with state := .runnable }).goto np .user).goto p .user) := by
  have hnp := hs.posts.fork p np (by rw [hp]; rfl)
  have hpar := h.adopted p np (by rw [hp]; rfl)
  have hself : (((s.setProc np { s.proc np with state := .runnable }).goto np .user).goto p
      .user).proc np = { s.proc np with state := .runnable } := update_self _ _ _
  refine h.slot (p := p) (h.ne_init hs (by rw [hnp]; rfl)) rfl
    (fun q hq => update_of_ne hq _ _) (.inl rfl) (fun r => ?_) (hs.fills_alone hp rfl)
    (fun r hr => ?_) ?_ ?_ fun r _ hr => ?_
  · rcases pc_cases (f := update s.pc np .user) (p := p) rfl r with h' | h' | ⟨hr, h'⟩
    · exact .inl h'
    · exact .inr (.inl h')
    · rcases pc_cases (f := s.pc) (p := np) rfl r with h'' | ⟨-, h''⟩ | ⟨-, h''⟩
      · exact .inl (h'.trans h'')
      · exact .inl (h'.trans h'')
      · exact .inr (.inr ⟨hr, h'.trans h''⟩)
  · rw [hself] at hr
    exact ⟨fun e => h.self np (e ▸ hr), h.alive np r hr⟩
  · simp [hself]
  · simp [hpar]
  · rw [hself]
    exact hr

omit [DecidableEq C] in
theorem Family.reap (h : Family s) (hs : Sound s) (hc : (s.cpu c).proc = some p)
    (hq : (s.proc q).parent = some p) (hz : (s.proc q).state = .zombie) {x : Proc n}
    (hx : x.state = .unused) (hxp : x.parent = none) (hinit : s'.initproc = s.initproc)
    (hproc : s'.proc = update s.proc q x) (hpc : s'.pc = update s.pc p .user) : Family s' := by
  have hself : s'.proc q = x := by rw [hproc, update_self]
  refine h.slot (h.ne_init hs (by rw [hz]; rfl)) hinit
    (fun r hr => by rw [hproc, update_of_ne hr]) (.inl rfl) (pc_cases hpc)
    (fun r _ => hs.forking_ne (by simp [hz]) r) ?_ ?_ ?_ fun r hr hqr => ?_
  · simp [hself, hxp]
  · simp [hself, hxp]
  · simp [hself, hx, ProcState.settled]
  · obtain rfl := Option.some.inj (hq.symm.trans hqr)
    rw [hs.seats.running c p hc] at hr
    cases hr

theorem Family.exit (h : Family s) (hs : Sound s) (hc : s.cpu c = .runs p i) (hp : s.pc p = .user)
    (hinit : p ≠ s.initproc) : Family (s.exit c p i) := by
  have hrun := hs.seats.running c p (Sound.proc_of_runs hc)
  have he := exited s c p i
  have hpcp : (s.exit c p i).pc p = .dead := by simp [State.exit]
  have hpco : ∀ r ≠ p, (s.exit c p i).pc r = s.pc r := fun r hr => by
    simp [State.exit, update_of_ne hr]
  have hparent : ∀ q r, ((s.exit c p i).proc q).parent = some r →
      (s.proc q).parent = some p ∧ r = s.initproc ∨ r ≠ p ∧ (s.proc q).parent = some r := by
    intro q r hr
    rw [he.parent q] at hr
    split_ifs at hr with hq
    · exact .inl ⟨hq, (Option.some.inj hr).symm⟩
    · refine .inr ⟨?_, hr⟩
      rintro rfl
      exact hq hr
  have hnone : ∀ q, ((s.exit c p i).proc q).parent = none ↔ (s.proc q).parent = none := by
    intro q
    rw [he.parent q]
    split_ifs with hq
    · simp [hq]
    · exact Iff.rfl
  refine ⟨?_, ?_, fun q hq => ?_, fun q r hr => ?_, fun q hq => ?_, fun r q hr => ?_, fun r q hr => ?_,
    fun q hq hi => ?_, fun r hr hw => ?_⟩
  · exact (hpco s.initproc hinit.symm).symm ▸ h.init
  · exact (hnone s.initproc).mpr h.root
  · rcases hparent q q hq with ⟨hq', rfl⟩ | ⟨-, hq'⟩
    · rw [h.root] at hq'
      cases hq'
    · exact h.self q hq'
  · rcases hparent q r hr with ⟨-, rfl⟩ | ⟨hrp, hr'⟩
    · rw [hpco _ hinit.symm]
      exact h.init
    · rw [hpco r hrp]
      exact h.alive q r hr'
  · have hqp : q ≠ p := by
      rintro rfl
      rw [he.zombie] at hq
      cases hq
    exact (hnone q).mpr (h.free q (Kin.same (he.state q hqp) (by simp) hq))
  · have hrp : r ≠ p := by
      rintro rfl
      rw [hpcp] at hr
      cases hr
    exact (hnone q).mpr (h.orphan r q (hpco r hrp ▸ hr))
  · have hrp : r ≠ p := by
      rintro rfl
      rw [hpcp] at hr
      cases hr
    have hq := h.adopted r q (hpco r hrp ▸ hr)
    rw [he.parent q, hq]
    simp [hrp]
  · rw [ne_eq, hnone]
    by_cases hqp : q = p
    · subst hqp
      exact h.settled q (by rw [hrun]; rfl) hi
    · exact h.settled q ((settled_of_kin (he.state q hqp)).symm.trans hq) hi
  · have hrp : r ≠ p := by
      rintro rfl
      rw [hpcp] at hw
      cases hw
    have hrs := Kin.sleeping (he.state r hrp) hr
    obtain ⟨hch, ⟨q, hkid⟩, hz⟩ := h.waiting r hrs (hpco r hrp ▸ hw)
    refine ⟨(he.chan r).trans hch, ⟨q, ?_⟩, fun k hk hkz => ?_⟩
    · rw [he.parent q, hkid]
      simp [hrp]
    · rcases hparent k r hk with ⟨hk', rfl⟩ | ⟨-, hk'⟩
      · -- the child of `p` that goes to init is no zombie, or init has been woken
        have hkp : k ≠ p := by
          rintro rfl
          exact h.self k hk'
        have hkz' := Kin.same (he.state k hkp) (by simp) hkz
        exact he.woken k hk' hkz' _ hr hch
      · by_cases hkp : k = p
        · -- the parent of `p` has been woken
          subst hkp
          exact he.told r hk' hr hch
        · exact hz k hk' (Kin.same (he.state k hkp) (by simp) hkz)

theorem Family.await (h : Family s) (hs : Sound s) (hc : (s.cpu c).proc = some p)
    (hkid : ∃ q, (s.proc q).parent = some p)
    (hz : ∀ q, (s.proc q).parent = some p → (s.proc q).state ≠ .zombie) :
    Family (s.fallAsleep c p i (.proc p) .waiting) := by
  have hrun := hs.seats.running c p hc
  set s' := s.fallAsleep c p i (.proc p) .waiting with hs'
  have hother : ∀ r ≠ p, s'.proc r = s.proc r := fun r hr => update_of_ne hr _ _
  have hself : s'.proc p = { s.proc p with chan := some (.proc p), state := .sleeping } :=
    update_self _ _ _
  have hpcp : s'.pc p = .waiting := update_self _ _ _
  have hpco : ∀ r ≠ p, s'.pc r = s.pc r := fun r hr => update_of_ne hr _ _
  have hparent : ∀ r, (s'.proc r).parent = (s.proc r).parent := by
    intro r
    by_cases hr : r = p
    · rw [hr, hself]
    · rw [hother r hr]
  have hstate : ∀ r, (s'.proc r).state = .zombie → (s.proc r).state = .zombie := by
    intro r hr
    by_cases hrp : r = p
    · rw [hrp, hself] at hr
      cases hr
    · rwa [← hother r hrp]
  have halive : ∀ r, s.pc r ≠ .dead → s'.pc r ≠ .dead := fun r hr => alive_update (by simp) hr
  have hmoved : ∀ r, s'.pc r = .waiting ∧ r = p ∨ s'.pc r = s.pc r := by
    intro r
    by_cases hrp : r = p
    · exact .inl ⟨hrp ▸ hpcp, hrp⟩
    · exact .inr (hpco r hrp)
  refine ⟨halive _ h.init, (hparent _).trans h.root, fun q => ?_, fun q r hr => ?_, fun q hq => ?_,
    fun r q hr => ?_, fun r q hr => ?_, fun q hq hi => ?_, fun r hr hw => ?_⟩
  · rw [hparent]
    exact h.self q
  · exact halive r (h.alive q r (hparent q ▸ hr))
  · have hqp : q ≠ p := by
      rintro rfl
      rw [hself] at hq
      cases hq
    rw [hother q hqp] at hq ⊢
    exact h.free q hq
  · rw [hparent]
    rcases hmoved r with ⟨h', -⟩ | h' <;> rw [h'] at hr
    · cases hr
    · exact h.orphan r q hr
  · rw [hparent]
    rcases hmoved r with ⟨h', -⟩ | h' <;> rw [h'] at hr
    · cases hr
    · exact h.adopted r q hr
  · rw [hparent]
    refine h.settled q ?_ hi
    by_cases hqp : q = p
    · rw [hqp, hrun]
      rfl
    · rwa [← hother q hqp]
  · by_cases hrp : r = p
    · subst hrp
      refine ⟨by rw [hself], hkid.imp fun q hq => (hparent q).trans hq, fun q hq hqz => ?_⟩
      exact hz q (hparent q ▸ hq) (hstate q hqz)
    · rw [hother r hrp] at hr ⊢
      obtain ⟨hch, ⟨k, hk⟩, hnz⟩ := h.waiting r hr (hpco r hrp ▸ hw)
      exact ⟨hch, ⟨k, (hparent k).trans hk⟩, fun l hl hlz => hnz l (hparent l ▸ hl) (hstate l hlz)⟩

variable {a : Act n C}

theorem Family.change (hs : Sound s) (h : Family s) (hc : Change s a s') : Family s' := by
  have hlive : ∀ {c p i}, s.cpu c = .runs p i → (s.proc p).state = .running := fun hc =>
    hs.seats.running _ _ (Sound.proc_of_runs hc)
  cases hc with
  | acquire | skip | finish | unlock | full | env =>
    exact h.quiet (quiet_rouse rfl rfl (fun _ => rfl) (fun _ => .inl rfl) fun _ => rfl)
  | switch c i p hc hp =>
    have hpc : s.pc p ≠ .dead := fun hd => by
      have := (hs.posts.dead p).mp hd
      rw [hp] at this
      cases this
    refine h.quiet (quiet_move (p := p) (x := s.pc p) rfl (update_eq_self _ _).symm hpc
      (fun q => ?_) (fun q hq => ?_) (fun q hq => ?_) (by rw [hp]; rfl) (by simp [ProcState.lifeless])
      (fun _ hq => hq) (fun _ hq => hq) (by simp))
    · by_cases hq : q = p
      · subst hq
        simp
      · simp [update_of_ne hq]
    · simp [update_of_ne hq, Kin]
    · simp [update_of_ne hq]
  | awake c p i x hc hp =>
    have hrun := hs.seats.running c p (by rw [hc]; rfl)
    refine h.quiet (quiet_self (x := x) hrun rfl rfl ?_ rfl rfl (by simp [hrun, ProcState.lifeless]) ?_ ?_
      (by simp [hrun]))
    all_goals rcases hp with ⟨-, rfl⟩ | ⟨w, -, rfl⟩ <;> simp [Pc.orphans, Pc.adopts]
  | alloc c p i np hc hp hl hnp =>
    exact h.vacant (h.ne_init hs (by rw [hnp]; rfl)) rfl rfl (.inr rfl) rfl (h.free np hnp)
      (h.free np hnp) rfl fun r _ => hs.forking_ne (by simp [hnp]) r
  | stack c p i np hc hp =>
    exact h.quiet (quiet_self (x := .forkCopy np) (hlive hc) rfl rfl (by simp)
      (update_eq_self _ _).symm rfl (by simp [hlive hc, ProcState.lifeless])
      (by simp [hp, Pc.orphans])
      (by simp [Pc.adopts]) (by simp))
  | unstack c p i np hc hp | uncopy c p i np hc hp =>
    have hnone := h.orphan p np (by rw [hp]; rfl)
    have hnp := hs.posts.fork p np (by rw [hp]; rfl)
    exact h.vacant (h.ne_init hs (by rw [hnp]; rfl)) rfl rfl (.inl rfl) rfl hnone hnone rfl
      (hs.fills_alone hp rfl)
  | copy c p i np hc hp => exact h.adopt hs hc hp
  | ready c p i np hc hp hl =>
    have hb := h.birth hs hp
    exact ⟨hb.init, hb.root, hb.self, hb.alive, hb.free, hb.orphan, hb.adopted, hb.settled, hb.waiting⟩
  | exit c p i hc hp hl hinit => exact h.exit hs hc hp hinit
  | reap c p q i s0 a hw ha hq hz =>
    obtain ⟨h0, hcpu, -, -⟩ := hw.spec hs
    exact (h.quiet (hw.quiet hs)).reap h0 hcpu hq hz rfl rfl rfl rfl rfl
  | childless c p i s0 a hw ha hp =>
    obtain ⟨h0, hcpu, -, -⟩ := hw.spec hs
    have hrun := h0.seats.running c p hcpu
    exact (h.quiet (hw.quiet hs)).quiet (quiet_self (x := .user) hrun rfl rfl (by simp)
      (update_eq_self _ _).symm rfl (by simp [hrun, ProcState.lifeless]) (by simp [Pc.orphans])
      (by simp [Pc.adopts]) (by simp))
  | await c p i s0 a hw ha hk hkid hz =>
    obtain ⟨h0, hcpu, -, -⟩ := hw.spec hs
    exact (h.quiet (hw.quiet hs)).await h0 hcpu hkid hz
  | yield c p i hc hl =>
    exact h.quiet (quiet_self (x := s.pc p) (hlive hc) rfl (update_eq_self _ _).symm
      (hs.alive (Sound.proc_of_runs hc)) rfl rfl rfl (fun _ hq => hq) (fun _ hq => hq) (by simp))
  | sleep c p i k hc hp hl =>
    exact h.quiet (quiet_self (x := .sleptOther) (hlive hc) rfl rfl (by simp) rfl rfl rfl
      (by simp [Pc.orphans]) (by simp [Pc.adopts]) (by simp))
  | sleepOn c p i w hc hp hl =>
    exact h.quiet (quiet_self (x := .slept w) (hlive hc) rfl rfl (by simp) rfl rfl rfl
      (by simp [Pc.orphans]) (by simp [Pc.adopts]) (by simp))
  | wakeup ch hl =>
    exact h.quiet (quiet_rouse rfl rfl (fun q => (parent_wakeup1 _ _ q).1)
      (Kin.of_roused (roused_wakeup1 _ _)) fun q => (parent_wakeup1 _ _ q).2)
  | wake c p i w hc hp hl =>
    have hkin := Kin.of_roused (roused_wakeup1 s.proc (some .nread))
    refine h.quiet (quiet_move (p := p) (x := .toSleep w) rfl rfl (by simp)
      (fun q => (parent_wakeup1 _ _ q).1) (fun q _ => hkin q) (fun q _ => (parent_wakeup1 _ _ q).2)
      (by rw [hlive hc]; rfl) ?_ (by simp [Pc.orphans]) (by simp [Pc.adopts]) (by simp))
    exact (hkin p).lifeless.trans (by rw [hlive hc]; rfl)
  | kill c p i pid hc hp hl =>
    exact h.quiet (quiet_rouse rfl rfl (fun q => (parent_kill _ _ q).1) (kin_kill _ _)
      fun q => (parent_kill _ _ q).2)
  | fault c p i hc hp =>
    exact h.quiet (quiet_self (x := s.pc p) (hlive hc) rfl (update_eq_self _ _).symm
      (hs.alive (Sound.proc_of_runs hc)) rfl rfl (by simp [hlive hc, ProcState.lifeless])
      (fun _ hq => hq) (fun _ hq => hq) (by simp [hlive hc]))
  | shift c p i x l a hc hx ha =>
    refine h.quiet (quiet_self (x := x) (hlive hc) rfl rfl ?_ (update_eq_self _ _).symm rfl
      (by simp [hlive hc, ProcState.lifeless]) ?_ ?_ (by simp [hlive hc]))
    all_goals cases hx <;> simp [Pc.orphans, Pc.adopts]

/-! Which processes are reaped. -/

/-- The processes have different numbers, those that have been reaped are gone, and `fork` has
returned every process but init. -/
structure Tallied (s : State n C) : Prop where
  born : ∀ p, (s.proc p).state ≠ .unused → s.uid p < s.born
  once : ∀ p q, (s.proc p).state ≠ .unused → (s.proc q).state ≠ .unused → s.uid p = s.uid q → p = q
  gone : ∀ e ∈ s.reaped, e.uid < s.born ∧ ∀ p, (s.proc p).state ≠ .unused → s.uid p ≠ e.uid
  nodup : (s.reaped.map Reap.uid).Nodup
  forked : ∀ p, (s.proc p).state.settled = true → p ≠ s.initproc → (s.uid p, (s.proc p).pid) ∈ s.forked
  returned : ∀ e ∈ s.reaped, (e.uid, e.pid) ∈ s.forked

variable (h : Tallied s) (hinit : s'.initproc = s.initproc) (hborn : s'.born = s.born) (huid : s'.uid = s.uid) (hreaped : s'.reaped = s.reaped)

include h hinit hborn huid hreaped in
omit [DecidableEq C] in
theorem Tallied.shrink (hforked : s.forked ⊆ s'.forked)
    (huse : ∀ q, (s'.proc q).state ≠ .unused → (s.proc q).state ≠ .unused)
    (hsettled : ∀ q, (s'.proc q).state.settled = true → q ≠ s.initproc →
      (s'.uid q, (s'.proc q).pid) ∈ s'.forked) : Tallied s' where
  born p hp := by
    rw [huid, hborn]
    exact h.born p (huse p hp)
  once p q hp hq hpq := by
    rw [huid] at hpq
    exact h.once p q (huse p hp) (huse q hq) hpq
  gone e he := by
    rw [hreaped] at he
    rw [huid, hborn]
    exact ⟨(h.gone e he).1, fun p hp => (h.gone e he).2 p (huse p hp)⟩
  nodup := by
    rw [hreaped]
    exact h.nodup
  forked q hq hi := hsettled q hq (hinit ▸ hi)
  returned e he := hforked (h.returned e (hreaped ▸ he))

include h hinit hborn huid hreaped in
omit [DecidableEq C] in
theorem Tallied.keep (hforked : s'.forked = s.forked)
    (huse : ∀ q, (s'.proc q).state ≠ .unused → (s.proc q).state ≠ .unused)
    (hsettled : ∀ q, (s'.proc q).state.settled = true →
      (s.proc q).state.settled = true ∧ (s'.proc q).pid = (s.proc q).pid) : Tallied s' := by
  refine h.shrink hinit hborn huid hreaped (by rw [hforked]; exact List.Subset.refl _) huse
    fun q hq hi => ?_
  obtain ⟨hq', hpid⟩ := hsettled q hq
  rw [huid, hpid, hforked]
  exact h.forked q hq' hi

omit [DecidableEq C] in
theorem Tallied.alloc (h : Tallied s) (hnp : (s.proc np).state = .unused) {x : Proc n}
    (hx : x.state = .embryo) (hinit : s'.initproc = s.initproc) (hborn : s'.born = s.born + 1)
    (huid : s'.uid = update s.uid np s.born) (hreaped : s'.reaped = s.reaped)
    (hforked : s'.forked = s.forked) (hproc : s'.proc = update s.proc np x) : Tallied s' := by
  have hother : ∀ q ≠ np, s'.proc q = s.proc q ∧ s'.uid q = s.uid q := fun q hq => by
    rw [hproc, huid, update_of_ne hq, update_of_ne hq]
    exact ⟨rfl, rfl⟩
  have hself : s'.uid np = s.born := by rw [huid, update_self]
  have hlt : ∀ q ≠ np, (s'.proc q).state ≠ .unused → s'.uid q < s.born := by
    intro q hq hu
    rw [(hother q hq).2]
    exact h.born q ((hother q hq).1 ▸ hu)
  refine ⟨fun q hq => ?_, fun q r hq hr hqr => ?_, fun e he => ?_, by rw [hreaped]; exact h.nodup,
    fun q hq hi => ?_, fun e he => ?_⟩
  · rw [hborn]
    by_cases hqn : q = np
    · rw [hqn, hself]
      omega
    · have := hlt q hqn hq
      omega
  · by_cases hqn : q = np <;> by_cases hrn : r = np
    · rw [hqn, hrn]
    · have := hlt r hrn hr
      rw [hqn, hself] at hqr
      omega
    · have := hlt q hqn hq
      rw [hrn, hself] at hqr
      omega
    · rw [(hother q hqn).2, (hother r hrn).2] at hqr
      exact h.once q r ((hother q hqn).1 ▸ hq) ((hother r hrn).1 ▸ hr) hqr
  · rw [hreaped] at he
    obtain ⟨hlow, hgone⟩ := h.gone e he
    refine ⟨by omega, fun q hq => ?_⟩
    by_cases hqn : q = np
    · rw [hqn, hself]
      omega
    · rw [(hother q hqn).2]
      exact hgone q ((hother q hqn).1 ▸ hq)
  · have hqn : q ≠ np := by
      rintro rfl
      rw [hproc, update_self, hx] at hq
      cases hq
    rw [(hother q hqn).1] at hq ⊢
    rw [(hother q hqn).2, hforked]
    exact h.forked q hq (hinit ▸ hi)
  · rw [hforked]
    exact h.returned e (hreaped ▸ he)

omit [DecidableEq C] in
theorem Tallied.reap (h : Tallied s) (hz : (s.proc q).state = .zombie) (hqi : q ≠ s.initproc)
    {x : Proc n} (hx : x.state = .unused) (hinit : s'.initproc = s.initproc)
    (hborn : s'.born = s.born) (huid : s'.uid = s.uid)
    (hreaped : s'.reaped = s.reaped ++ [⟨p, q, s.uid q, (s.proc q).pid⟩])
    (hforked : s'.forked = s.forked) (hproc : s'.proc = update s.proc q x) : Tallied s' := by
  have huse : ∀ r, (s'.proc r).state ≠ .unused → r ≠ q ∧ s'.proc r = s.proc r := by
    intro r hr
    have hrq : r ≠ q := by
      rintro rfl
      rw [hproc, update_self] at hr
      exact hr hx
    exact ⟨hrq, by rw [hproc, update_of_ne hrq]⟩
  have hqu : (s.proc q).state ≠ .unused := by
    rw [hz]
    simp
  have hstill : ∀ r, (s'.proc r).state ≠ .unused → (s.proc r).state ≠ .unused := fun r hr =>
    (huse r hr).2 ▸ hr
  refine ⟨fun r hr => ?_, fun r k hr hk hrk => ?_, fun e he => ?_, ?_, fun r hr hi => ?_,
    fun e he => ?_⟩
  · rw [huid, hborn]
    exact h.born r (hstill r hr)
  · rw [huid] at hrk
    exact h.once r k (hstill r hr) (hstill k hk) hrk
  · rw [huid, hborn]
    rw [hreaped, List.mem_append, List.mem_singleton] at he
    rcases he with he | rfl
    · exact ⟨(h.gone e he).1, fun r hr => (h.gone e he).2 r (hstill r hr)⟩
    · refine ⟨h.born q hqu, fun r hr hrq => (huse r hr).1 ?_⟩
      exact h.once r q (hstill r hr) hqu hrq
  · rw [hreaped, List.map_append, List.nodup_append]
    refine ⟨h.nodup, by simp, ?_⟩
    intro u hu v hv
    obtain ⟨e, he, rfl⟩ := List.mem_map.mp hu
    obtain rfl : v = s.uid q := by simpa using hv
    exact ((h.gone e he).2 q hqu).symm
  · have hr' : (s'.proc r).state ≠ .unused := by
      intro hu
      rw [hu] at hr
      cases hr
    rw [(huse r hr').2] at hr ⊢
    rw [huid, hforked]
    exact h.forked r hr (hinit ▸ hi)
  · rw [hforked]
    rw [hreaped, List.mem_append, List.mem_singleton] at he
    rcases he with he | rfl
    · exact h.returned e he
    · exact h.forked q (by rw [hz]; rfl) hqi

omit [DecidableEq C] in
theorem InWait.tallied {s0 : State n C} (hw : InWait s c p i s0) (h : Tallied s) : Tallied s0 := by
  have hproc := hw.proc
  rcases hw with ⟨-, -, -, rfl⟩ | ⟨-, -, rfl⟩
  · exact h
  · exact h.keep rfl rfl rfl rfl rfl (fun q hq => (hproc q).1 ▸ hq) fun q hq =>
      ⟨(hproc q).1 ▸ hq, (hproc q).2.2.2⟩

theorem unused_of_kin {x y : ProcState} (h : Kin x y) (hy : y ≠ .unused) : x ≠ .unused := by
  rcases h with rfl | ⟨rfl, rfl⟩
  · exact hy
  · simp

include h hinit hborn huid hreaped in
omit [DecidableEq C] in
theorem Tallied.rouse (hforked : s'.forked = s.forked)
    (hkin : ∀ q, Kin (s.proc q).state (s'.proc q).state)
    (hpid : ∀ q, (s'.proc q).pid = (s.proc q).pid) : Tallied s' :=
  h.keep hinit hborn huid hreaped hforked (fun q hq => unused_of_kin (hkin q) hq) fun q hq =>
    ⟨settled_of_kin (hkin q) ▸ hq, hpid q⟩

omit [DecidableEq C] in
theorem Tallied.settle (h : Tallied s) {x : Proc n} (hold : (s.proc p).state.settled = true)
    (hinit : s'.initproc = s.initproc) (hborn : s'.born = s.born)
    (huid : s'.uid = s.uid) (hreaped : s'.reaped = s.reaped) (hforked : s'.forked = s.forked)
    (hproc : s'.proc = update s.proc p x) (hpid : x.pid = (s.proc p).pid) : Tallied s' := by
  have hpu : (s.proc p).state ≠ .unused := by
    intro hu
    rw [hu] at hold
    cases hold
  refine h.keep hinit hborn huid hreaped hforked (fun q hq => ?_) fun q hq => ?_
  · by_cases hqp : q = p
    · rwa [hqp]
    · rwa [hproc, update_of_ne hqp] at hq
  · by_cases hqp : q = p
    · rw [hqp]
      exact ⟨hold, by rw [hproc, update_self, hpid]⟩
    · rw [hproc, update_of_ne hqp] at hq ⊢
      exact ⟨hq, rfl⟩

theorem Tallied.change (hs : Sound s) (hf : Family s) (h : Tallied s)
    (hc : Change s a s') : Tallied s' := by
  have hset : ∀ {c p i}, s.cpu c = .runs p i → (s.proc p).state.settled = true := fun hc => by
    rw [hs.seats.running _ _ (Sound.proc_of_runs hc)]
    rfl
  have hsame : ∀ {t : Fin n → Proc n}, (∀ q, t q = s.proc q) →
      (∀ q, Kin (s.proc q).state (t q).state) ∧ ∀ q, (t q).pid = (s.proc q).pid := fun ht =>
    ⟨fun q => .inl (by rw [ht q]), fun q => by rw [ht q]⟩
  cases hc with
  | acquire | skip | finish | unlock | full | stack | shift | env =>
    exact h.rouse rfl rfl rfl rfl rfl (hsame fun _ => rfl).1 (hsame fun _ => rfl).2
  | switch c i p hc hp =>
    exact h.settle (p := p) (by rw [hp]; rfl) rfl rfl rfl rfl rfl rfl rfl
  | awake c p i x hc hp =>
    have hrun := hs.seats.running c p (by rw [hc]; rfl)
    exact h.settle (p := p) (by rw [hrun]; rfl) rfl rfl rfl rfl rfl rfl rfl
  | alloc c p i np hc hp hl hnp =>
    exact h.alloc hnp rfl rfl rfl rfl rfl rfl rfl
  | unstack c p i np hc hp | uncopy c p i np hc hp =>
    have hnp := hs.posts.fork p np (by rw [hp]; rfl)
    refine h.keep rfl rfl rfl rfl rfl (fun q hq => ?_) fun q hq => ?_
    · by_cases hqn : q = np
      · rw [hqn, hnp]
        simp
      · simpa [unalloc, update_of_ne hqn] using hq
    · by_cases hqn : q = np
      · subst hqn
        simp [unalloc, ProcState.settled] at hq
      · simpa [unalloc, update_of_ne hqn] using hq
  | copy c p i np hc hp =>
    refine h.rouse rfl rfl rfl rfl rfl (kin_update (by rfl)) fun q => ?_
    by_cases hqn : q = np
    · subst hqn
      simp
    · simp [update_of_ne hqn]
  | ready c p i np hc hp hl =>
    have hnp := hs.posts.fork p np (by rw [hp]; rfl)
    refine h.shrink rfl rfl rfl rfl (List.subset_append_left _ _) (fun q hq => ?_) fun q hq hi => ?_
    · by_cases hqn : q = np
      · rw [hqn, hnp]
        simp
      · simpa [update_of_ne hqn] using hq
    · refine List.mem_append.mpr ?_
      by_cases hqn : q = np
      · subst hqn
        right
        simp [goto, setProc]
      · left
        simp only [goto_proc, setProc_proc, update_of_ne hqn] at hq ⊢
        exact h.forked q hq hi
  | exit c p i hc hp hl hinit =>
    have he := exited s c p i
    refine h.keep rfl rfl rfl rfl rfl (fun q hq => ?_) fun q hq => ⟨?_, he.pid q⟩
    · by_cases hqp : q = p
      · rw [hqp, hs.seats.running c p (Sound.proc_of_runs hc)]
        simp
      · exact unused_of_kin (he.state q hqp) hq
    · by_cases hqp : q = p
      · rw [hqp]
        exact hset hc
      · exact settled_of_kin (he.state q hqp) ▸ hq
  | reap c p q i s0 a hw ha hq hz =>
    have hqi : q ≠ s0.initproc := by
      rintro rfl
      have := (hf.quiet (hw.quiet hs)).root
      rw [hq] at this
      cases this
    exact (hw.tallied h).reap hz hqi rfl rfl rfl rfl rfl rfl rfl
  | childless c p i s0 a hw ha hp =>
    exact (hw.tallied h).rouse rfl rfl rfl rfl rfl (fun _ => .inl rfl) fun _ => rfl
  | await c p i s0 a hw ha hk hkid hz =>
    obtain ⟨h0, hcpu, -, -⟩ := hw.spec hs
    exact (hw.tallied h).settle (p := p) (by rw [h0.seats.running c p hcpu]; rfl) rfl rfl rfl rfl rfl rfl
      rfl
  | yield c p i hc hl => exact h.settle (p := p) (hset hc) rfl rfl rfl rfl rfl rfl rfl
  | sleep c p i k hc hp hl => exact h.settle (p := p) (hset hc) rfl rfl rfl rfl rfl rfl rfl
  | sleepOn c p i w hc hp hl => exact h.settle (p := p) (hset hc) rfl rfl rfl rfl rfl rfl rfl
  | wakeup | wake =>
    exact h.rouse rfl rfl rfl rfl rfl (Kin.of_roused (roused_wakeup1 _ _)) fun q =>
      (meek_wakeup1 _ _ q).1
  | kill c p i pid hc hp hl =>
    exact h.rouse rfl rfl rfl rfl rfl (kin_kill _ _) fun q => (kill_spec _ _ q).1
  | fault c p i hc hp => exact h.settle (p := p) (hset hc) rfl rfl rfl rfl rfl rfl rfl

theorem reaped_change (hs : Sound s) (hc : Change s a s') :
    s'.reaped = s.reaped ∨ ∃ e, s'.reaped = s.reaped ++ [e] ∧
      (s.proc e.slot).parent = some e.waiter ∧ (s.proc e.slot).state = .zombie ∧
      e.uid = s.uid e.slot ∧ e.pid = (s.proc e.slot).pid ∧ ∃ c, (s.cpu c).proc = some e.waiter := by
  cases hc with
  | reap c p q i s0 a hw ha hq hz =>
    have hsame : s0.reaped = s.reaped ∧ s0.uid = s.uid ∧ s0.cpu = s.cpu := by
      rcases hw with ⟨-, -, -, rfl⟩ | ⟨-, -, rfl⟩ <;> exact ⟨rfl, rfl, rfl⟩
    obtain ⟨hst, -, hpar, hpid⟩ := hw.proc q
    obtain ⟨-, hcpu, -, -⟩ := hw.spec hs
    refine .inr ⟨⟨p, q, s0.uid q, (s0.proc q).pid⟩, ?_, hpar ▸ hq, hst ▸ hz, ?_, hpid, c, ?_⟩
    · exact congrArg (· ++ [_]) hsame.1
    · exact congrFun hsame.2.1 q
    · rw [← hsame.2.2, hcpu]
  | childless c p i s0 a hw | await c p i s0 a hw =>
    rcases hw with ⟨-, -, -, rfl⟩ | ⟨-, -, rfl⟩ <;> exact .inl rfl
  | _ => exact .inl rfl

omit [DecidableEq C] in
theorem family_userinit (init : Fin n) :
    Family (userinit init : State n C) ∧ Tallied (userinit init : State n C) := by
  have hother : ∀ q ≠ init, (userinit init : State n C).proc q = {} ∧
      (userinit init : State n C).pc q = .dead := fun q hq =>
    ⟨update_of_ne hq _ _, update_of_ne hq _ _⟩
  have hself : (userinit init : State n C).proc init = { state := .runnable, pid := 1 } :=
    update_self _ _ _
  have hpc : (userinit init : State n C).pc init = .user := update_self _ _ _
  have hparent : ∀ q, ((userinit init : State n C).proc q).parent = none := by
    intro q
    by_cases hq : q = init
    · rw [hq, hself]
    · rw [(hother q hq).1]
  have huse : ∀ q, ((userinit init : State n C).proc q).state ≠ .unused → q = init := by
    intro q hq
    by_contra hne
    rw [(hother q hne).1] at hq
    exact hq rfl
  have hplain : ∀ q, (userinit init : State n C).pc q = .user ∨
      (userinit init : State n C).pc q = .dead := by
    intro q
    by_cases hq : q = init
    · exact .inl (hq ▸ hpc)
    · exact .inr (hother q hq).2
  have hinit : (userinit init : State n C).initproc = init := rfl
  constructor
  · refine ⟨?_, hparent _, fun q => ?_, fun q r hr => ?_, fun q _ => hparent q, fun p q _ => hparent q,
      fun p q hp => ?_, fun q hq hi => ?_, fun p _ hp => ?_⟩
    · rw [hinit, hpc]
      simp
    · rw [hparent]
      simp
    · rw [hparent] at hr
      cases hr
    · rcases hplain p with h | h <;> rw [h] at hp <;> cases hp
    · refine absurd (huse q fun hu => ?_) hi
      rw [hu] at hq
      cases hq
    · rcases hplain p with h | h <;> rw [h] at hp <;> cases hp
  · refine ⟨fun p _ => Nat.zero_lt_one, fun p q hp hq _ => (huse p hp).trans (huse q hq).symm, ?_, ?_,
      fun p hp hi => ?_, ?_⟩
    · intro e he
      cases he
    · exact List.nodup_nil
    · refine absurd (huse p fun hu => ?_) hi
      rw [hu] at hp
      cases hp
    · intro e he
      cases he

/-- In every state, with `ptable.lock` free or not: the parent of a zombie is neither UNUSED nor a zombie; who
sleeps in `wait` has a child and no zombie child; every process that `fork` returned is reaped at
most once, by the `wait` of its parent at that time and under its pid; and `wait` returns -1 to a
process that is not killed only if it has no children. -/
theorem exit_wait_handover {init : Fin n} {acts : List (Act n C)}
    (hrun : Trans.Run State.step Trans.Any (State.userinit init) acts s) :
    (∀ q, (s.proc q).state = .zombie → ∃ r, (s.proc q).parent = some r ∧
      (s.proc r).state ≠ .unused ∧ (s.proc r).state ≠ .zombie) ∧
    (∀ p, (s.proc p).state = .sleeping → s.pc p = .waiting → (∃ q, (s.proc q).parent = some p) ∧
      ∀ q, (s.proc q).parent = some p → (s.proc q).state ≠ .zombie) ∧
    ((s.reaped.map Reap.uid).Nodup ∧ (∀ e ∈ s.reaped, (e.uid, e.pid) ∈ s.forked) ∧
      ∀ a s', s.step a = some s' → s'.reaped = s.reaped ∨ ∃ e, s'.reaped = s.reaped ++ [e] ∧
        (s.proc e.slot).parent = some e.waiter ∧ (s.proc e.slot).state = .zombie ∧
        e.uid = s.uid e.slot ∧ e.pid = (s.proc e.slot).pid ∧ ∃ c, (s.cpu c).proc = some e.waiter) ∧
    ∀ p, waitOutcome s.proc p = .fails → (s.proc p).killed = false →
      ∀ q, (s.proc q).parent ≠ some p := by
  have h : Sound s ∧ Family s ∧ Tallied s := by
    refine hrun.induct (I := fun s => Sound s ∧ Family s ∧ Tallied s)
      ⟨sound_userinit init, family_userinit init⟩ fun s a s' h _ hstep => ?_
    have hc := change_of_step hstep
    exact ⟨h.1.change hc, h.2.1.change h.1 hc, h.2.2.change h.1 h.2.1 hc⟩
  obtain ⟨hs, hf, ht⟩ := h
  refine ⟨fun q hz => ?_, fun p hp hw => (hf.waiting p hp hw).2, ⟨ht.nodup, ht.returned, fun a s' hstep =>
    reaped_change hs (change_of_step hstep)⟩, fun p hfail hk => ?_⟩
  · have hqi : q ≠ s.initproc := hf.ne_init hs (by rw [hz]; rfl)
    obtain ⟨r, hr⟩ := Option.ne_none_iff_exists'.mp (hf.settled q (by rw [hz]; rfl) hqi)
    have hlive : (s.proc r).state.lifeless ≠ true := fun hl => hf.alive q r hr ((hs.posts.dead r).mpr hl)
    refine ⟨r, hr, fun hu => hlive ?_, fun hu => hlive ?_⟩ <;> rw [hu] <;> rfl
  · have := waitOutcome_spec s.proc p
    rw [hfail] at this
    rcases this with hk' | hno
    · rw [hk] at hk'
      cases hk'
    · exact hno

/-- The child exits while the first process goes on; the first process then waits for it. -/
def exitThenWait : List (Act NPROC Bool) :=
  firstFork ++ [.exit false] ++ List.replicate 63 (.sched false) ++ [.wait true]

theorem exit_wait_handover_exitThenWait : ∃ s : State NPROC Bool,
    Trans.Run State.step Trans.Any (State.userinit ⟨0, by decide⟩) exitThenWait s ∧ s.lock = none ∧
      s.reaped = [⟨⟨0, by decide⟩, ⟨1, by decide⟩, 1, 2⟩] ∧
      ∀ e ∈ s.reaped, (e.uid, e.pid) ∈ s.forked := by
  have hexec : (Trans.exec step (fun _ _ => true)
      (userinit ⟨0, by decide⟩ : State NPROC Bool) exitThenWait).any
        (fun s => s.lock = none ∧ s.reaped = [⟨⟨0, by decide⟩, ⟨1, by decide⟩, 1, 2⟩]) = true := by
    decide +kernel
  obtain ⟨s, hrun, hq⟩ := Trans.Run.of_exec_any (C := Trans.Any) (fun _ _ _ => trivial) hexec
  obtain ⟨hl, hreaped⟩ := of_decide_eq_true hq
  exact ⟨s, hrun, hl, hreaped, (exit_wait_handover hrun).2.2.1.2.1⟩

end Xv6.Ptable
