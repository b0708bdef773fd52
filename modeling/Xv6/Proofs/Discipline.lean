import Xv6.Lib.Count
import Xv6.Spec.Kernel

/-! What every process keeps to while it executes a system call, whatever the other processes
do: which locks it holds, whether it is in a transaction, and the references it has taken.
`Obeys` is the proof rule: it follows the view a process has of itself, and leaves the views
of the others alone. -/

open Function Prog

namespace Xv6

open Kernel

variable {T : Type} {n : ℕ}

/-- The volumes agree but for the copies of the disk inodes in `A`, and for the blocks in the
log. -/
structure Volume.Near (A : Set Ptr) (v v' : Volume T) : Prop where
  outstanding : v'.log.outstanding = v.log.outstanding
  committing : v'.log.committing = v.log.committing
  lock : ∀ ip, (v'.icache ip).lock = (v.icache ip).lock
  ref : ∀ ip, (v'.icache ip).ref = (v.icache ip).ref
  fields : ∀ ip, ip ∉ A → (v'.icache ip).d = (v.icache ip).d

/-- An operation that changes only the copies of the disk inodes in `A` and the log, which panics
outside of a transaction. -/
structure Volume.Tame {α : Type} (A : Set Ptr) (m : VolumeM T α) : Prop where
  near : ∀ v, Volume.Near A v (m v).state
  outside : ∀ v u, m v = .halt (.panic (.log .outsideTrans)) u → v.log.outstanding < 1

structure Storage.Tame (S : Storage T) : Prop where
  setDinode : ∀ inum d, Volume.Tame ∅ (S.setDinode inum d)
  truncBlocks : ∀ ip, Volume.Tame {ip} (S.truncBlocks ip)
  readFrom : ∀ ip off len, Volume.Tame {ip} (S.readFrom ip off len)
  writeFrom : ∀ ip off src, Volume.Tame {ip} (S.writeFrom ip off src)

/-- What is asked of the processes: to call `iput` inside a transaction, and also to write to the log
only there, to touch an inode under its lock, and to give back the references they take. `given` is
assumed of every state in which a step is taken. -/
structure Rules (T : Type) (n : ℕ) where
  inOp : Prop
  logged : Prop
  locked : Prop
  exact : Prop
  given : Kernel T n → Prop

/-- What is given lets a process read below the size of an inode that it has locked without writing
to the log. -/
def Rules.Backed (r : Rules T n) (S : Storage T) : Prop :=
  r.logged → ∀ k, r.given k → ∀ ip off len, (k.icache ip).lock ≠ none → off + len ≤ (k.icache ip).d.size.toNat →
    ∀ e u, S.readFrom ip off len k.toVolume ≠ .halt (.panic (.log e)) u

structure View (n : ℕ) where
  call : Option (Call n)
  proc : Proc
  depth : ℕ
  locked : Ptr → Bool
  iref : Ptr → ℤ
  fref : Fin NFILE → ℤ
  /-- type and inode of the files it has a reference to -/
  file : Fin NFILE → Option (FileType × Ptr)

def Kernel.view (k : Kernel T n) (p : Fin n) : View n where
  call := k.call p
  proc := k.proc p
  depth := k.depth p
  locked ip := (k.icache ip).lock == some p.val
  iref := k.iref p
  fref := k.fref p
  file f := if 0 < k.fref p f then some ((k.ftable f).type, (k.ftable f).ip) else none

/-- Between two calls a process is in no transaction, holds no lock, and has the references of
its descriptors and of its current directory. -/
structure View.Rest (r : Rules T n) (v : View n) : Prop where
  depth : v.depth = 0
  locked : ∀ ip, v.locked ip = false
  fref : ∀ f, v.fref f = v.proc.fds f
  typed : ∀ fd f, v.proc.ofile fd = some f → ∃ ty ip, v.file f = some (ty, ip) ∧ ty ≠ .none
  iref : r.exact → ∀ ip, v.iref ip = if v.proc.cwd = some ip then 1 else 0

structure Kernel.Ok (r : Rules T n) (k : Kernel T n) : Prop where
  ref : ∀ ip, (k.icache ip).ref = opened k.ftable ip + ∑ p, k.iref p ip
  file_ref : ∀ f, (k.ftable f).ref = ∑ p, k.fref p f
  fref : ∀ p f, 0 ≤ k.fref p f
  closed : ∀ f, (k.ftable f).ref = 0 → (k.ftable f).type = .none
  fresh : ∀ f, (k.ftable f).type = .none → (k.ftable f).ref ≤ 1
  outstanding : k.log.outstanding = ∑ p, (k.depth p : ℤ)
  committing : k.log.committing = false
  rest : ∀ p, k.call p = none → (k.view p).Rest r
  inOp : r.inOp → ∀ e ∈ k.events, e.access = .iput → e.inOp = true
  locked : r.locked → ∀ e ∈ k.events, e.access ≠ .iput → e.holder = some e.proc.val

def Kernel.Keeps (p : Fin n) (k k' : Kernel T n) : Prop :=
  k'.call p = k.call p ∧ (k.call p ≠ none → k'.view p = k.view p)

def protocol (r : Rules T n) : Protocol (Fin n) (Kernel T n) where
  inv := Ok r
  keeps := Keeps
  refl _ _ := ⟨rfl, fun _ => rfl⟩
  trans h h' := ⟨h'.1.trans h.1, fun hc => (h'.2 (h.1 ▸ hc)).trans (h.2 hc)⟩
  idle p k := k.call p = none
  idle_keeps h hk := hk.1.trans h
  given := r.given

/-- What is known where the system has halted: `log_write` was not called outside of a
transaction. -/
def Halts (r : Rules T n) (e : Stop) (k : Kernel T n) : Prop :=
  Ok r k ∧ (r.inOp → r.logged → e ≠ .panic (.log .outsideTrans))

variable {r : Rules T n} {p : Fin n} {v w : View n} {k k' k₀ : Kernel T n}

def SafeAt {α : Type} (r : Rules T n) (p : Fin n) (m : KernelM T n α) (Q : α → View n → Prop)
    (k₀ k : Kernel T n) : Prop :=
  Safe (protocol r) p m
    (fun a k₀ k' => Ok r k' ∧ (protocol r).Spares p k₀ k' ∧ k'.call p = k.call p ∧ Q a (k'.view p))
    (fun e _ k' => Halts r e k') k₀ k

/-- Executed by process `p` in a call, from any state in which its view is `v`, the program
keeps to the rules and ends with `Q` of the view it then has. -/
def Obeys {α : Type} (r : Rules T n) (p : Fin n) (m : KernelM T n α) (v : View n)
    (Q : α → View n → Prop) : Prop :=
  ∀ k₀ k, Ok r k → (protocol r).Spares p k₀ k → k.view p = v → v.call ≠ none → SafeAt r p m Q k₀ k

namespace View

def add (v : View n) (δ : Ptr → ℤ) : View n := { v with iref := v.iref + δ }

def setLock (v : View n) (ip : Ptr) (b : Bool) : View n :=
  { v with locked := Function.update v.locked ip b }

def setDepth (v : View n) (d : ℕ) : View n := { v with depth := d }

@[simp] theorem add_zero (v : View n) : v.add 0 = v := by simp [add]

@[simp] theorem add_add (v : View n) (δ δ' : Ptr → ℤ) : (v.add δ).add δ' = v.add (δ + δ') := by
  simp [add, Pi.add_def, Int.add_assoc]

end View

/-! ### The rules -/

section
variable {α β : Type} {m : KernelM T n α} {f : α → KernelM T n β} {Q Q' : α → View n → Prop}

theorem SafeAt.bind {R : β → View n → Prop} (h : SafeAt r p m Q k₀ k)
    (hf : ∀ a k₀ k', Ok r k' → (protocol r).Spares p k₀ k' → k'.call p = k.call p →
      Q a (k'.view p) → SafeAt r p (f a) R k₀ k') : SafeAt r p (m >>= f) R k₀ k := by
  refine Safe.bind h fun a k₀ k' ⟨hok, hsp, hc, hq⟩ => ?_
  refine (hf a k₀ k' hok hsp hc hq).mono (fun b k₀ k'' ⟨hok', hsp', hc', hr⟩ => ?_) fun _ _ _ he => he
  exact ⟨hok', hsp', hc'.trans hc, hr⟩

theorem Obeys.bind {R : β → View n → Prop} (h : Obeys r p m v Q)
    (hf : ∀ a w, Q a w → Obeys r p (f a) w R) : Obeys r p (m >>= f) v R := by
  intro k₀ k hok hsp hv hc
  refine (h k₀ k hok hsp hv hc).bind fun a k₀ k' hok' hsp' hc' hq => ?_
  refine hf a _ hq k₀ k' hok' hsp' rfl ?_
  subst hv
  exact fun h => hc (hc'.symm.trans h)

theorem Obeys.seq {u : View n} {R : β → View n → Prop} (h : Obeys r p m v fun _ w => w = u)
    (hf : ∀ a, Obeys r p (f a) u R) : Obeys r p (m >>= f) v R :=
  h.bind fun a _ hw => hw ▸ hf a

theorem Obeys.mono (h : Obeys r p m v Q) (hQ : ∀ a w, Q a w → Q' a w) : Obeys r p m v Q' :=
  fun k₀ k hok hsp hv hc => (h k₀ k hok hsp hv hc).mono
    (fun a _ _ ⟨h1, h2, h3, h4⟩ => ⟨h1, h2, h3, hQ a _ h4⟩) fun _ _ _ he => he

theorem Obeys.pure {a : α} (h : Q a v) : Obeys r p (Pure.pure a) v Q := by
  rintro k₀ k hok hsp rfl -
  exact ⟨hok, hsp, rfl, h⟩

end

theorem spares_of_view (h : ∀ q, q ≠ p → k'.view q = k.view q) : (protocol r).Spares p k k' :=
  fun q hq => ⟨congrArg View.call (h q hq), fun _ => h q hq⟩

theorem SafeAt.modify {g : Kernel T n → Kernel T n} {Q : Unit → View n → Prop}
    (hsp : (protocol r).Spares p k₀ k) (hok : Ok r (g k))
    (hothers : ∀ q, q ≠ p → (g k).view q = k.view q) (hcall : (g k).call p = k.call p)
    (hQ : Q () ((g k).view p)) : SafeAt r p (modify g) Q k₀ k :=
  ⟨hok, hsp.trans (spares_of_view hothers), hcall, hQ⟩

variable (hok : Ok r k) (hsp : (protocol r).Spares p k₀ k) (hc : k.call p ≠ none)

include hok hsp hc in
theorem SafeAt.await {ready : Kernel T n → Bool} {Q : Unit → View n → Prop}
    (h : ∀ k', Ok r k' → r.given k' → k'.view p = k.view p → ready k' = true → Q () (k.view p)) :
    SafeAt r p (await ready) Q k₀ k := by
  refine ⟨hok, hsp, fun k' hok' hg hk hr => ⟨hok', .refl _ p k', hk.1, ?_⟩⟩
  rw [hk.2 hc]
  exact h k' hok' hg (hk.2 hc) hr

theorem Obeys.yield : Obeys r p (await fun _ => true) v fun _ w => w = v := by
  rintro k₀ k hok hsp rfl hc
  exact .await hok hsp hc fun _ _ _ _ _ => rfl

/-! ### Changes of the state -/

variable {a : Access} {u : Volume T}

theorem Kernel.Ok.mark (h : Ok r k) {ip : Ptr} (hin : r.inOp → a = .iput → 0 < k.depth p)
    (hlock : r.locked → a ≠ .iput → (k.icache ip).lock = some p.val) : Ok r (k.mark p a ip) where
  ref := h.ref
  file_ref := h.file_ref
  fref := h.fref
  closed := h.closed
  fresh := h.fresh
  outstanding := h.outstanding
  committing := h.committing
  rest := h.rest
  inOp hr e he ha := by
    obtain rfl | he := List.mem_cons.mp he
    · simpa [event] using hin hr ha
    · exact h.inOp hr e he ha
  locked hr e he ha := by
    obtain rfl | he := List.mem_cons.mp he
    · exact hlock hr ha
    · exact h.locked hr e he ha

/-- Changes of the volume that leave the locks and the transactions alone: the references
that `p` takes or gives back are added to its account. -/
theorem view_setVolume (hl : ∀ ip, (u.icache ip).lock = (k.icache ip).lock) :
    (k.setVolume p u).view p = (k.view p).add (fun ip => (u.icache ip).ref - (k.icache ip).ref) ∧
      ∀ q, q ≠ p → (k.setVolume p u).view q = k.view q := by
  have hlocked : ∀ q : Fin n, ((k.setVolume p u).view q).locked = (k.view q).locked := fun q =>
    funext fun ip => congrArg (· == some q.val) (hl ip)
  constructor
  · have hiref : ((k.setVolume p u).view p).iref =
        (k.view p).iref + fun ip => (u.icache ip).ref - (k.icache ip).ref := update_self ..
    simp only [view, View.add, View.mk.injEq] at hiref ⊢
    exact ⟨rfl, rfl, rfl, hlocked p, hiref, rfl, rfl⟩
  · intro q hq
    have hiref : ((k.setVolume p u).view q).iref = (k.view q).iref := update_of_ne hq ..
    simp only [view, View.mk.injEq] at hiref ⊢
    exact ⟨rfl, rfl, rfl, hlocked q, hiref, rfl, rfl⟩

theorem Kernel.Ok.setVolume (h : Ok r k) (hc : k.call p ≠ none)
    (hl : ∀ ip, (u.icache ip).lock = (k.icache ip).lock)
    (hout : u.log.outstanding = k.log.outstanding) (hcom : u.log.committing = k.log.committing)
    (hd : r.locked → ∀ ip, (u.icache ip).d ≠ (k.icache ip).d → (k.icache ip).lock = some p.val) :
    Ok r (k.setVolume p u) where
  ref ip := by
    have hsum := Count.sum_update_apply k.iref p
      (fun ip => k.iref p ip + ((u.icache ip).ref - (k.icache ip).ref)) ip
    change (u.icache ip).ref = opened k.ftable ip + ∑ q, update k.iref p _ q ip
    rw [hsum]
    have := h.ref ip
    omega
  file_ref := h.file_ref
  fref := h.fref
  closed := h.closed
  fresh := h.fresh
  outstanding := hout.trans h.outstanding
  committing := hcom.trans h.committing
  rest q hq := by
    rw [(view_setVolume (p := p) hl).2 q fun hqp => hc (hqp ▸ hq)]
    exact h.rest q hq
  inOp hr e he ha := by
    obtain he | he := List.mem_append.mp he
    · obtain ⟨ip, -, rfl⟩ := List.mem_map.mp he
      cases ha
    · exact h.inOp hr e he ha
  locked hr e he ha := by
    obtain he | he := List.mem_append.mp he
    · obtain ⟨ip, hip, rfl⟩ := List.mem_map.mp he
      exact hd hr ip (by simpa using (List.mem_filter.mp hip).2)
    · exact h.locked hr e he ha

variable {l : Option ℕ}

theorem view_setLock {ip : Ptr} (q : Fin n) :
    (k.setLock ip l).view q = (k.view q).setLock ip (l == some q.val) := by
  have hlocked : ((k.setLock ip l).view q).locked =
      update (k.view q).locked ip (l == some q.val) := by
    funext jp
    by_cases hj : jp = ip
    · subst hj
      simp [view, Kernel.setLock]
    · simp [view, Kernel.setLock, update_of_ne hj]
  simp only [view, View.setLock, View.mk.injEq] at hlocked ⊢
  exact ⟨rfl, rfl, rfl, hlocked, rfl, rfl, rfl⟩

variable {q : Fin n} {file : File}

theorem view_setLock_ne {ip : Ptr} (hl : (l == some q.val) = ((k.icache ip).lock == some q.val)) :
    (k.setLock ip l).view q = k.view q := by
  rw [view_setLock, hl]
  exact congrArg (fun x => { k.view q with locked := x }) (update_eq_self ip (k.view q).locked)

theorem Kernel.Ok.setLock (h : Ok r k) (hc : k.call p ≠ none) {ip : Ptr}
    (hl : ∀ q, q ≠ p → (l == some q.val) = ((k.icache ip).lock == some q.val)) :
    Ok r (k.setLock ip l) := by
  have href : ∀ jp, ((k.setLock ip l).icache jp).ref = (k.icache jp).ref := by
    intro jp
    by_cases hj : jp = ip
    · subst hj
      simp [Kernel.setLock]
    · simp [Kernel.setLock, hj]
  constructor
  case ref => exact fun jp => (href jp).trans (h.ref jp)
  case file_ref => exact h.file_ref
  case fref => exact h.fref
  case closed => exact h.closed
  case fresh => exact h.fresh
  case outstanding => exact h.outstanding
  case committing => exact h.committing
  case rest =>
    intro q hq
    rw [view_setLock_ne (hl q fun hqp => hc (hqp ▸ hq))]
    exact h.rest q hq
  case inOp => exact h.inOp
  case locked => exact h.locked

theorem Kernel.Ok.setLog (h : Ok r k) (hc : k.call p ≠ none) {d : ℕ} {log : Log}
    (hout : log.outstanding = k.log.outstanding + (d - k.depth p))
    (hcom : log.committing = false) : Ok r { k.setDepth p d with log := log } where
  ref := h.ref
  file_ref := h.file_ref
  fref := h.fref
  closed := h.closed
  fresh := h.fresh
  outstanding := by
    have hsum := Count.sum_update_apply (fun q (_ : Unit) => (k.depth q : ℤ)) p (fun _ => (d : ℤ)) ()
    have hcast : ∑ q, ((update k.depth p d q : ℕ) : ℤ) =
        ∑ q, update (fun q (_ : Unit) => (k.depth q : ℤ)) p (fun _ => (d : ℤ)) q () := by
      refine Finset.sum_congr rfl fun q _ => ?_
      by_cases hq : q = p
      · subst hq
        rw [update_self, update_self]
      · rw [update_of_ne hq, update_of_ne hq]
    change log.outstanding = ∑ q, ((update k.depth p d q : ℕ) : ℤ)
    rw [hcast, hsum, hout, h.outstanding]
  committing := hcom
  rest q hq := by
    have hqp : q ≠ p := fun hqp => hc (hqp ▸ hq)
    have hd : (k.setDepth p d).depth q = k.depth q := update_of_ne hqp ..
    have hview : Kernel.view { k.setDepth p d with log := log } q = k.view q := by
      simp only [view, View.mk.injEq]
      exact ⟨rfl, rfl, hd, rfl, rfl, rfl, rfl⟩
    rw [hview]
    exact h.rest q hq
  inOp := h.inOp
  locked := h.locked

def File.hold (file : File) : Ptr → ℤ := if file.type = .inode then Pi.single file.ip 1 else 0

theorem opened_update (t : Fin NFILE → File) (f : Fin NFILE) (file : File) (ip : Ptr) :
    (opened (update t f file) ip : ℤ) = opened t ip + (file.hold ip - (t f).hold ip) := by
  have hhold : ∀ x : File, x.hold ip = if x.type = .inode ∧ x.ip = ip then 1 else 0 := by
    intro x
    unfold File.hold
    by_cases hx : x.type = .inode
    · by_cases hip : x.ip = ip
      · subst hip
        simp [hx]
      · simp [hx, hip]
    · simp [hx]
  rw [opened, Count.card_filter_update (fun x : File => x.type = .inode ∧ x.ip = ip) t f file, hhold,
    hhold]
  rfl

def View.setFile (v : View n) (f : Fin NFILE) (z : ℤ) (x : Option (FileType × Ptr)) : View n :=
  { v with fref := v.fref + Pi.single f z, file := Function.update v.file f x }

theorem view_setFile (k : Kernel T n) (p : Fin n) (f : Fin NFILE) (file : File) :
    (k.setFtable p (update k.ftable f file)).view p =
      ((k.view p).add ((k.ftable f).hold - file.hold)).setFile f (file.ref - (k.ftable f).ref)
        (if 0 < k.fref p f + (file.ref - (k.ftable f).ref) then some (file.type, file.ip) else none) := by
  set k' := k.setFtable p (update k.ftable f file) with hk'
  have hiref : k'.iref p = k.iref p + ((k.ftable f).hold - file.hold) := by
    funext ip
    change update k.iref p _ p ip = _
    rw [update_self, opened_update]
    change _ = k.iref p ip + ((k.ftable f).hold ip - file.hold ip)
    omega
  have hfref : k'.fref p = k.fref p + Pi.single f (file.ref - (k.ftable f).ref) := by
    funext g
    change update k.fref p _ p g = _
    rw [update_self]
    by_cases hg : g = f
    · subst hg
      simp
    · simp [hg]
  have hfile : (k'.view p).file = update (k.view p).file f
      (if 0 < k.fref p f + (file.ref - (k.ftable f).ref) then some (file.type, file.ip) else none) := by
    funext g
    change (if 0 < k'.fref p g then some ((update k.ftable f file g).type,
      (update k.ftable f file g).ip) else none) = _
    rw [hfref]
    by_cases hg : g = f
    · subst hg
      simp
    · simp [hg, view]
  simp only [view, View.setFile, View.add, View.mk.injEq] at hfile ⊢
  exact ⟨rfl, rfl, rfl, rfl, hiref, hfref, hfile⟩

theorem view_setFile_ne {f : Fin NFILE} (hq : q ≠ p)
    (h : 0 < k.fref q f → file.type = (k.ftable f).type ∧ file.ip = (k.ftable f).ip) :
    (k.setFtable p (update k.ftable f file)).view q = k.view q := by
  set k' := k.setFtable p (update k.ftable f file) with hk'
  have hiref : k'.iref q = k.iref q := update_of_ne hq ..
  have hfref : k'.fref q = k.fref q := update_of_ne hq ..
  have hfile : (k'.view q).file = (k.view q).file := by
    funext g
    change (if 0 < k'.fref q g then some ((update k.ftable f file g).type,
      (update k.ftable f file g).ip) else none) = _
    rw [hfref]
    by_cases hg : g = f
    · subst hg
      rw [update_self]
      by_cases hpos : 0 < k.fref q g
      · simp [view, hpos, h hpos]
      · simp [view, hpos]
    · simp [update_of_ne hg, view]
  simp only [view, View.mk.injEq] at hfile ⊢
  exact ⟨rfl, rfl, rfl, rfl, hiref, hfref, hfile⟩

theorem Kernel.Ok.setFile (h : Ok r k) (hc : k.call p ≠ none) {f : Fin NFILE}
    (hothers : ∀ q, q ≠ p → 0 < k.fref q f →
      file.type = (k.ftable f).type ∧ file.ip = (k.ftable f).ip)
    (hnn : 0 ≤ k.fref p f + (file.ref - (k.ftable f).ref))
    (hclosed : file.ref = 0 → file.type = .none) (hfresh : file.type = .none → file.ref ≤ 1) :
    Ok r (k.setFtable p (update k.ftable f file)) where
  ref ip := by
    change (k.icache ip).ref = opened (update k.ftable f file) ip +
      ∑ q, update k.iref p _ q ip
    rw [Count.sum_update_apply]
    have := h.ref ip
    omega
  file_ref g := by
    change (update k.ftable f file g).ref = ∑ q, update k.fref p _ q g
    rw [Count.sum_update_apply]
    have := h.file_ref g
    omega
  fref q g := by
    by_cases hq : q = p
    · subst hq
      change 0 ≤ update k.fref q _ q g
      rw [update_self]
      by_cases hg : g = f
      · subst hg
        simpa using hnn
      · simpa [update_of_ne hg] using h.fref q g
    · change 0 ≤ update k.fref p _ q g
      rw [update_of_ne hq]
      exact h.fref q g
  closed g hg := by
    by_cases hgf : g = f
    · subst hgf
      simpa [setFtable] using hclosed (by simpa [setFtable] using hg)
    · simp only [setFtable, update_of_ne hgf] at hg ⊢
      exact h.closed g hg
  fresh g hg := by
    by_cases hgf : g = f
    · subst hgf
      simpa [setFtable] using hfresh (by simpa [setFtable] using hg)
    · simp only [setFtable, update_of_ne hgf] at hg ⊢
      exact h.fresh g hg
  outstanding := h.outstanding
  committing := h.committing
  rest q hq := by
    have hqp : q ≠ p := fun hqp => hc (hqp ▸ hq)
    rw [view_setFile_ne hqp (hothers q hqp)]
    exact h.rest q hq
  inOp := h.inOp
  locked := h.locked

def View.setProc (v : View n) (pr : Proc) : View n := { v with proc := pr }

theorem view_setProc (pr : Proc) : (k.setProc p pr).view p = (k.view p).setProc pr := by
  simp only [view, View.setProc, View.mk.injEq]
  exact ⟨rfl, update_self .., rfl, rfl, rfl, rfl, rfl⟩

theorem view_setProc_ne {pr : Proc} (hq : q ≠ p) : (k.setProc p pr).view q = k.view q := by
  simp only [view, View.mk.injEq]
  exact ⟨rfl, update_of_ne hq .., rfl, rfl, rfl, rfl, rfl⟩

theorem Kernel.Ok.setProc (h : Ok r k) (hc : k.call p ≠ none) (pr : Proc) : Ok r (k.setProc p pr) where
  ref := h.ref
  file_ref := h.file_ref
  fref := h.fref
  closed := h.closed
  fresh := h.fresh
  outstanding := h.outstanding
  committing := h.committing
  rest q hq := by
    rw [view_setProc_ne fun hqp : q = p => hc (hqp ▸ hq)]
    exact h.rest q hq
  inOp := h.inOp
  locked := h.locked

/-! ### The operations -/

variable {S : Storage T} {ip : Ptr} {g : Inode → Inode} {A : Set Ptr}

section
variable {β : Type} {Q : β → View n → Prop}

@[simp] theorem safeAt_icache_bind {f : (Ptr → Inode) → KernelM T n β} :
    SafeAt r p ((opsAt S p).icache >>= f) Q k₀ k ↔ SafeAt r p (f k.icache) Q k₀ k := Iff.rfl

@[simp] theorem safeAt_inode_bind {f : Inode → KernelM T n β} :
    SafeAt r p ((opsAt S p).inode ip >>= f) Q k₀ k ↔ SafeAt r p (f (k.icache ip)) Q k₀ k := Iff.rfl

@[simp] theorem safeAt_dinode_bind {inum : ℕ} {f : Dinode → KernelM T n β} :
    SafeAt r p ((opsAt S p).dinode inum >>= f) Q k₀ k ↔
      SafeAt r p (f (S.dinode k.data inum)) Q k₀ k := Iff.rfl

@[simp] theorem safeAt_holdingsleep_bind {f : Bool → KernelM T n β} :
    SafeAt r p ((opsAt S p).holdingsleep ip >>= f) Q k₀ k ↔
      SafeAt r p (f ((k.view p).locked ip)) Q k₀ k := Iff.rfl

@[simp] theorem safeAt_ftable_bind {f : (Fin NFILE → File) → KernelM T n β} :
    SafeAt r p ((opsAt S p).ftable >>= f) Q k₀ k ↔ SafeAt r p (f k.ftable) Q k₀ k := Iff.rfl

@[simp] theorem safeAt_file_bind {f : Fin NFILE} {g : File → KernelM T n β} :
    SafeAt r p ((opsAt S p).file f >>= g) Q k₀ k ↔ SafeAt r p (g (k.ftable f)) Q k₀ k := Iff.rfl

end

/-! A value read that does not matter. -/

section
variable {β : Type} {Q : β → View n → Prop}

theorem obeys_inode_bind {f : Inode → KernelM T n β} (h : ∀ x, Obeys r p (f x) v Q) :
    Obeys r p ((opsAt S p).inode ip >>= f) v Q := fun k₀ k => h (k.icache ip) k₀ k

theorem obeys_dinode_bind {inum : ℕ} {f : Dinode → KernelM T n β} (h : ∀ d, Obeys r p (f d) v Q) :
    Obeys r p ((opsAt S p).dinode inum >>= f) v Q := fun k₀ k => h (S.dinode k.data inum) k₀ k

theorem obeys_ninodes_bind {f : ℕ → KernelM T n β} (h : ∀ x, Obeys r p (f x) v Q) :
    Obeys r p ((opsAt S p).ninodes >>= f) v Q := fun k₀ k => h (S.ninodes k.data) k₀ k

theorem obeys_device_bind {x : Inode} {f : Option Devsw → KernelM T n β}
    (h : ∀ d, Obeys r p (f d) v Q) : Obeys r p ((opsAt S p).device x >>= f) v Q :=
  fun k₀ k => h _ k₀ k

theorem obeys_ofile_bind {f : (Fin NOFILE → Option (Fin NFILE)) → KernelM T n β}
    (h : Obeys r p (f v.proc.ofile) v Q) : Obeys r p ((opsAt S p).ofile >>= f) v Q := by
  rintro k₀ k hok hsp rfl hc
  exact h k₀ k hok hsp rfl hc

theorem obeys_cwd_bind {f : Option Ptr → KernelM T n β} (h : Obeys r p (f v.proc.cwd) v Q) :
    Obeys r p ((opsAt S p).cwd >>= f) v Q := by
  rintro k₀ k hok hsp rfl hc
  exact h k₀ k hok hsp rfl hc

end

theorem obeys_panic {α : Type} {e : Panic} {Q : α → View n → Prop} (he : ∀ x, e ≠ .log x) :
    Obeys r p ((opsAt S p).panic e) v Q := by
  rintro k₀ k hok - - -
  exact ⟨hok, fun _ _ hx => absurd (Stop.panic.inj hx) (he _)⟩

theorem obeys_panicIf {c : Prop} [Decidable c] {e : Panic} (he : ∀ x, e ≠ .log x) :
    Obeys r p ((opsAt S p).panicIf c e) v fun _ w => ¬c ∧ w = v := by
  unfold FsOps.panicIf
  split_ifs with hc
  · exact obeys_panic he
  · exact .pure ⟨hc, rfl⟩

theorem obeys_note_bind {β : Type} {f : Unit → KernelM T n β} {Q : β → View n → Prop}
    (hin : r.inOp → a = .iput → 0 < v.depth) (hl : r.locked → a ≠ .iput → v.locked ip = true)
    (h : ∀ k, Ok r k → r.given k → k.view p = v → v.call ≠ none →
      SafeAt r p (f ()) Q k (k.mark p a ip)) : Obeys r p ((opsAt S p).note a ip >>= f) v Q := by
  rintro k₀ k hok hsp rfl hc
  refine safe_bind.mpr (safe_bind.mpr ⟨hok, hsp, fun k' hok' hg hk _ => ?_⟩)
  have hv := hk.2 hc
  have hdone := h k' hok' hg hv hc
  refine hdone.mono (fun a _ k'' ⟨h1, h2, h3, h4⟩ => ⟨h1, h2, h3.trans hk.1, h4⟩) fun _ _ _ he => he

theorem mark_ok (h : Ok r k) (hv : k.view p = v)
    (hin : r.inOp → a = .iput → 0 < v.depth) (hl : r.locked → a ≠ .iput → v.locked ip = true) :
    Ok r (k.mark p a ip) := by
  subst hv
  exact h.mark hin fun hr ha => by simpa [view] using hl hr ha

theorem obeys_note (hin : r.inOp → a = .iput → 0 < v.depth)
    (hl : r.locked → a ≠ .iput → v.locked ip = true) :
    Obeys r p ((opsAt S p).note a ip) v fun _ w => w = v := by
  have h : Obeys r p ((opsAt S p).note a ip >>= Pure.pure) v fun _ w => w = v :=
    obeys_note_bind hin hl fun k hok _ hv _ =>
      ⟨mark_ok hok hv hin hl, spares_of_view fun _ _ => rfl, rfl, hv⟩
  rwa [bind_pure] at h

include hok hsp hc in
/-- A storage operation, on inodes whose locks the process holds. Outside of a transaction it must
not write. -/
theorem SafeAt.onVolume {α : Type} {m : VolumeM T α} (hm : Volume.Tame A m)
    (hl : r.locked → ∀ ip ∈ A, (k.view p).locked ip = true) (hin : r.inOp → 0 < k.depth p ∨
      (r.logged → ∀ e u, m k.toVolume ≠ .halt (.panic (.log e)) u)) :
    SafeAt r p (Kernel.onVolume p m) (fun _ w => w = k.view p) k₀ k := by
  have hn := hm.near k.toVolume
  have hsame : (fun ip => ((m k.toVolume).state.icache ip).ref - (k.icache ip).ref) = 0 := by
    funext ip
    simp [hn.ref ip]
  obtain ⟨hp, hq⟩ := view_setVolume (p := p) hn.lock
  rw [hsame, View.add_zero] at hp
  have hok' : Ok r (k.setVolume p (m k.toVolume).state) := by
    refine hok.setVolume hc hn.lock hn.outstanding hn.committing fun hr ip hd => ?_
    have hA : ip ∈ A := by
      by_contra hA
      exact hd (hn.fields ip hA)
    simpa [view] using hl hr ip hA
  refine safe_lift.mpr ?_
  unfold Exec.wp
  dsimp only
  cases hrun : m k.toVolume with
  | ok a u =>
    rw [hrun] at hok' hp hq
    exact ⟨hok', hsp.trans (spares_of_view hq), rfl, hp⟩
  | halt e u =>
    rw [hrun] at hok'
    refine ⟨hok', fun hr hlog hx => ?_⟩
    rw [hx] at hrun
    have hd : 0 < k.depth p := (hin hr).resolve_right fun h => h hlog _ u hrun
    have hle := Finset.single_le_sum (f := fun q => (k.depth q : ℤ)) (fun q _ => by positivity)
      (Finset.mem_univ p)
    have hout := hok.outstanding
    have hlt := hm.outside k.toVolume u hrun
    omega

theorem obeys_onVolume {α : Type} {m : VolumeM T α}
    (hm : Volume.Tame A m) (hl : r.locked → ∀ ip ∈ A, v.locked ip = true)
    (hin : r.inOp → 0 < v.depth) : Obeys r p (onVolume p m) v fun _ w => w = v := by
  rintro k₀ k hok hsp rfl hc
  exact .onVolume hok hsp hc hm hl fun hr => .inl (hin hr)

include hok hsp hc in
theorem SafeAt.setInode {nn : Inode} {Q : Unit → View n → Prop} (hl : nn.lock = (k.icache ip).lock)
    (hd : r.locked → nn.d ≠ (k.icache ip).d → (k.view p).locked ip = true)
    (hQ : Q () ((k.view p).add (Pi.single ip (nn.ref - (k.icache ip).ref)))) :
    SafeAt r p ((opsAt S p).setInode ip nn) Q k₀ k := by
  set u : Volume T := { k.toVolume with icache := update k.icache ip nn } with hu
  have hicache : ∀ jp, u.icache jp = if jp = ip then nn else k.icache jp := fun jp =>
    update_apply ..
  have hlock : ∀ jp, (u.icache jp).lock = (k.icache jp).lock := by
    intro jp
    rw [hicache]
    split_ifs with hj
    · rw [hl, hj]
    · rfl
  have href : (fun jp => (u.icache jp).ref - (k.icache jp).ref) =
      Pi.single ip (nn.ref - (k.icache ip).ref) := by
    funext jp
    rw [hicache]
    by_cases hj : jp = ip
    · subst hj
      simp
    · simp [hj]
  obtain ⟨hp, hq⟩ := view_setVolume (p := p) hlock
  rw [href] at hp
  have hok' : Ok r (k.setVolume p u) := by
    refine hok.setVolume hc hlock rfl rfl fun hr jp hdj => ?_
    rw [hicache] at hdj
    split_ifs at hdj with hj
    · subst hj
      simpa [view] using hd hr hdj
    · exact absurd rfl hdj
  exact ⟨hok', hsp.trans (spares_of_view hq), rfl, by rw [hp]; exact hQ⟩

theorem obeys_modifyInode (z : ℤ) (hlock : ∀ x, (g x).lock = x.lock)
    (href : ∀ x, (g x).ref = x.ref + z) (hd : r.locked → v.locked ip = true ∨ ∀ x, (g x).d = x.d) :
    Obeys r p ((opsAt S p).modifyInode ip g) v fun _ w => w = v.add (Pi.single ip z) := by
  rintro k₀ k hok hsp rfl hc
  rw [FsOps.modifyInode, safeAt_inode_bind]
  refine SafeAt.setInode hok hsp hc (hlock _) (fun hr hne => ?_) ?_
  · exact (hd hr).resolve_right fun h => hne (h _)
  · rw [href, add_sub_cancel_left]

theorem obeys_idup : Obeys r p ((opsAt S p).idup ip) v fun _ w => w = v.add (Pi.single ip 1) :=
  obeys_modifyInode 1 (fun _ => rfl) (fun _ => rfl) fun _ => .inr fun _ => rfl

theorem obeys_assign (hl : r.locked → v.locked ip = true)
    (hlock : ∀ x, (g x).lock = x.lock) (href : ∀ x, (g x).ref = x.ref) :
    Obeys r p ((opsAt S p).modifyInode ip g) v fun _ w => w = v := by
  have h : Obeys r p ((opsAt S p).modifyInode ip g) v fun _ w => w = v.add (Pi.single ip 0) :=
    obeys_modifyInode 0 hlock (fun x => (href x).trans (add_zero x.ref).symm) fun hr => .inl (hl hr)
  rwa [Pi.single_zero, View.add_zero] at h

theorem obeys_iget (inum : ℕ) :
    Obeys r p ((opsAt S p).iget inum) v fun ip w => w = v.add (Pi.single ip 1) := by
  rintro k₀ k hok hsp rfl hc
  rw [FsOps.iget, safeAt_icache_bind]
  split
  · rename_i ip _
    have hset : SafeAt r p ((opsAt S p).setInode ip { k.icache ip with ref := (k.icache ip).ref + 1 })
        (fun _ w => w = (k.view p).add (Pi.single ip 1)) k₀ k :=
      .setInode hok hsp hc rfl (fun _ h => absurd rfl h) (by simp)
    exact hset.bind fun _ k1 k' hok' hsp' _ hw => ⟨hok', hsp', rfl, hw⟩
  · split
    · rename_i ip hip
      have hz : (k.icache ip).ref = 0 := by simpa using List.find?_some hip
      have hset : SafeAt r p ((opsAt S p).setInode ip
          { k.icache ip with inum := inum, ref := 1, valid := false })
          (fun _ w => w = (k.view p).add (Pi.single ip 1)) k₀ k :=
        .setInode hok hsp hc rfl (fun _ h => absurd rfl h) (by simp [hz])
      exact hset.bind fun _ k1 k' hok' hsp' _ hw => ⟨hok', hsp', rfl, hw⟩
    · exact obeys_panic (by simp) k₀ k hok hsp rfl hc

theorem obeys_acquiresleep : Obeys r p ((opsAt S p).acquiresleep ip) v fun _ w =>
    v.locked ip = false ∧ w = v.setLock ip true := by
  rintro k₀ k hok hsp rfl hc
  refine safe_bind.mpr ⟨hok, hsp, fun k' hok' _ hk hr => ?_⟩
  have hv : k'.view p = k.view p := hk.2 hc
  have hfree : (k'.icache ip).lock = none := by simpa using hr
  have hc' : k'.call p ≠ none := fun h => hc (hk.1.symm.trans h)
  have hothers : ∀ q, q ≠ p → (some p.val == some q.val) = ((k'.icache ip).lock == some q.val) := by
    intro q hq
    rw [hfree]
    simpa using fun h => hq (Fin.ext h).symm
  refine ⟨hok'.setLock hc' hothers, spares_of_view fun q hq => view_setLock_ne (hothers q hq), hk.1,
    ?_, ?_⟩
  · rw [← hv]
    simp [view, hfree]
  · refine (view_setLock (k := k') p).trans ?_
    rw [hv]
    simp

theorem obeys_releasesleep (hl : v.locked ip = true) :
    Obeys r p ((opsAt S p).releasesleep ip) v fun _ w => w = v.setLock ip false := by
  rintro k₀ k hok hsp rfl hc
  have hheld : (k.icache ip).lock = some p.val := by simpa [view] using hl
  have hothers : ∀ q, q ≠ p → ((none : Option ℕ) == some q.val) = ((k.icache ip).lock == some q.val) := by
    intro q hq
    rw [hheld]
    simpa using fun h => hq (Fin.ext h).symm
  have hok' : Ok r (k.setLock ip none) := hok.setLock hc hothers
  have hset : SafeAt r p (modify fun k => k.setLock ip none)
      (fun _ w => w = (k.view p).setLock ip false) k₀ k :=
    .modify hsp hok' (fun q hq => view_setLock_ne (hothers q hq)) rfl (view_setLock p)
  refine hset.bind fun _ k1 k' hok1 hsp1 hc1 hw => ?_
  exact hw ▸ Obeys.yield k1 k' hok1 hsp1 rfl fun h => hc (hc1.symm.trans h)

theorem obeys_beginOp : Obeys r p ((opsAt S p).beginOp) v fun _ w => w = v.setDepth (v.depth + 1) := by
  rintro k₀ k hok hsp rfl hc
  refine safe_bind.mpr ⟨hok, hsp, fun k' hok' _ hk hr => ?_⟩
  have hv : k'.view p = k.view p := hk.2 hc
  have hc' : k'.call p ≠ none := fun h => hc (hk.1.symm.trans h)
  obtain ⟨log, hlog⟩ := Option.isSome_iff_exists.mp hr
  have hshape : log.outstanding = k'.log.outstanding + 1 ∧ log.committing = k'.log.committing := by
    simp only [Log.beginOp] at hlog
    split_ifs at hlog with h1 h2
    obtain rfl := Option.some.inj hlog
    exact ⟨rfl, rfl⟩
  change Ok r { k'.setDepth p (k'.depth p + 1) with log := k'.log.beginOp.getD k'.log } ∧ _
  rw [hlog, Option.getD_some]
  refine ⟨hok'.setLog hc' (by rw [hshape.1]; push_cast; ring) (hshape.2.trans hok'.committing),
    spares_of_view fun q hq => ?_, hk.1, ?_⟩
  · simp only [view, View.mk.injEq]
    exact ⟨rfl, rfl, update_of_ne hq .., rfl, rfl, rfl, rfl⟩
  · rw [← hv]
    simp only [view, View.setDepth, View.mk.injEq]
    exact ⟨rfl, rfl, update_self .., rfl, rfl, rfl, rfl⟩

theorem obeys_endOp (hd : 0 < v.depth) :
    Obeys r p ((opsAt S p).endOp) v fun _ w => w = v.setDepth (v.depth - 1) := by
  rintro k₀ k hok hsp rfl hc
  refine safe_bind.mpr ?_
  rw [safe_get]
  simp only [Log.endOp, hok.committing, Bool.false_eq_true, if_false]
  have hdone : ∀ log : Log, log.outstanding = k.log.outstanding - 1 → log.committing = false →
      SafeAt r p (do
        modify fun k => { k.setDepth p (k.depth p - 1) with log := log }
        await fun _ => true) (fun _ w => w = (k.view p).setDepth ((k.view p).depth - 1)) k₀ k := by
    intro log hout hcom
    have hset : SafeAt r p (modify fun k => { k.setDepth p (k.depth p - 1) with log := log })
        (fun _ w => w = (k.view p).setDepth ((k.view p).depth - 1)) k₀ k := by
      refine .modify hsp (hok.setLog hc ?_ hcom) (fun q hq => ?_) rfl ?_
      · rw [hout]
        have : 0 < k.depth p := hd
        push_cast [Nat.cast_sub (show 1 ≤ k.depth p from hd)]
        ring
      · simp only [view, View.mk.injEq]
        exact ⟨rfl, rfl, update_of_ne hq .., rfl, rfl, rfl, rfl⟩
      · simp only [view, View.setDepth, View.mk.injEq]
        exact ⟨rfl, rfl, update_self .., rfl, rfl, rfl, rfl⟩
    refine hset.bind fun _ k1 k' hok1 hsp1 hc1 hw => ?_
    exact hw ▸ Obeys.yield k1 k' hok1 hsp1 rfl fun h => hc (hc1.symm.trans h)
  split_ifs with hz
  · exact hdone _ rfl rfl
  · exact hdone _ rfl rfl

end Xv6
