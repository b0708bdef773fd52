import Xv6.Lib.Run
import Xv6.Spec.Ownership

/-! Any number of processes dropping their references to one inode. Each `iput` takes its
steps one at a time: `acquiresleep`, the reading of `ref` under `icache.lock`, the freeing of
the inode, `releasesleep`, and `ref--` under `icache.lock`. -/

namespace Xv6

inductive IputPc where
  | idle
  /-- holding the sleep-lock -/
  | locked
  /-- holding the sleep-lock, with the value `r` that it read from `ref` -/
  | tested (r : ℤ)
  /-- holding the sleep-lock, after `ip->valid = 0` -/
  | freed
  /-- before `ref--` -/
  | unlocked
deriving DecidableEq, Repr

/-- The file system and the processes dropping references to one entry of the inode cache.
`refs p` is the number of references of process `p` that it has not dropped; `frees` is
history, the number of times the inode was freed. -/
structure Droppers (P : Type) where
  fs : Fs
  pc : P → IputPc
  refs : P → ℕ
  frees : ℕ
  panic : Option Stop

inductive IputAct (P : Type) where
  | acquiresleep (p : P)
  | readRef (p : P)
  | free (p : P)
  | releasesleep (p : P)
  | unref (p : P)

namespace Droppers

variable {P : Type} [DecidableEq P]

def unlinked (n : Inode) : Bool := n.valid && n.d.nlink == 0

def mayRelease (n : Inode) : IputPc → Bool
  | .locked => !unlinked n
  | .tested r => r ≠ 1
  | .freed => true
  | .idle | .unlocked => false

/-- `none` when process `p` cannot take the step: it is elsewhere in its program, it would
go to sleep, or the machine has panicked. -/
def step (ip : Ptr) (s : Droppers P) : IputAct P → Option (Droppers P)
  | .acquiresleep p =>
    if s.panic = none ∧ s.pc p = .idle ∧ 0 < s.refs p then
      match Fs.ops.acquiresleep ip s.fs with
      | .ok _ fs => some { s with fs := fs, pc := Function.update s.pc p .locked }
      | .halt _ _ => none
    else none
  | .readRef p =>
    if s.panic = none ∧ s.pc p = .locked ∧ unlinked (s.fs.icache ip) then
      some { s with pc := Function.update s.pc p (.tested (s.fs.icache ip).ref) }
    else none
  | .free p =>
    if s.panic = none ∧ s.pc p = .tested 1 then
      match Fs.ops.ifree ip s.fs with
      | .ok _ fs =>
        some { s with fs := fs, pc := Function.update s.pc p .freed, frees := s.frees + 1 }
      | .halt e _ => some { s with panic := some e }
    else none
  | .releasesleep p =>
    if s.panic = none ∧ mayRelease (s.fs.icache ip) (s.pc p) then
      match Fs.ops.releasesleep ip s.fs with
      | .ok _ fs => some { s with fs := fs, pc := Function.update s.pc p .unlocked }
      | .halt _ _ => none
    else none
  | .unref p =>
    if s.panic = none ∧ s.pc p = .unlocked then
      match Fs.ops.modifyInode ip (fun n => { n with ref := n.ref - 1 }) s.fs with
      | .ok _ fs =>
        some { s with fs := fs, pc := Function.update s.pc p .idle,
                      refs := Function.update s.refs p (s.refs p - 1) }
      | .halt _ _ => none
    else none

/-- Processes about to drop their references to a valid inode without links, which no one
has locked. -/
structure Start [Fintype P] (ip : Ptr) (s : Droppers P) : Prop where
  wf : s.fs.toStore.Wf
  live : (s.fs.icache ip).Live
  nlink : (s.fs.icache ip).d.nlink = 0
  lock : (s.fs.icache ip).lock = none
  refs : (s.fs.icache ip).ref = ∑ p, (s.refs p : ℤ)
  idle : ∀ p, s.pc p = .idle
  frees : s.frees = 0
  panic : s.panic = none

/-- When a process reads `ref`, none is between its `releasesleep` and its `ref--`. -/
def Settled (s : Droppers P) : IputAct P → Prop
  | .readRef _ => ∀ q, s.pc q ≠ .unlocked
  | _ => True

instance [Fintype P] (s : Droppers P) : (a : IputAct P) → Decidable (Settled s a)
  | .readRef _ => inferInstanceAs (Decidable (∀ q, s.pc q ≠ .unlocked))
  | .acquiresleep _ | .free _ | .releasesleep _ | .unref _ => .isTrue trivial

/-- The inode that entry `ip` stood for in `s₀` has been freed on disk exactly once. -/
def FreedOnce (ip : Ptr) (s₀ s : Droppers P) : Prop :=
  s.frees = 1 ∧ (s.fs.toStore.dinode (s₀.fs.icache ip).inum).type = 0 ∧
    ∀ k b, s₀.fs.toStore.held ((s₀.fs.icache ip).inum, k) = some b → ¬s.fs.toStore.used b

end Droppers

end Xv6
