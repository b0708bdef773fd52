import Xv6.Proofs.InodeBlocks

/-! What the functions of the inode cache return, as equations: the cases in which they neither panic
nor sleep. -/

namespace Exec

variable {σ ε α β : Type} {m : Exec σ ε α} {f : α → Exec σ ε β} {a : α} {s s' : σ}

theorem bind_ok (h : m s = .ok a s') : (m >>= f) s = f a s' := by
  rw [bind_apply, h]

end Exec

namespace Xv6.Fs

variable {s : Fs} {ip : Ptr} {n : Inode}

def put (s : Fs) (t : Store) : Fs := { s with toStore := t }

@[simp] theorem put_toStore (s : Fs) (t : Store) : (s.put t).toStore = t := rfl

@[simp] theorem put_put (s : Fs) (t t' : Store) : (s.put t).put t' = s.put t' := rfl

@[simp] theorem put_self (s : Fs) : s.put s.toStore = s := rfl

theorem inode_apply (ip : Ptr) (s : Fs) : ops.inode ip s = .ok (s.icache ip) s := rfl

theorem setInode_apply (ip : Ptr) (n : Inode) (s : Fs) :
    ops.setInode ip n s = .ok () (s.put (s.toStore.setInode ip n)) := rfl

theorem inode_put_setInode (s : Fs) (t : Store) (ip : Ptr) (n : Inode) :
    ops.inode ip (s.put (t.setInode ip n)) = .ok n (s.put (t.setInode ip n)) := by
  rw [inode_apply, put_toStore, Store.setInode_self]

theorem releasesleep_apply (ip : Ptr) (s : Fs) : ops.releasesleep ip s =
    .ok () (s.put (s.toStore.setInode ip { s.icache ip with lock := none })) := rfl

theorem panicIf_of_not {c : Prop} [Decidable c] {e : Panic} (h : ¬c) (s : Fs) :
    ops.panicIf c e s = .ok () s := by
  unfold FsOps.panicIf
  rw [if_neg h]
  rfl

theorem acquiresleep_ok (h : (s.icache ip).lock = none) : ops.acquiresleep ip s =
    .ok () (s.put (s.toStore.setInode ip { s.icache ip with lock := some 0 })) := by
  rw [acquiresleep_apply, h]
  rfl

theorem ilock_ok (href : 1 ≤ (s.icache ip).ref) (hlock : (s.icache ip).lock = none)
    (htype : (s.icache ip).valid = false → (s.toStore.dinode (s.icache ip).inum).type ≠ 0) :
    ops.ilock ip s = .ok () (s.put (s.toStore.setInode ip (lockedInode s.toStore ip))) := by
  unfold FsOps.ilock lockedInode
  rw [Exec.bind_ok (inode_apply ip s), Exec.bind_ok (panicIf_of_not (by omega) s),
    Exec.bind_ok (acquiresleep_ok hlock), Exec.bind_ok (inode_put_setInode ..)]
  cases hv : (s.icache ip).valid with
  | true =>
    simp only [if_true]
    rw [hv]
    rfl
  | false =>
    have hload : ops.dinode (s.icache ip).inum (s.put (s.toStore.setInode ip
        { s.icache ip with lock := some 0 })) = .ok (s.toStore.dinode (s.icache ip).inum)
        (s.put (s.toStore.setInode ip { s.icache ip with lock := some 0 })) := rfl
    simp only [Bool.false_eq_true, if_false]
    rw [Exec.bind_ok hload, Exec.bind_ok (setInode_apply ip _ _), panicIf_of_not (htype hv)]
    simp only [put_toStore, put_put, Store.setInode_setInode]

theorem iunlock_ok (href : 1 ≤ (s.icache ip).ref) (hlock : (s.icache ip).lock = some 0) :
    ops.iunlock ip s = .ok () (s.put (s.toStore.setInode ip { s.icache ip with lock := none })) := by
  have hheld : ops.holdingsleep ip s = .ok true s := by
    change Res.ok ((s.icache ip).lock == some 0) s = _
    rw [hlock]
    rfl
  unfold FsOps.iunlock
  rw [Exec.bind_ok hheld, Exec.bind_ok (inode_apply ip s),
    Exec.bind_ok (panicIf_of_not (by simpa using href) s)]
  exact releasesleep_apply ip s

end Xv6.Fs
