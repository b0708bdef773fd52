import Xv6.Proofs.InodeCalls

/-! The functions of `file.c` keep to the rules, and what each does to the view of the process
that calls it. -/

namespace Xv6

open Kernel

variable {T : Type} {n : ℕ} {r : Rules T n} {p : Fin n} {v w : View n} {S : Storage T} {ip : Ptr}
  {k k0 : Kernel T n} {f : Fin NFILE} {Q : Unit → View n → Prop} {file : File}

namespace View

@[simp] theorem setFile_zero (v : View n) (f : Fin NFILE) : v.setFile f 0 (v.file f) = v := by
  simp [setFile]

def closed (v : View n) (f : Fin NFILE) : Option (FileType × Ptr) :=
  if 0 < v.fref f - 1 then v.file f else none

end View

/-! ### The file table -/

theorem view_file (hf : 0 < k.fref p f) :
    (k.view p).file f = some ((k.ftable f).type, (k.ftable f).ip) := if_pos hf

theorem fref_pos {x : FileType × Ptr} (h : (k.view p).file f = some x) : 0 < k.fref p f := by
  by_contra hpos
  exact absurd (h.symm.trans (if_neg hpos)) (by simp)

theorem Kernel.Ok.fref_le (h : Ok r k) (p : Fin n) (f : Fin NFILE) : k.fref p f ≤ (k.ftable f).ref := by
  rw [h.file_ref f]
  exact Finset.single_le_sum (f := fun q => k.fref q f) (fun q _ => h.fref q f) (Finset.mem_univ p)

theorem Kernel.Ok.fref_add_le (h : Ok r k) {q : Fin n} (hq : q ≠ p) (f : Fin NFILE) :
    k.fref p f + k.fref q f ≤ (k.ftable f).ref := by
  rw [h.file_ref f]
  exact Count.add_le_sum (g := fun q => k.fref q f) (fun q => h.fref q f) hq.symm

theorem SafeAt.panicIf_bind {β : Type} {c : Prop} [Decidable c] {e : Panic} {g : Unit → KernelM T n β}
    {Q : β → View n → Prop} (hok : Ok r k) (he : ∀ x, e ≠ .log x)
    (h : ¬c → SafeAt r p (g ()) Q k0 k) : SafeAt r p ((opsAt S p).panicIf c e >>= g) Q k0 k := by
  unfold FsOps.panicIf
  split_ifs with hc
  · exact ⟨hok, fun _ _ hx => absurd (Stop.panic.inj hx) (he _)⟩
  · exact h hc

theorem SafeAt.setFile (hok : Ok r k) (hsp : (protocol r).Spares p k0 k) (hc : k.call p ≠ none)
    (hothers : ∀ q, q ≠ p → 0 < k.fref q f →
      file.type = (k.ftable f).type ∧ file.ip = (k.ftable f).ip)
    (hnn : 0 ≤ k.fref p f + (file.ref - (k.ftable f).ref))
    (hclosed : file.ref = 0 → file.type = .none) (hfresh : file.type = .none → file.ref ≤ 1)
    (hQ : Q () (((k.view p).add ((k.ftable f).hold - file.hold)).setFile f
      (file.ref - (k.ftable f).ref)
      (if 0 < k.fref p f + (file.ref - (k.ftable f).ref) then some (file.type, file.ip) else none))) :
    SafeAt r p ((opsAt S p).setFile f file) Q k0 k := by
  have hok' := hok.setFile hc hothers hnn hclosed hfresh
  refine .modify hsp hok' (fun q hq => view_setFile_ne hq (hothers q hq)) rfl ?_
  rw [view_setFile]
  exact hQ

theorem SafeAt.setFile_same (hok : Ok r k)
    (hsp : (protocol r).Spares p k0 k) (hc : k.call p ≠ none) (hf : 0 < k.fref p f)
    (htype : file.type = (k.ftable f).type) (hip : file.ip = (k.ftable f).ip)
    (hnn : 0 ≤ k.fref p f + (file.ref - (k.ftable f).ref))
    (hclosed : file.ref = 0 → file.type = .none) (hfresh : file.type = .none → file.ref ≤ 1)
    (hQ : Q () ((k.view p).setFile f (file.ref - (k.ftable f).ref)
      (if 0 < k.fref p f + (file.ref - (k.ftable f).ref) then (k.view p).file f else none))) :
    SafeAt r p ((opsAt S p).setFile f file) Q k0 k := by
  have hhold : file.hold = (k.ftable f).hold := by
    unfold File.hold
    rw [htype, hip]
  refine .setFile hok hsp hc (fun _ _ _ => ⟨htype, hip⟩) hnn hclosed hfresh ?_
  rw [hhold, sub_self, View.add_zero, htype, hip, ← view_file hf]
  exact hQ

theorem obeys_filealloc : Obeys r p ((opsAt S p).filealloc) v fun a w =>
    (a = none → w = v) ∧ ∀ f, a = some f → v.fref f = 0 ∧ v.file f = none ∧
      ∃ jp, w = v.setFile f 1 (some (.none, jp)) := by
  rintro k0 k hok hsp rfl hc
  rw [FsOps.filealloc, safeAt_ftable_bind]
  split
  · rename_i f hfind
    have hz : (k.ftable f).ref = 0 := by simpa using List.find?_some hfind
    have hzero : ∀ q, k.fref q f = 0 := fun q =>
      le_antisymm (hz ▸ hok.fref_le q f) (hok.fref q f)
    have hnone : (k.ftable f).type = .none := hok.closed f hz
    have hset : SafeAt r p ((opsAt S p).setFile f { k.ftable f with ref := 1 })
        (fun _ w => w = (k.view p).setFile f 1 (some (.none, (k.ftable f).ip))) k0 k := by
      refine .setFile hok hsp hc (fun q _ hq => absurd (hzero q) hq.ne') ?_ ?_ ?_ ?_
      · rw [hzero p, hz]
        exact zero_le_one
      · exact fun h => absurd h one_ne_zero
      · exact fun _ => le_rfl
      · have hhold : (k.ftable f).hold - File.hold { k.ftable f with ref := 1 } = 0 := sub_self _
        rw [hhold, hzero p, hz, hnone, View.add_zero]
        rfl
    refine hset.bind fun _ k1 k' hok' hsp' _ hw => ⟨hok', hsp', rfl, nofun, ?_⟩
    rintro f' h
    obtain rfl := Option.some.inj h
    exact ⟨hzero p, if_neg (by rw [hzero p]; exact lt_irrefl 0), _, hw⟩
  · exact ⟨hok, hsp, rfl, fun _ => rfl, nofun⟩

theorem obeys_filedup (hf : 0 < v.fref f) (ht : ∀ jp, v.file f ≠ some (.none, jp)) :
    Obeys r p ((opsAt S p).filedup f) v fun _ w => w = v.setFile f 1 (v.file f) := by
  rintro k0 k hok hsp rfl hc
  have hf : 0 < k.fref p f := hf
  have htype : (k.ftable f).type ≠ .none := fun h => ht _ (by rw [view_file hf, h])
  have href := hok.fref_le p f
  rw [FsOps.filedup, safeAt_file_bind]
  refine SafeAt.panicIf_bind hok (by simp) fun _ => ?_
  have hone : (k.ftable f).ref + 1 - (k.ftable f).ref = 1 := by omega
  refine .setFile_same hok hsp hc hf rfl rfl ?_ (fun h => ?_) (fun h => absurd h htype) ?_
  · dsimp only
    omega
  · dsimp only at h
    omega
  · dsimp only
    rw [hone, if_pos (by omega)]

theorem obeys_fileclose (hS : S.Tame) (hf : 0 < v.fref f) :
    Obeys r p ((opsAt S p).fileclose f) v fun _ w => w = v.setFile f (-1) (v.closed f) := by
  rintro k0 k hok hsp rfl hc
  have hf : 0 < k.fref p f := hf
  have href := hok.fref_le p f
  rw [FsOps.fileclose, safeAt_file_bind]
  refine SafeAt.panicIf_bind hok (by simp) fun _ => ?_
  split_ifs with hlast
  · have hone : (k.ftable f).ref - 1 - (k.ftable f).ref = -1 := by omega
    refine .setFile_same hok hsp hc hf rfl rfl ?_ (fun h => ?_) (fun h => ?_) ?_
    · dsimp only
      omega
    · dsimp only at h
      omega
    · have := hok.fresh f h
      dsimp only
      omega
    · dsimp only
      rw [hone]
      rfl
  · -- nobody else has a reference
    have hone : (k.ftable f).ref = 1 ∧ k.fref p f = 1 := by omega
    have hothers : ∀ q, q ≠ p → ¬0 < k.fref q f := fun q hq h => by
      have := hok.fref_add_le hq f
      omega
    have hclosed : (k.view p).closed f = none := if_neg (by
      change ¬0 < k.fref p f - 1
      omega)
    rw [hclosed]
    set u := ((k.view p).add (k.ftable f).hold).setFile f (-1) none with hu
    have hset : SafeAt r p ((opsAt S p).setFile f { k.ftable f with ref := 0, type := .none })
        (fun _ w => w = u) k0 k := by
      refine .setFile hok hsp hc (fun q hq h => absurd h (hothers q hq)) ?_ (fun _ => rfl) (fun _ => ?_) ?_
      · dsimp only
        omega
      · dsimp only
        omega
      · have hhold : File.hold { k.ftable f with ref := 0, type := .none } = 0 := if_neg (by simp)
        dsimp only
        rw [hhold, sub_zero, hone.1, hone.2]
        rfl
    refine hset.bind fun _ k1 k' hok' hsp' hc' hw' => ?_
    have hcall : u.call ≠ none := hc
    refine (?_ : Obeys r p _ u _) k1 k' hok' hsp' hw' hcall
    cases htype : (k.ftable f).type with
    | inode =>
      refine obeys_beginOp.seq fun _ => ?_
      refine (obeys_iput (v := u.setDepth (u.depth + 1)) hS fun _ => Nat.succ_pos _).bind
        fun _ w hw' => ?_
      rw [hw']
      refine (obeys_endOp (v := (u.setDepth (u.depth + 1)).add _) (Nat.succ_pos _)).mono fun _ w hw' => ?_
      have hhold : (k.ftable f).hold = Pi.single (k.ftable f).ip 1 := if_pos htype
      rw [hw', hu, hhold]
      exact congrArg (fun v : View n => v.setFile f (-1) none)
        (View.add_single_neg (k.view p) (k.ftable f).ip 1)
    | pipe =>
      have hhold : (k.ftable f).hold = 0 := if_neg (by simp [htype])
      exact .pure (by rw [hu, hhold, View.add_zero])
    | none =>
      have hhold : (k.ftable f).hold = 0 := if_neg (by simp [htype])
      exact .pure (by rw [hu, hhold, View.add_zero])

/-! ### Reading and writing -/

section
variable {ty : FileType}

section

variable (hf : v.file f = some (ty, ip))
include hf

theorem obeys_file_known {β : Type} {g : File → KernelM T n β} {Q : β → View n → Prop}
    (h : ∀ x : File, x.type = ty → x.ip = ip → Obeys r p (g x) v Q) :
    Obeys r p ((opsAt S p).file f >>= g) v Q := by
  rintro k0 k hok hsp rfl hc
  rw [view_file (fref_pos hf)] at hf
  obtain ⟨hty, hip⟩ := Prod.mk.inj (Option.some.inj hf)
  exact h (k.ftable f) hty hip k0 k hok hsp rfl hc

theorem obeys_advance (z : ℕ) : Obeys r p ((opsAt S p).advance f z) v fun _ w => w = v := by
  rintro k0 k hok hsp rfl hc
  have hpos := fref_pos hf
  rw [FsOps.advance, safeAt_file_bind]
  refine .setFile_same hok hsp hc hpos rfl rfl ?_ (hok.closed f) (hok.fresh f) ?_
  · dsimp only
    omega
  · dsimp only
    rw [sub_self, add_zero, if_pos hpos, View.setFile_zero]

theorem obeys_filestat :
    Obeys r p ((opsAt S p).filestat f) v fun _ w => w = v := by
  refine obeys_file_known hf fun x htype hip => ?_
  rw [htype, hip]
  cases ty with
  | inode =>
    refine obeys_ilock.bind fun _ w hw' => ?_
    obtain ⟨hfree, rfl⟩ := hw'
    refine obeys_file_known (v := v.setLock ip true) hf fun y _ hy => ?_
    rw [hy]
    refine (obeys_stati fun _ => View.locked_setLock ..).bind fun st w hw' => ?_
    rw [hw']
    refine obeys_iunlock.bind fun _ w hw' => .pure ?_
    rw [hw'.2, View.setLock_setLock hfree]
  | pipe => exact .pure rfl
  | none => exact .pure rfl

theorem obeys_advance_if (z : ℤ) :
    Obeys r p (if z > 0 then (opsAt S p).advance f z.toNat else pure ()) v fun _ w => w = v := by
  split_ifs
  · exact obeys_advance hf _
  · exact .pure rfl

end

theorem obeys_fileread (hS : S.Tame) (hback : r.inOp → r.Backed S) (hf : v.file f = some (ty, ip))
    (len : ℕ) (pipe : ℤ × List UInt8) :
    Obeys r p ((opsAt S p).fileread f len pipe) v fun _ w => w = v := by
  refine obeys_file_known hf fun x htype hip => ?_
  rw [htype, hip]
  split_ifs
  · exact .pure rfl
  cases ty with
  | inode =>
    refine obeys_ilock.bind fun _ w hw' => ?_
    obtain ⟨hfree, rfl⟩ := hw'
    have hlk : (v.setLock ip true).locked ip = true := View.locked_setLock ..
    refine obeys_file_known (v := v.setLock ip true) hf fun y _ hy => ?_
    rw [hy]
    refine (obeys_readi hS (fun hr => .inr ⟨hlk, hback hr⟩) (fun _ => hlk) _ _).bind fun a w hw' => ?_
    rw [hw']
    refine (obeys_advance_if (v := v.setLock ip true) hf a.1).seq fun _ => ?_
    refine obeys_iunlock.bind fun _ w hw' => .pure ?_
    rw [hw'.2, View.setLock_setLock hfree]
  | pipe => exact .pure rfl
  | none => exact obeys_panic (by simp)

theorem obeys_filewriteFrom (hS : S.Tame) (hf : v.file f = some (ty, ip))
    (m : ℕ) (src : List UInt8) :
    Obeys r p ((opsAt S p).filewriteFrom f m src) v fun _ w => w = v := by
  induction m generalizing src with
  | zero => exact .pure rfl
  | succ m ih =>
    unfold FsOps.filewriteFrom
    split_ifs
    · exact .pure rfl
    refine obeys_beginOp.seq fun _ => ?_
    set u := v.setDepth (v.depth + 1) with hu
    refine obeys_file_known (v := u) hf fun x _ hx => ?_
    rw [hx]
    refine (obeys_ilock (v := u)).bind fun _ w hw' => ?_
    obtain ⟨hfree, rfl⟩ := hw'
    have hlk : (u.setLock ip true).locked ip = true := View.locked_setLock ..
    refine obeys_file_known (v := u.setLock ip true) hf fun y _ hy => ?_
    rw [hy]
    refine (obeys_writei hS (fun _ => Nat.succ_pos v.depth) (fun _ => hlk) _ _).bind fun z w hw' => ?_
    rw [hw']
    refine (obeys_advance_if (v := u.setLock ip true) hf z).seq fun _ => ?_
    refine obeys_iunlock.bind fun _ w hw' => ?_
    rw [hw'.2, View.setLock_setLock hfree]
    refine (obeys_endOp (v := u) (Nat.succ_pos v.depth)).bind fun _ w hw' => ?_
    have hback : w = v := hw'
    rw [hback]
    split_ifs
    · exact .pure rfl
    · refine (obeys_panicIf (by simp)).bind fun _ w hw' => ?_
      rw [hw'.2]
      exact ih _

theorem obeys_filewrite (hS : S.Tame) (hf : v.file f = some (ty, ip))
    (src : List UInt8) (pipe : ℤ) :
    Obeys r p ((opsAt S p).filewrite f src pipe) v fun _ w => w = v := by
  refine obeys_file_known hf fun x htype hip => ?_
  rw [htype]
  split_ifs
  · exact .pure rfl
  cases ty with
  | inode => exact (obeys_filewriteFrom hS hf _ src).bind fun all w hw' => .pure hw'
  | pipe => exact .pure rfl
  | none => exact obeys_panic (by simp)

end

/-! ### File descriptors -/

theorem obeys_argfd (fd : Option ℤ) : Obeys r p ((opsAt S p).argfd fd) v fun a w => w = v ∧
    ∀ d f, a = some (d, f) → v.proc.ofile d = some f := by
  refine obeys_ofile_bind (.pure ⟨rfl, fun d f h => ?_⟩)
  obtain ⟨z, -, hz⟩ := Option.bind_eq_some_iff.mp h
  split_ifs at hz
  obtain ⟨g, hg, hz⟩ := Option.map_eq_some_iff.mp hz
  obtain ⟨rfl, rfl⟩ := Prod.mk.inj hz
  exact hg

def View.setOfile (v : View n) (fd : Fin NOFILE) (x : Option (Fin NFILE)) : View n :=
  v.setProc { v.proc with ofile := Function.update v.proc.ofile fd x }

theorem obeys_setOfile (fd : Fin NOFILE) (x : Option (Fin NFILE)) :
    Obeys r p ((opsAt S p).setOfile fd x) v fun _ w => w = v.setOfile fd x := by
  rintro k0 k hok hsp rfl hc
  exact .modify hsp (hok.setProc hc _) (fun _ hq => view_setProc_ne hq) rfl (view_setProc _)

theorem obeys_setCwd (x : Option Ptr) :
    Obeys r p ((opsAt S p).setCwd x) v fun _ w => w = v.setProc { v.proc with cwd := x } := by
  rintro k0 k hok hsp rfl hc
  exact .modify hsp (hok.setProc hc _) (fun _ hq => view_setProc_ne hq) rfl (view_setProc _)

theorem obeys_fdalloc (f : Fin NFILE) : Obeys r p ((opsAt S p).fdalloc f) v fun a w =>
    (a = none → w = v) ∧ ∀ fd, a = some fd → v.proc.ofile fd = none ∧ w = v.setOfile fd (some f) := by
  refine obeys_ofile_bind ?_
  split
  · rename_i fd hfind
    have hnone : v.proc.ofile fd = none := by simpa using List.find?_some hfind
    refine (obeys_setOfile fd (some f)).bind fun _ w hw => .pure ⟨nofun, fun fd' h => ?_⟩
    obtain rfl := Option.some.inj h
    exact ⟨hnone, hw⟩
  · exact .pure ⟨fun _ => rfl, nofun⟩

end Xv6
