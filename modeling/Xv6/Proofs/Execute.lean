import Xv6.Proofs.UserStack

/-! `exec`: for every file and every failure of `kalloc` it returns, with the new image in place or
everything as it was. -/

namespace Xv6

open Kmem Exec

/-! Only `copyout` writes the history of what was copied. -/

section Copied

variable {L : Layout} {d p i w va : ℕ} {file : List UInt8} {oldsz newsz : ℕ}

theorem keeps_load : Keeps copied (load p i) := fun _ => rfl

theorem keeps_store : Keeps copied (store p i w) := fun _ => rfl

theorem keeps_zeroPage : Keeps copied (zeroPage p) := fun _ => rfl

theorem keeps_kalloc : Keeps copied kalloc := by
  intro s
  unfold kalloc
  split <;> rfl

theorem keeps_kfree : Keeps copied (kfree L p) := .ite (.modify fun _ => rfl) (.halt _)

theorem keeps_walkpgdir {alloc : Bool} : Keeps copied (walkpgdir d va alloc) := by
  refine .bind keeps_load fun pde => .ite (.pure _) (.ite (.pure _) (.bind keeps_kalloc fun r => ?_))
  cases r with
  | none => exact .pure _
  | some t => exact .bind keeps_zeroPage fun _ => .bind keeps_store fun _ => .pure _

theorem keeps_mapFrom {last perm k a pa : ℕ} : Keeps copied (mapFrom d last perm k a pa) := by
  induction k generalizing a pa with
  | zero => exact .pure _
  | succ k ih =>
    refine .bind keeps_walkpgdir fun r => ?_
    cases r with
    | none => exact .pure _
    | some t =>
      exact .bind keeps_load fun pte => .ite (.halt _) (.bind keeps_store fun _ => .ite (.pure _) ih)

theorem keeps_mappages {size pa perm : ℕ} : Keeps copied (mappages d va size pa perm) :=
  keeps_mapFrom

theorem keeps_deallocFrom {oldsz k a : ℕ} : Keeps copied (deallocFrom L d oldsz k a) := by
  induction k generalizing a with
  | zero => exact .pure _
  | succ k ih =>
    refine .ite (.bind keeps_walkpgdir fun r => ?_) (.pure _)
    cases r with
    | none => exact ih
    | some t =>
      exact .bind keeps_load fun pte => .ite
        (.ite (.halt _) (.bind keeps_kfree fun _ => .bind keeps_store fun _ => ih)) ih

theorem keeps_deallocuvm : Keeps copied (deallocuvm L d oldsz newsz) :=
  .ite (.pure _) (.bind keeps_deallocFrom fun _ => .pure _)

theorem keeps_allocFrom {oldsz newsz k a : ℕ} : Keeps copied (allocFrom L d oldsz newsz k a) := by
  induction k generalizing a with
  | zero => exact .pure _
  | succ k ih =>
    refine .bind keeps_kalloc fun r => ?_
    cases r with
    | none => exact .bind keeps_deallocuvm fun _ => .pure _
    | some mem =>
      exact .bind keeps_zeroPage fun _ => .bind keeps_mappages fun ok => .ite ih
        (.bind keeps_deallocuvm fun _ => .bind keeps_kfree fun _ => .pure _)

theorem keeps_allocuvm : Keeps copied (allocuvm L d oldsz newsz) :=
  .ite (.pure _) (.ite (.pure _) keeps_allocFrom)

theorem keeps_freeTables {is : List ℕ} : Keeps copied (freeTables L d is) := by
  induction is with
  | nil => exact .pure _
  | cons i is ih => exact .bind keeps_load fun pde => .ite (.bind keeps_kfree fun _ => ih) ih

theorem keeps_freevm : Keeps copied (freevm L d) :=
  .ite (.halt _) (.bind keeps_deallocuvm fun _ => .bind keeps_freeTables fun _ => keeps_kfree)

theorem keeps_mapKernel {ks : List Kmap} : Keeps copied (mapKernel d ks) := by
  induction ks with
  | nil => exact .pure _
  | cons k ks ih => exact .bind keeps_mappages fun ok => .ite ih (.pure _)

theorem keeps_setupkvm : Keeps copied (setupkvm L) := by
  refine .bind keeps_kalloc fun r => ?_
  cases r with
  | none => exact .pure _
  | some d =>
    exact .bind keeps_zeroPage fun _ => .bind keeps_mapKernel fun ok =>
      .ite (.pure _) (.bind keeps_freevm fun _ => .pure _)

theorem keeps_loadFrom {addr offset sz k i : ℕ} :
    Keeps copied (loadFrom file d addr offset sz k i) := by
  induction k generalizing i with
  | zero => exact .pure _
  | succ k ih =>
    refine .ite (.bind keeps_walkpgdir fun r => ?_) (.pure _)
    cases r with
    | none => exact .halt _
    | some t =>
      refine .bind keeps_load fun pte => ?_
      dsimp only
      split
      · exact .pure _
      · exact .bind (.modify fun _ => rfl) fun _ => .ite (.pure _) ih

theorem keeps_loaduvm {addr offset sz : ℕ} : Keeps copied (Kmem.loaduvm file d addr offset sz) :=
  .ite (.halt _) keeps_loadFrom

theorem keeps_loadSegments {k off sz : ℕ} : Keeps copied (loadSegments L file d k off sz) := by
  induction k generalizing off sz with
  | zero => exact .pure _
  | succ k ih =>
    unfold loadSegments
    split
    · exact .pure _
    · exact .ite (.pure _) (.ite ih (.ite (.pure _) (.ite (.pure _) (.bind keeps_allocuvm fun _ =>
        .ite (.pure _) (.ite (.pure _) (.bind keeps_loaduvm fun _ => .ite ih (.pure _)))))))

end Copied

variable {L : Layout} {s0 s : Kmem} {own0 own : ℕ → Role} {c : Caller} {d sz v : ℕ}

/-! The new page directory. -/

theorem kernel_flags {x perm : ℕ} (h : perm &&& PTE_U = 0) :
    (x * PGSIZE ||| perm ||| PTE_P) &&& PTE_U = 0 := by
  have hx : x * PGSIZE &&& PTE_U = 0 := by
    refine Nat.eq_of_testBit_eq fun i => ?_
    rw [Nat.testBit_and, show PGSIZE = 2 ^ 12 from rfl, show PTE_U = 2 ^ 2 from rfl,
      Nat.testBit_mul_two_pow, Nat.testBit_two_pow, Nat.zero_testBit]
    by_cases hi : 2 = i
    · simp [← hi]
    · simp [hi]
  rw [Nat.and_or_distrib_right, Nat.and_or_distrib_right, hx, h]
  rfl

theorem kmap_perm {m : Kmap} (hm : m ∈ kmap L) : m.perm &&& PTE_U = 0 := by
  simp only [kmap, List.mem_cons, List.not_mem_nil, or_false] at hm
  rcases hm with rfl | rfl | rfl | rfl <;> simp [PTE_W, PTE_U]

theorem exists_kmap (hL : L.data < PHYSTOP / PGSIZE) (hv : 2 ^ 19 ≤ v) (hv' : v < 2 ^ 20)
    (htab : ¬NoTable (v * PGSIZE)) :
    ∃ m ∈ kmap L, m.virt ≤ v * PGSIZE ∧ v * PGSIZE < m.virt + m.size := by
  have hgt := L.data_gt
  simp only [NoTable, kmap, List.mem_cons, List.not_mem_nil, or_false, exists_eq_or_imp,
    exists_eq_left, Kmap.size, KERNLINK, KERNBASE, EXTMEM, PHYSTOP, DEVSPACE, PGSIZE] at *
  omega

theorem gap_kmap {m : Kmap} (hm : m ∈ kmap L) {i : ℕ} (hi : 568 ≤ i) (hi' : i < 1016)
    (hle : m.virt ≤ v * PGSIZE) (hlt : v * PGSIZE < m.virt + m.size) : i ≠ v / 1024 := by
  have hgt := L.data_gt
  have hdata := L.data_le.trans L.endp_le
  simp only [kmap, List.mem_cons, List.not_mem_nil, or_false] at hm
  rcases hm with rfl | rfl | rfl | rfl <;>
    simp only [Kmap.size, KERNLINK, KERNBASE, EXTMEM, PHYSTOP, DEVSPACE, PGSIZE] at * <;> omega

theorem building_of_kmap (hfree : own0 d = .free) (ho : Owned L s own) (hno : NoHeld own)
    (hd : own d = .dir) (hg : Grow d s0 s (Function.update own0 d .dir) own)
    (hall : ∀ m ∈ kmap L, m.Mapped s d)
    (hout : ∀ v < 2 ^ 20, (∀ m ∈ kmap L, ¬(m.virt ≤ v * PGSIZE ∧ v * PGSIZE < m.virt + m.size)) →
      s.mapped d v = none) : Building L s0 own0 d s own where
  free := hfree
  owned := ho
  noHeld := hno
  dir := hd
  grow := hg
  kernel v w _ hv' hw := by
    by_cases hin : ∃ m ∈ kmap L, m.virt ≤ v * PGSIZE ∧ v * PGSIZE < m.virt + m.size
    · obtain ⟨m, hm, hle, hlt⟩ := hin
      obtain ⟨u, k, q, hmaps⟩ := mapsPages_kmap (data_lt (p := d) ho (by simp [hd])) m hm
      have hentry := hall m hm v hle hlt
      rw [hmaps.phys, hmaps.virt, ← Nat.sub_mul, ← Nat.add_mul, hw, Option.some.injEq] at hentry
      rw [hentry]
      exact kernel_flags (kmap_perm hm)
    · rw [hout v hv' fun m hm e => hin ⟨m, hm, e⟩] at hw
      cases hw
  present v hv hv' htab := by
    obtain ⟨m, hm, hle, hlt⟩ := exists_kmap (data_lt (p := d) ho (by simp [hd])) hv hv' htab
    simp [hall m hm v hle hlt]

section Rules

variable {E : KmemStop → Caller → Prop} {Q : Option (ℕ × ℕ × ℕ) → Caller → Prop}
  {R : Unit → Caller → Prop} {argv : List (List UInt8)} {path : List UInt8}

theorem wp_onMem {α : Type} {m : KmemM α} {R : α → Caller → Prop} : wp (Caller.onMem m) R E c ↔
    wp m (fun a k => R a { c with kmem := k }) (fun e k => E e { c with kmem := k }) c.kmem :=
  wp_zoom

theorem wp_beginOp : wp Caller.beginOp R E c ↔ R () { c with ops := c.ops + 1 } := Iff.rfl

theorem wp_endOp : wp Caller.endOp R E c ↔ R () { c with ops := c.ops - 1 } := Iff.rfl

theorem wp_namei {file : List UInt8} {R : Option (List UInt8) → Caller → Prop} :
    wp (Caller.namei (some file)) R E c ↔ R (some file) { c with refs := c.refs + 1 } := Iff.rfl

theorem wp_ilock : wp Caller.ilock R E c ↔ R () { c with locked := true } := Iff.rfl

theorem wp_iunlockput : wp Caller.iunlockput R E c ↔
    R () { c with locked := false, refs := c.refs - 1 } := Iff.rfl

def Restored (L : Layout) (s0 : Kmem) (own0 : ℕ → Role) (k : Kmem) : Prop :=
  Owned L k own0 ∧ ∀ p, own0 p ≠ .free → k.mem p = s0.mem p

theorem wp_bad {ip : Bool} (h0 : Owned L s0 own0) (hno0 : NoHeld own0)
    (h : Building L s0 own0 d c.kmem own) (hR : ∀ k, Restored L s0 own0 k →
      R () (if ip then { c with kmem := k, locked := false, refs := c.refs - 1, ops := c.ops - 1 }
        else { c with kmem := k })) : wp (Caller.bad L (some d) ip) R E c := by
  unfold Caller.bad
  dsimp only
  rw [wp_bind, wp_onMem]
  refine wp_freevm h.owned h.dir fun k hk hmem => ?_
  rw [released_of_grow h0 h.free hno0 h.grow h.noHeld] at hk hmem
  have hback := hR k ⟨hk, fun p hp => by
    rw [hmem p hp, (h.grow.kept_of_built h0 h.free hno0 hp).2]⟩
  cases ip with
  | true => exact hback
  | false => exact hback

theorem wp_stackPages {entry : ℕ} (h0 : Owned L s0 own0) (hno0 : NoHeld own0)
    (h : Building L s0 own0 d c.kmem own) (hsz : sz ≤ KERNBASE) (hpages : c.kmem.UserPages d sz)
    (hgap : ∀ i, 568 ≤ i → i < 1016 → ¬present (c.kmem.word d i))
    (hfail : ∀ k, Restored L s0 own0 k → (c.kmem.fails = [] → PGROUNDUP sz + 2 * PGSIZE < KERNBASE →
      Exhausted L d (fun v => v * PGSIZE < PGROUNDUP sz + 2 * PGSIZE) s0
        (Function.update own0 d .dir)) → Q none { c with kmem := k })
    (hok : ∀ k own1, StackReady L s0 own0 d k own1 (PGROUNDUP sz + 2 * PGSIZE) →
      k.copied = c.kmem.copied →
      Q (some (entry, d, PGROUNDUP sz + 2 * PGSIZE)) { c with kmem := k }) :
    wp (Caller.stackPages L entry d sz) Q E c := by
  have hle : PGROUNDUP sz ≤ KERNBASE := by
    simp only [PGROUNDUP, PGSIZE, KERNBASE] at hsz ⊢
    omega
  have hround : PGROUNDUP sz % PGSIZE = 0 := Nat.mul_mod_left ..
  have hsame : ∀ v, v * PGSIZE < PGROUNDUP sz ↔ v * PGSIZE < sz := by
    intro v
    simp only [PGROUNDUP, PGSIZE, KERNBASE] at hsz ⊢
    omega
  unfold Caller.stackPages
  generalize PGROUNDUP sz = sz1 at hle hround hsame hfail hok ⊢
  have hpages1 : c.kmem.UserPages d sz1 := fun v hv => (hpages v hv).trans (hsame v).symm
  have hnew : (sz1 + 2 * PGSIZE) % 2 ^ 32 = sz1 + 2 * PGSIZE := by
    simp only [PGSIZE, KERNBASE] at hle ⊢
    omega
  dsimp only
  rw [hnew, wp_bind, wp_onMem]
  generalize hn : sz1 + 2 * PGSIZE = n at hfail hok ⊢
  refine keeps_allocuvm.wp (wp_allocuvm_building h hle hpages1 (fun k own1 h1 hexh _ => ?_)
    fun k own1 sz2 h1 hpages2 hle2 hlt hmax hdirs _ huser hcop => ?_)
  · rw [if_pos rfl, wp_bind]
    refine wp_bad h0 hno0 h1 fun k' hk' => hfail k' hk' fun hnil hlt => ?_
    refine .of_grow h.grow (fun q v hq => .inr ?_) ((hexh hnil hlt).mono fun v hv => hv.2)
    obtain ⟨hv, w, hw, -⟩ := h.owned.mapped_of_user hq
    have := (hpages1 v hv).mp (by simp [hw])
    omega
  · rw [← hn, max_eq_right (Nat.le_add_right ..), hn] at hmax
    subst hmax
    have harith : sz2 ≠ 0 ∧ sz2 - 2 * PGSIZE = sz1 / PGSIZE * PGSIZE ∧
        sz2 / PGSIZE - 2 = sz1 / PGSIZE ∧ sz2 / PGSIZE - 1 = sz1 / PGSIZE + 1 ∧
        sz1 / PGSIZE < 2 ^ 19 ∧ sz1 / PGSIZE * PGSIZE < sz2 ∧ sz2 % PGSIZE = 0 ∧
        2 * PGSIZE ≤ sz2 := by
      simp only [PGSIZE, KERNBASE] at hround hn hlt ⊢
      omega
    obtain ⟨hpos, hg, hg2, hg1, hg19, hgm, hround2, hroom⟩ := harith
    rw [if_neg hpos, hg, wp_bind, wp_onMem]
    refine wp_clearpteu h1 hg19 ((hpages2 _ hg19).mpr hgm) fun k1 h2 hkeep hself hguard hcop1 hw => ?_
    have hpages3 : k1.UserPages d sz2 := by
      intro v hv
      by_cases hvg : v = sz1 / PGSIZE
      · subst hvg
        exact ⟨fun _ => hgm, fun _ => hself⟩
      · rw [hkeep v (by omega) hvg]
        exact hpages2 v hv
    refine hok k1 own1 ⟨h2, h0, hle2, hround2, hroom, hpages3, by rwa [hg2], ?_, fun i hi hi' => ?_⟩
      (hcop1.trans hcop)
    · rw [hg1, hkeep _ (by omega) (by omega)]
      refine huser _ ?_ ?_ <;>
      · simp only [PGSIZE] at hround hn ⊢
        omega
    · rw [hw, hdirs i (by omega)]
      exact hgap i hi hi'

theorem fieldAt_take {w n k : ℕ} (bs : List UInt8) (h : k + w ≤ n) :
    fieldAt w (bs.take n) k = fieldAt w bs k := by
  rw [fieldAt, fieldAt, List.drop_take, List.take_take, min_eq_left (by omega)]

theorem programSize_le {file : List UInt8} {top k off : ℕ} (h : WellFormed file top k off)
    (hsz : sz ≤ top) : programSize file k off sz ≤ top := by
  induction k generalizing off sz with
  | zero => exact hsz
  | succ k ih =>
    obtain ⟨ph, hread, -, hseg, hrest⟩ := h
    rw [programSize_succ hread]
    refine ih hrest ?_
    split_ifs with htype
    · exact hsz
    · exact max_le hsz ((Nat.mod_le _ _).trans (hseg (not_not.mp htype)).2.2.1)

/-- The program in `file` ends below `top`, and there is memory for it and its stack. -/
structure ProgramFits (s : Kmem) (file : List UInt8) (top : ℕ) : Prop extends Loadable file top where
  below : top + 3 * PGSIZE ≤ KERNBASE
  fails : s.fails = []
  pages : 1028 + (top + PGSIZE - 1) / PGSIZE < s.freelist.length

/-- `exec` up to the arguments, with any file: the new image is there, or everything is as it was.
It does not fail for a program that fits. -/
theorem wp_newImage {file : Option (List UInt8)} (h0 : Owned L c.kmem own0) (hno0 : NoHeld own0)
    (hlock : c.locked = false) (hfail : ∀ k, Restored L c.kmem own0 k →
      (∀ bytes top, file = some bytes → ¬ProgramFits c.kmem bytes top) → Q none { c with kmem := k })
    (hok : ∀ bytes entry d k own1, file = some bytes →
      StackReady L c.kmem own0 d k own1 (imageSize bytes) → k.copied = c.kmem.copied →
      Q (some (entry, d, imageSize bytes)) { c with kmem := k }) :
    wp (Caller.newImage L file) Q E c := by
  have hrefl : Restored L c.kmem own0 c.kmem := ⟨h0, fun _ _ => rfl⟩
  unfold Caller.newImage
  rw [wp_bind, wp_beginOp, wp_bind]
  cases file with
  | none => exact hfail c.kmem hrefl fun _ _ he => nomatch he
  | some file =>
    -- the inode is locked from here to the end of the program headers
    rw [wp_namei]
    dsimp only
    rw [wp_bind, wp_ilock]
    dsimp only
    set c1 : Caller := { c with ops := c.ops + 1, refs := c.refs + 1, locked := true } with hc1
    have hbad : ∀ k, Restored L c.kmem own0 k → (∀ top, ¬ProgramFits c.kmem file top) →
        Q none { c1 with kmem := k, locked := false, refs := c1.refs - 1, ops := c1.ops - 1 } := by
      intro k hk hnot
      have := hfail k hk fun bytes top he => Option.some.inj he ▸ hnot top
      rwa [← hlock]
    -- memory that fits the program is not exhausted by it
    have hplenty : ∀ {top d n}, ProgramFits c.kmem file top → n ≤ (top + PGSIZE - 1) / PGSIZE + 2 →
        ∀ {R : ℕ → Prop}, (∀ v, R v → v < n) →
        ¬Exhausted L d R c.kmem (Function.update own0 d .dir) := fun hf hn _ hR =>
      not_exhausted h0 (by have := hf.pages; omega) hR
    rcases hread : readFile file 0 ELFHDRSIZE with - | elf
    · rw [readFile, if_neg (by simp)] at hread
      cases hread
    · have helf : elf = file.take ELFHDRSIZE := by
        rw [readFile, if_neg (by simp)] at hread
        exact (Option.some.inj hread).symm
      have hfield : ∀ {w k}, k + w ≤ ELFHDRSIZE → fieldAt w elf k = fieldAt w file k := fun hle => by
        rw [helf, fieldAt_take file hle]
      dsimp only
      split_ifs with hhead
      · refine hbad c.kmem hrefl fun top hf => ?_
        rcases hhead with hlen | hmagic
        · rw [helf, List.length_take] at hlen
          exact hlen (min_eq_left hf.header)
        · exact hmagic ((hfield (by decide)).trans hf.magic)
      · rw [hfield (by decide), hfield (by decide), wp_bind, wp_onMem]
        refine keeps_setupkvm.wp (wp_setupkvm h0 hno0 (fun k hk hmem hwhy _ =>
            hbad k ⟨hk, hmem⟩ fun top hf => ?_)
          fun k own1 d hfree ho hno hd hg hnone hall hout hfails habsent hcop => ?_)
        · rcases hwhy hf.fails with hempty | ⟨d, -, hexh⟩
          · obtain ⟨p, hp⟩ := List.exists_mem_of_length_pos (Nat.zero_lt_of_lt hf.pages)
            rw [h0.free, ← hk.free, hempty] at hp
            cases hp
          · exact hplenty hf (Nat.zero_le _) (fun _ => False.elim) hexh
        have h1 := building_of_kmap hfree ho hno hd hg hall hout
        have hpages : k.UserPages d 0 := by
          intro v hv
          simp [hnone v hv]
        dsimp only
        rw [wp_bind, wp_onMem]
        refine keeps_loadSegments.wp (wp_loadSegments h0 h1 (Nat.zero_le _) hpages
          (fun k2 own2 h2 hexh _ => ?_) fun k2 own2 sz h2 hpages2 hsz hsize hdirs hfails2 hcop2 => ?_)
        · dsimp only
          rw [wp_bind]
          refine wp_bad (c := { c1 with kmem := k2 }) h0 hno0 h2 fun k' hk' => hbad k' hk' fun top hf =>
            hplenty hf (Nat.le_add_right _ _) (fun v hv => ?_)
              (hexh top hf.segments ?_ (Nat.zero_le _) hf.length (hfails hf.fails))
          · simp only [PGSIZE] at hv ⊢
            omega
          · have := hf.below
            simp only [PGSIZE] at this
            omega
        · dsimp only
          rw [wp_bind, wp_iunlockput, wp_bind, wp_endOp]
          have himage : PGROUNDUP sz + 2 * PGSIZE = imageSize file := by
            rw [hsize, imageSize]
          refine wp_stackPages (c := { c1 with
            kmem := k2, locked := false, refs := c1.refs - 1, ops := c1.ops - 1 }) h0 hno0 h2 hsz
            hpages2 (fun i hi hi' => ?_) (fun k3 hk3 hexh => hbad k3 hk3 fun top hf => ?_)
            fun k3 own3 h3 hcop3 => ?_
          · rw [hdirs i (by omega)]
            exact habsent i fun m hm v => gap_kmap hm hi hi'
          · have htop := programSize_le hf.segments (Nat.zero_le _)
            rw [← hsize] at htop
            have hbelow := hf.below
            refine hplenty hf le_rfl (fun v hv => ?_) (hexh (hfails2 (hfails hf.fails)) ?_) <;>
            · simp only [PGROUNDUP, PGSIZE, KERNBASE] at *
              omega
          · have := hok file (fieldAt 4 elf 24) d k3 own3 rfl (himage ▸ h3)
              (by rw [hcop3, hcop2, hcop])
            rw [himage]
            rwa [← hlock]

/-- `exec` when the new image is there: a null pointer is used exactly when an argument gets to an
address without a page table. -/
theorem wp_execArgs {entry : ℕ} {Q : ℤ → Caller → Prop} (h : StackReady L s0 own0 d c.kmem own sz)
    (hno0 : NoHeld own0) (hdir : own0 c.pgdir = .dir) (hargs : ∀ arg ∈ argv, arg.length < 2 ^ 31)
    (hfault : ∀ c', ¬Lands sz sz argv → E .fault c')
    (hfail : ∀ k, Restored L s0 own0 k → (argv.length ≤ MAXARG →
      Lands sz sz argv ∧ PGSIZE < stackBytes argv) → Q (-1) { c with kmem := k })
    (hok : ∀ k sp l, k.copied = c.kmem.copied ++ l → l ≠ [] → Within l (sz - PGSIZE) sz →
      Lands sz sz argv → Q 0 { c with
        kmem := k, name := (Caller.lastElem path path).take 15, pgdir := d, sz := sz, eip := entry,
        esp := sp }) :
    wp (Caller.onMem (pushArgs d sz argv) >>= fun r => match r with
      | none => do
        Caller.bad L (some d) false
        return -1
      | some sp => Caller.commit L path d sz entry sp) Q E c := by
  rw [wp_bind, wp_onMem]
  refine wp_pushArgs h hargs (fun k hl => hfault _ hl) (fun k hf hl => ?_)
    fun k l sp hf hl hne hin hlands => ?_
  · dsimp only
    rw [wp_bind]
    exact wp_bad h.old hno0 (h.fill hf).toBuilding fun k' hk' => hfail k' hk' hl
  · have h3 := h.fill hf
    have hold : own c.pgdir = .dir :=
      (h3.grow.kept_of_built h.old h.free hno0 (by simp [hdir])).1.trans hdir
    dsimp only
    unfold Caller.commit
    rw [wp_bind, wp_get, wp_bind, wp_modify, wp_bind, wp_onMem]
    refine keeps_freevm.wp (wp_freevm h3.owned hold fun k3 _ _ hcop3 => ?_)
    exact hok k3 sp l (hcop3.trans hl) hne hin hlands

/-- `exec` as a whole: the two reasons for -1 are that there is no new image, or no room for the
arguments on the stack. -/
theorem wp_exec {file : Option (List UInt8)} {Q : ℤ → Caller → Prop} (h : Owned L c.kmem own)
    (hno : NoHeld own) (hdir : own c.pgdir = .dir) (hlock : c.locked = false)
    (hargs : ∀ arg ∈ argv, arg.length < 2 ^ 31)
    (hfault : ∀ c' bytes x c1, file = some bytes → Caller.newImage L file c = .ok (some x) c1 →
      imageSize bytes ≤ KERNBASE → ¬Lands (imageSize bytes) (imageSize bytes) argv → E .fault c')
    (hfail : ∀ k, Restored L c.kmem own k → (∀ bytes, file = some bytes → argv.length ≤ MAXARG →
      (∀ x c1, Caller.newImage L file c = .ok (some x) c1 →
        Lands (imageSize bytes) (imageSize bytes) argv) ∧
      ∀ top, ProgramFits c.kmem bytes top → Lands (imageSize bytes) (imageSize bytes) argv ∧
        PGSIZE < stackBytes argv) → Q (-1) { c with kmem := k })
    (hok : ∀ bytes entry d k sp l, file = some bytes → k.copied = c.kmem.copied ++ l → l ≠ [] →
      Within l (imageSize bytes - PGSIZE) (imageSize bytes) →
      Lands (imageSize bytes) (imageSize bytes) argv → Q 0 { c with
        kmem := k, name := (Caller.lastElem path path).take 15, pgdir := d, sz := imageSize bytes,
        eip := entry, esp := sp }) : wp (Caller.exec L file path argv) Q E c := by
  unfold Caller.exec
  rw [wp_bind]
  refine .of_run (wp_newImage h hno hlock (fun k hk hnot hrun => ?_)
    fun bytes entry d k own1 he hready hcop hrun => ?_)
  · refine hfail k hk fun bytes he _ => ⟨fun x c1 hsome => ?_, fun top hf => absurd hf (hnot bytes top he)⟩
    rw [hrun] at hsome
    cases hsome
  · refine wp_execArgs (c := { c with kmem := k }) hready hno hdir hargs
      (fun c' hnot => hfault c' bytes _ _ he hrun hready.size hnot)
      (fun k' hk' hwhy => hfail k' hk' fun bytes' he' hargc => ?_)
      fun k' sp l hl hne hin hlands => hok bytes entry d k' sp l he (hl.trans (by rw [hcop])) hne hin
        hlands
    obtain rfl := Option.some.inj (he.symm.trans he')
    exact ⟨fun _ _ _ => (hwhy hargc).1, fun _ _ => hwhy hargc⟩

end Rules

/-- `exec` returns for every file and every failure of `kalloc`. It has left the transaction and
released the inode, and if it fails nothing of the process has changed and every page it took is
back on the free list. Arguments up to 32 MB leave `sp` where there are page tables. A program that
fits in memory, with arguments that fit in the stack page, is run. -/
theorem exec_robust {file : Option (List UInt8)} {path : List UInt8} {argv : List (List UInt8)}
    (h : Owned L c.kmem own) (hno : NoHeld own) (hdir : own c.pgdir = .dir)
    (hlock : c.locked = false) (hargs : ∀ arg ∈ argv, arg.length < 2 ^ 25) :
    ∃ r c', Caller.exec L file path argv c = .ok r c' ∧ c'.ops = c.ops ∧ c'.refs = c.refs ∧
      c'.locked = false ∧
      (r = 0 ∨ r = -1 ∧ c'.pgdir = c.pgdir ∧ c'.sz = c.sz ∧ c'.eip = c.eip ∧ c'.esp = c.esp ∧
        c'.name = c.name ∧ ∀ p, p ∈ c'.kmem.freelist ↔ p ∈ c.kmem.freelist) ∧
      ∀ bytes top, file = some bytes → ProgramFits c.kmem bytes top → argv.length ≤ MAXARG →
        stackBytes argv ≤ PGSIZE → r = 0 := by
  have hsame : ∀ k, Restored L c.kmem own k → ∀ p, p ∈ k.freelist ↔ p ∈ c.kmem.freelist :=
    fun k hk p => by rw [hk.1.free, h.free]
  refine (wp_exec h hno hdir hlock (fun arg ha => (hargs arg ha).trans (by decide))
    (fun _ bytes x c1 _ _ hsize hnot => hnot (lands_of_short hargs hsize le_rfl)) (fun k hk hwhy => ⟨rfl, rfl, hlock,
      .inr ⟨rfl, rfl, rfl, rfl, rfl, rfl, hsame k hk⟩, fun bytes top he hf hargc hbytes =>
        absurd ((hwhy bytes he hargc).2 top hf).2 (not_lt.mpr hbytes)⟩)
    fun _ _ _ _ _ _ _ _ _ _ _ => ⟨rfl, rfl, hlock, .inl rfl, fun _ _ _ _ _ _ => rfl⟩).exists_ok

def smallElf : List UInt8 :=
  [127, 69, 76, 70] ++ List.replicate 24 0 ++ [52, 0, 0, 0] ++ List.replicate 12 0 ++ [1, 0] ++
    List.replicate 6 0 ++ [1, 0, 0, 0, 84, 0, 0, 0] ++ List.replicate 8 0 ++ [4, 0, 0, 0, 8, 0, 0, 0] ++
    List.replicate 8 0 ++ [235, 254, 144, 144]

theorem loadable_smallElf : Loadable smallElf 8 where
  header := by decide
  magic := by decide
  length := by decide
  segments := by
    have hnum : fieldAt 2 smallElf 44 = 1 := by decide
    have hoff : fieldAt 4 smallElf 28 = 52 := by decide
    rw [hnum, hoff]
    refine ⟨(smallElf.drop 52).take 32, ?_, ?_, fun _ => ⟨?_, ?_, ?_, ?_, ?_⟩, trivial⟩ <;> decide

theorem Roomy.programFits (h : Roomy 2 s own) {k : Kmem} (hfree : k.freelist = s.freelist)
    (hfails : k.fails = s.fails) : ProgramFits k smallElf 8 where
  toLoadable := loadable_smallElf
  below := by decide
  fails := hfails.trans h.fails
  pages := by
    have := h.length_freelist
    rw [hfree]
    simp only [PGSIZE]
    omega

theorem exec_robust_smallElf : ∃ c c' : Caller, c.locked = false ∧
    Caller.exec wideLayout (some smallElf) [47, 97] [[97]] c = .ok 0 c' ∧ c'.ops = c.ops ∧
      c'.refs = c.refs ∧ c'.locked = false := by
  obtain ⟨s, own, h⟩ := exists_roomy (n := 2) (by decide)
  obtain ⟨r, c', hrun, hops, hrefs, hlock, -, hfits⟩ :=
    @exec_robust _ _ ⟨s, 257, 2 * PGSIZE, 0, 0, [], 0, 0, false⟩ (some smallElf) [47, 97] [[97]]
      h.owned h.noHeld h.dir rfl (by simp)
  obtain rfl := hfits smallElf 8 rfl (h.programFits rfl rfl) (by decide) (by decide)
  exact ⟨_, c', rfl, hrun, hops, hrefs, hlock⟩

end Xv6
