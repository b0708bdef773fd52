import Xv6.Spec.Umalloc

/-! The free list of `umalloc.c` is a ring in address order whose blocks never touch, and no
memory is lost or handed out twice. -/

open Function List

namespace Xv6.Umalloc

open LinkList

/-! ### Blocks in order -/

def Below (a b : Block) : Prop := a.stop < b.addr

def Apart (a b : Block) : Prop := a.stop ≤ b.addr ∨ b.stop ≤ a.addr

def Block.join (a b : Block) : Block := ⟨a.addr, a.size + b.size⟩

variable {a b c x : Block} {bs l u r : List Block}

theorem stop_eq (b : Block) : b.stop = b.addr + 8 * b.size := rfl

theorem addr_le_stop (b : Block) : b.addr ≤ b.stop := Nat.le_add_right _ _

theorem addr_lt_stop (h : 1 ≤ b.size) : b.addr < b.stop := by
  rw [stop_eq]
  omega

theorem join_stop (h : a.stop = b.addr) : (a.join b).stop = b.stop := by
  simp only [Block.join, stop_eq] at *
  omega

theorem Below.trans (hab : Below a b) (hbc : Below b c) : Below a c :=
  lt_of_lt_of_le hab (le_trans (addr_le_stop b) hbc.le)

theorem Below.addr_lt (h : Below a b) : a.addr < b.addr := lt_of_le_of_lt (addr_le_stop a) h

theorem Apart.symm (h : Apart a b) : Apart b a := Or.symm h

instance : Std.Symm Apart := ⟨fun _ _ => Apart.symm⟩

theorem Below.apart (h : Below a b) : Apart a b := .inl h.le

theorem Apart.addr_ne (h : Apart a b) (ha : 1 ≤ a.size) (hb : 1 ≤ b.size) : a.addr ≠ b.addr := by
  have := addr_lt_stop ha
  have := addr_lt_stop hb
  rcases h with h | h <;> omega

theorem Apart.join {c d o : Block} (hc : Apart c o) (hd : Apart d o) (ho : 1 ≤ o.size)
    (hcd : c.stop = d.addr) : Apart (c.join d) o := by
  have hstop := join_stop hcd
  have := addr_lt_stop ho
  rcases hc with hc | hc
  · rcases hd with hd | hd
    · exact .inl (hstop.trans_le hd)
    · omega
  · exact .inr hc

def total (l : List Block) : ℕ := (l.map Block.size).sum

@[simp] theorem total_nil : total [] = 0 := rfl

@[simp] theorem total_cons (b : Block) (l : List Block) : total (b :: l) = b.size + total l := by
  simp [total]

@[simp] theorem total_append (l l' : List Block) : total (l ++ l') = total l + total l' := by
  simp [total]

theorem length_le_total (h : ∀ b ∈ l, 1 ≤ b.size) : l.length ≤ total l := by
  induction l with
  | nil => simp
  | cons b l ih =>
    have hb := h b mem_cons_self
    have := ih fun c hc => h c (mem_cons_of_mem _ hc)
    simp only [length_cons, total_cons]
    omega

theorem exists_split {p : ℕ} (hsorted : (x :: l).Pairwise Below) (hx : x.addr < p)
    (hne : ∀ b ∈ l, b.addr ≠ p) :
    ∃ u y r, x :: l = u ++ y :: r ∧ y.addr < p ∧ (∀ b ∈ u, b.addr < p) ∧ ∀ b ∈ r, p < b.addr := by
  induction l generalizing x with
  | nil => exact ⟨[], x, [], rfl, hx, nofun, nofun⟩
  | cons b l ih =>
    rw [pairwise_cons] at hsorted
    rcases Nat.lt_or_gt_of_ne (hne b mem_cons_self) with hb | hb
    · obtain ⟨u, y, r, heq, hy, hu, hr⟩ := ih hsorted.2 hb fun c hc =>
        hne c (mem_cons_of_mem _ hc)
      refine ⟨x :: u, y, r, by rw [heq]; rfl, hy, ?_, hr⟩
      intro c hc
      rcases mem_cons.mp hc with rfl | hc
      · exact hx
      · exact hu c hc
    · refine ⟨[], x, b :: l, rfl, hx, nofun, ?_⟩
      intro c hc
      rcases mem_cons.mp hc with rfl | hc
      · exact hb
      · have hbelow := rel_of_pairwise_cons hsorted.2 hc
        exact hb.trans hbelow.addr_lt

/-! ### The ring in memory -/

/-- The links of the blocks in memory, from one to the next and then on to `z`, and their sizes. -/
structure Chained (mem : ℕ → Header) (l : List Block) (z : ℕ) : Prop where
  links : Links (fun a => (mem a).ptr) (l.map Block.addr) z
  size : ∀ b ∈ l, (mem b.addr).size = b.size

variable {mem : ℕ → Header} {z : ℕ}

theorem chained_append {l l' : List Block} :
    Chained mem (l ++ l') z ↔ Chained mem l (first (l'.map Block.addr) z) ∧ Chained mem l' z := by
  constructor
  · rintro ⟨hlinks, hsize⟩
    rw [map_append, links_append] at hlinks
    exact ⟨⟨hlinks.1, fun b hb => hsize b (mem_append_left _ hb)⟩,
      hlinks.2, fun b hb => hsize b (mem_append_right _ hb)⟩
  · rintro ⟨⟨hlinks, hsize⟩, hlinks', hsize'⟩
    refine ⟨by rw [map_append, links_append]; exact ⟨hlinks, hlinks'⟩, fun b hb => ?_⟩
    exact (mem_append.mp hb).elim (hsize b) (hsize' b)

theorem chained_cons : Chained mem (b :: l) z ↔
      mem b.addr = ⟨first (l.map Block.addr) z, b.size⟩ ∧ Chained mem l z := by
  constructor
  · rintro ⟨⟨hptr, hlinks⟩, hsize⟩
    refine ⟨?_, hlinks, fun c hc => hsize c (mem_cons_of_mem _ hc)⟩
    rw [← hptr, ← hsize b mem_cons_self]
  · rintro ⟨hb, hlinks, hsize⟩
    refine ⟨⟨by simp [hb], hlinks⟩, fun c hc => ?_⟩
    rcases mem_cons.mp hc with rfl | hc
    · rw [hb]
    · exact hsize c hc

theorem Chained.congr {mem mem' : ℕ → Header} (h : Chained mem l z)
    (hmem : ∀ b ∈ l, mem' b.addr = mem b.addr) : Chained mem' l z := by
  refine ⟨h.links.congr ?_, fun b hb => by rw [hmem b hb]; exact h.size b hb⟩
  intro p hp
  obtain ⟨b, hb, rfl⟩ := mem_map.mp hp
  rw [hmem b hb]

/-! ### Joining blocks -/

/-- `l'` has the blocks of `l`, some that touch joined: it has their units, and whatever holds of
the blocks of `l` and of blocks joined from such. -/
structure Merged (l l' : List Block) : Prop where
  total : total l' = total l
  length : l'.length ≤ l.length
  inherit : ∀ Q : Block → Prop, (∀ a b, Q a → Q b → a.stop = b.addr → Q (a.join b)) →
    (∀ b ∈ l, Q b) → ∀ b ∈ l', Q b

theorem Merged.refl (l : List Block) : Merged l l := ⟨rfl, le_rfl, fun _ _ h => h⟩

theorem Merged.cons {l l' : List Block} (h : Merged l l') (b : Block) :
    Merged (b :: l) (b :: l') := by
  refine ⟨by simp [h.total], by simp [h.length], fun Q hjoin hQ c hc => ?_⟩
  rcases mem_cons.mp hc with rfl | hc
  · exact hQ c mem_cons_self
  · exact h.inherit Q hjoin (fun d hd => hQ d (mem_cons_of_mem _ hd)) c hc

theorem Merged.join (h : a.stop = b.addr) (l : List Block) :
    Merged (a :: b :: l) (a.join b :: l) := by
  refine ⟨by simp [Block.join, Nat.add_assoc], by simp, fun Q hjoin hQ c hc => ?_⟩
  rcases mem_cons.mp hc with rfl | hc
  · exact hjoin a b (hQ a (by simp)) (hQ b (by simp)) h
  · exact hQ c (by simp [hc])

theorem Merged.trans {l1 l2 l3 : List Block} (h : Merged l1 l2) (h' : Merged l2 l3) :
    Merged l1 l3 :=
  ⟨h'.total.trans h.total, h'.length.trans h.length,
    fun Q hjoin hQ => h'.inherit Q hjoin (h.inherit Q hjoin hQ)⟩

theorem link_above (hchain : Chained mem r z)
    (hsorted : r.Pairwise Below) (hr : ∀ y ∈ r, b.stop ≤ y.addr) (hz : b.stop ≠ z) :
    ∃ c r', c.addr = b.addr ∧ b.size ≤ c.size ∧ r' <:+ r ∧ (c :: r').Pairwise Below ∧
      Merged (b :: r) (c :: r') ∧ (if b.stop = first (r.map Block.addr) z then
        (⟨(mem (first (r.map Block.addr) z)).ptr,
          b.size + (mem (first (r.map Block.addr) z)).size⟩ : Header)
      else ⟨first (r.map Block.addr) z, b.size⟩) = ⟨first (r'.map Block.addr) z, c.size⟩ := by
  cases r with
  | nil => exact ⟨b, [], rfl, le_rfl, suffix_rfl, by simp, .refl _, if_neg hz⟩
  | cons y r =>
    obtain ⟨hy, -⟩ := chained_cons.mp hchain
    rw [pairwise_cons] at hsorted
    simp only [map_cons, first_cons]
    by_cases hjoin : b.stop = y.addr
    · refine ⟨b.join y, r, rfl, Nat.le_add_right _ _, suffix_cons y r, ?_, .join hjoin r, ?_⟩
      · rw [pairwise_cons]
        exact ⟨fun d hd => by rw [Below, join_stop hjoin]; exact hsorted.1 d hd, hsorted.2⟩
      · rw [if_pos hjoin, hy]
        rfl
    · refine ⟨b, y :: r, rfl, le_rfl, suffix_rfl, ?_, .refl _, if_neg hjoin⟩
      have hby : Below b y := lt_of_le_of_ne (hr y mem_cons_self) hjoin
      rw [pairwise_cons, pairwise_cons]
      refine ⟨fun d hd => ?_, hsorted⟩
      rcases mem_cons.mp hd with rfl | hd
      · exact hby
      · exact hby.trans (hsorted.1 d hd)

structure Linked (mem : ℕ → Header) (u : List Block) (x b : Block) (r : List Block) (z : ℕ)
    (l : List Block) : Prop where
  chained : Chained (Heap.link mem b.addr x.addr) (u ++ l) z
  sorted : (u ++ l).Pairwise Below
  merged : Merged (x :: b :: r) l
  big : ∃ c ∈ l, b.size ≤ c.size
  head : ∃ d l', l = d :: l' ∧ d.addr = x.addr ∧ (d = x ∨ x.stop = b.addr)
  frame : ∀ a, a ≠ b.addr → a ≠ x.addr → Heap.link mem b.addr x.addr a = mem a

theorem link_spec (hchain : Chained mem (u ++ x :: r) z)
    (hsorted : (u ++ x :: r).Pairwise Below) (hb : (mem b.addr).size = b.size)
    (hpos : 1 ≤ b.size) (hx : x.stop ≤ b.addr) (hxb : x.addr < b.addr)
    (hr : ∀ y ∈ r, b.stop ≤ y.addr) (hz : b.stop ≠ z) (htop : b.stop ≤ KERNBASE) :
    ∃ l, Linked mem u x b r z l := by
  obtain ⟨hu, hxr⟩ := chained_append.mp hchain
  obtain ⟨hmx, hcr⟩ := chained_cons.mp hxr
  obtain ⟨hsu, hsx, hux⟩ := pairwise_append.mp hsorted
  rw [pairwise_cons] at hsx
  obtain ⟨c, r', hcaddr, hcsize, hsuf, hsc, hmerged, hup⟩ := link_above hcr hsx.2 hr hz
  have hbstop := addr_lt_stop hpos
  have hne : x.addr ≠ b.addr := hxb.ne
  -- the memory after the first test
  set mem1 := update mem b.addr ⟨first (r'.map Block.addr) z, c.size⟩ with hmem1
  have hwrap : ∀ d : Block, d.stop ≤ b.stop → (d.addr + HEADERSIZE * d.size) % 2 ^ 32 = d.stop :=
    fun d hd => Nat.mod_eq_of_lt (lt_of_le_of_lt (hd.trans htop) (by decide))
  have hfirst : (if (b.addr + HEADERSIZE * (mem b.addr).size) % 2 ^ 32 = (mem x.addr).ptr then
      update mem b.addr
        ⟨(mem (mem x.addr).ptr).ptr, (mem b.addr).size + (mem (mem x.addr).ptr).size⟩
      else update mem b.addr ⟨(mem x.addr).ptr, (mem b.addr).size⟩) = mem1 := by
    rw [← apply_ite (update mem b.addr), hb, hmx, hmem1, ← hup, hwrap b le_rfl]
  have hmem₁x : mem1 x.addr = ⟨first (r.map Block.addr) z, x.size⟩ := by
    rw [hmem1, update_of_ne hne, hmx]
  have hlink : Heap.link mem b.addr x.addr =
      if x.stop = b.addr then
        update mem1 x.addr ⟨first (r'.map Block.addr) z, x.size + c.size⟩
      else update mem1 x.addr ⟨b.addr, x.size⟩ := by
    simp only [Heap.link, hfirst, hmem₁x]
    rw [hmem1, update_self, hwrap x (hx.trans hbstop.le)]
  have hframe : ∀ a, a ≠ b.addr → a ≠ x.addr → Heap.link mem b.addr x.addr a = mem a := by
    intro a hab hax
    rw [hlink]
    split_ifs <;> rw [update_of_ne hax, hmem1, update_of_ne hab]
  have hu' : Chained (Heap.link mem b.addr x.addr) u x.addr := by
    refine hu.congr fun d hd => hframe _ ?_ ?_
    · exact ((hux d hd x mem_cons_self).addr_lt.trans hxb).ne
    · exact (hux d hd x mem_cons_self).addr_lt.ne
  have hr' : Chained (Heap.link mem b.addr x.addr) r' z := by
    obtain ⟨t, ht⟩ := hsuf
    have hcr' : Chained mem r' z := (chained_append.mp (ht ▸ hcr)).2
    refine hcr'.congr fun d hd => hframe _ ?_ ?_
    · have := hr d (ht ▸ mem_append_right t hd)
      omega
    · have := hr d (ht ▸ mem_append_right t hd)
      omega
  have hsr' := pairwise_cons.mp hsc
  by_cases hjoin : x.stop = b.addr
  · refine ⟨x.join c :: r', ⟨?_, ?_, ?_, ?_, ?_, hframe⟩⟩
    · refine chained_append.mpr ⟨hu', chained_cons.mpr ⟨?_, hr'⟩⟩
      rw [hlink, if_pos hjoin]
      exact update_self _ _ _
    · have hstop : (x.join c).stop = c.stop := join_stop (hjoin.trans hcaddr.symm)
      have hjr : ∀ d ∈ r', Below (x.join c) d := by
        intro d hd
        rw [Below, hstop]
        exact hsr'.1 d hd
      refine pairwise_append.mpr ⟨hsu, pairwise_cons.mpr ⟨hjr, hsr'.2⟩, ?_⟩
      intro d hd e he
      have hdx : Below d (x.join c) := hux d hd x mem_cons_self
      rcases mem_cons.mp he with rfl | he
      · exact hdx
      · exact hdx.trans (hjr e he)
    · exact (hmerged.cons x).trans (.join (hjoin.trans hcaddr.symm) r')
    · exact ⟨x.join c, mem_cons_self, hcsize.trans (Nat.le_add_left _ _)⟩
    · exact ⟨x.join c, r', rfl, rfl, .inr hjoin⟩
  · have hxc : Below x c := by
      rw [Below, hcaddr]
      exact lt_of_le_of_ne hx hjoin
    refine ⟨x :: c :: r', ⟨?_, ?_, hmerged.cons x, ?_, ⟨x, c :: r', rfl, rfl, .inl rfl⟩, hframe⟩⟩
    · refine chained_append.mpr ⟨hu', chained_cons.mpr ⟨?_, chained_cons.mpr ⟨?_, hr'⟩⟩⟩
      · rw [hlink, if_neg hjoin, update_self, ← hcaddr]
        rfl
      · rw [hlink, if_neg hjoin, hcaddr, update_of_ne hne.symm, hmem1,
          update_self]
    · have hxall : ∀ d ∈ c :: r', Below x d := by
        intro d hd
        rcases mem_cons.mp hd with rfl | hd
        · exact hxc
        · exact hxc.trans (hsr'.1 d hd)
      refine pairwise_append.mpr ⟨hsu, pairwise_cons.mpr ⟨hxall, hsc⟩, ?_⟩
      intro d hd e he
      have hdx := hux d hd x mem_cons_self
      rcases mem_cons.mp he with rfl | he
      · exact hdx
      · exact hdx.trans (hxall e he)
    · exact ⟨c, by simp, hcsize⟩

/-! ### The heap -/

/-- The state of the allocator: the free blocks `bs`, in a ring with `base`, and the blocks
`others` that are in use. -/
structure Shape (base : ℕ) (h : Heap) (bs others : List Block) : Prop where
  chained : Chained h.mem (⟨base, 0⟩ :: bs) base
  freep : h.freep ∈ (⟨base, 0⟩ :: bs).map Block.addr
  sorted : (⟨base, 0⟩ :: bs).Pairwise Below
  used : ∀ b ∈ others, (h.mem b.addr).size = b.size
  apart : others.Pairwise Apart
  disjoint : ∀ b ∈ bs, ∀ o ∈ others, Apart b o
  bounds : ∀ b ∈ bs ++ others,
    1 ≤ b.size ∧ base + HEADERSIZE ≤ b.addr ∧ b.stop ≤ min h.brk KERNBASE
  low : base + HEADERSIZE ≤ h.brk
  units : total bs + total others = h.units

variable {base : ℕ} {h : Heap} {others : List Block} {q : Block} {n : ℕ}

section Shape

variable (S : Shape base h bs others)

include S

theorem Shape.base_lt (hb : b ∈ bs ++ others) : base < b.addr := by
  have := (S.bounds b hb).2.1
  simp only [HEADERSIZE] at this
  omega

theorem Shape.pos (hb : b ∈ bs ++ others) : 1 ≤ b.size := (S.bounds b hb).1

theorem Shape.length_le : bs.length ≤ h.units := by
  have := length_le_total fun b hb => S.pos (mem_append_left others hb)
  have := S.units
  omega

theorem Shape.header {u r : List Block} (hN : ⟨base, 0⟩ :: bs = u ++ x :: r) :
    h.mem x.addr = ⟨first (r.map Block.addr) base, x.size⟩ := by
  have hchain := S.chained
  rw [hN] at hchain
  exact (chained_cons.mp (chained_append.mp hchain).2).1

theorem Shape.base_le (hb : b ∈ ⟨base, 0⟩ :: bs) : base ≤ b.addr := by
  rcases mem_cons.mp hb with rfl | hb
  · exact le_rfl
  · exact (S.base_lt (mem_append_left _ hb)).le

end Shape

section Free

variable (S : Shape base h bs (b :: others))

include S

theorem Shape.base_lt_block : base < b.addr := S.base_lt (by simp)

theorem Shape.exists_place :
    ∃ u x r, ⟨base, 0⟩ :: bs = u ++ x :: r ∧ x.addr < b.addr ∧ x.stop ≤ b.addr ∧
      (∀ d ∈ u, d.addr < b.addr) ∧ ∀ d ∈ r, b.stop ≤ d.addr := by
  have hapart : ∀ d ∈ bs, Apart d b := fun d hd => S.disjoint d hd b mem_cons_self
  have hpos : 1 ≤ b.size := S.pos (by simp)
  have hne : ∀ d ∈ bs, d.addr ≠ b.addr := fun d hd =>
    (hapart d hd).addr_ne (S.pos (mem_append_left _ hd)) hpos
  obtain ⟨u, x, r, hN, hx, hu, hr⟩ := exists_split S.sorted S.base_lt_block hne
  have hstop := addr_lt_stop hpos
  refine ⟨u, x, r, hN, hx, ?_, hu, fun d hd => ?_⟩
  · have hmem : x ∈ ⟨base, 0⟩ :: bs := hN ▸ by simp
    rcases mem_cons.mp hmem with rfl | hmem
    · exact hx.le
    · exact (hapart x hmem).resolve_right fun hle => by omega
  · have hmem : d ∈ ⟨base, 0⟩ :: bs := hN ▸ by simp [hd]
    have hlt := hr d hd
    rcases mem_cons.mp hmem with rfl | hmem
    · exact absurd S.base_lt_block (not_lt.mpr hlt.le)
    · have := addr_le_stop d
      exact (hapart d hmem).resolve_left fun hle => by omega

theorem Shape.after_iff {u r : List Block} (hN : ⟨base, 0⟩ :: bs = u ++ x :: r)
    (hx : x.addr < b.addr) (hu : ∀ d ∈ u, d.addr < b.addr) (hr : ∀ d ∈ r, b.stop ≤ d.addr) :
    h.after b.addr x.addr = true ∧
      ∀ d ∈ ⟨base, 0⟩ :: bs, d ≠ x → h.after b.addr d.addr = false := by
  have hbase := S.base_lt_block
  have hstop : b.addr < b.stop := addr_lt_stop (S.pos (by simp))
  constructor
  · have hq := S.header hN
    have hxbase : base ≤ x.addr := S.base_le (hN ▸ by simp)
    simp only [Heap.after, hq]
    cases r with
    | nil =>
      simp only [map_nil, first_nil]
      simp [hx, hxbase]
    | cons y r =>
      have hy := hr y mem_cons_self
      simp only [map_cons, first_cons]
      simp [hx, lt_of_lt_of_le hstop hy]
  · intro d hd hne
    have hsorted := S.sorted
    rw [hN] at hd hsorted
    rcases mem_append.mp hd with hd | hd
    · -- a node before `x`: the next one is still below the block
      obtain ⟨u1, u2, rfl⟩ := append_of_mem hd
      have hq : h.mem d.addr = ⟨first ((u2 ++ x :: r).map Block.addr) base, d.size⟩ :=
        S.header (u := u1) (by rw [hN]; simp)
      obtain ⟨e, w, hw, hmem⟩ : ∃ e w, u2 ++ x :: r = e :: w ∧ e ∈ u2 ++ [x] := by
        cases u2 with
        | nil => exact ⟨x, r, rfl, by simp⟩
        | cons e w => exact ⟨e, w ++ x :: r, rfl, by simp⟩
      have hde : Below d e := by
        rw [append_assoc, cons_append, hw] at hsorted
        have := (pairwise_append.mp hsorted).2.1
        exact rel_of_pairwise_cons this mem_cons_self
      have hlt := hde.addr_lt
      have heb : e.addr < b.addr := by
        rcases mem_append.mp hmem with he | he
        · exact hu e (by simp [he])
        · rw [mem_singleton.mp he]
          exact hx
      simp only [Heap.after, hq, hw, map_cons, first_cons]
      simp
      omega
    · -- a node after `x` is above the block, and so is the next one unless it is `base`
      have hd := (mem_cons.mp hd).resolve_left hne
      obtain ⟨r1, r2, rfl⟩ := append_of_mem hd
      have hq : h.mem d.addr = ⟨first (r2.map Block.addr) base, d.size⟩ :=
        S.header (u := u ++ x :: r1) (by rw [hN]; simp)
      have hdb := hr d hd
      simp only [Heap.after, hq]
      cases r2 with
      | nil =>
        simp only [map_nil, first_nil]
        simp
        omega
      | cons e r2 =>
        have hde : Below d e := by
          have := (pairwise_append.mp hsorted).2.1
          have := (pairwise_append.mp (pairwise_cons.mp this).2).2.1
          exact rel_of_pairwise_cons this mem_cons_self
        have hlt := hde.addr_lt
        simp only [map_cons, first_cons]
        simp
        omega

theorem Shape.walk {u r : List Block} (hN : ⟨base, 0⟩ :: bs = u ++ x :: r)
    (hx : x.addr < b.addr) (hu : ∀ d ∈ u, d.addr < b.addr) (hr : ∀ d ∈ r, b.stop ≤ d.addr) :
    LinkList.walk (fun a => (h.mem a).ptr) (h.after b.addr) (h.units + 1) h.freep =
      some x.addr := by
  obtain ⟨hstop, huniq⟩ := S.after_iff hN hx hu hr
  have hlen : (bs.map Block.addr).length < h.units + 1 := by
    rw [length_map]
    exact Nat.lt_succ_of_le S.length_le
  refine walk_ring S.chained.links S.freep ?_ hstop ?_ hlen
  · exact mem_map_of_mem (f := Block.addr) (hN ▸ by simp : x ∈ ⟨base, 0⟩ :: bs)
  · intro p hp hne
    obtain ⟨d, hd, rfl⟩ := mem_map.mp (show p ∈ (⟨base, 0⟩ :: bs).map Block.addr from hp)
    exact huniq d hd fun he => hne (he ▸ rfl)

theorem Shape.exists_free {u r l : List Block} (hN : ⟨base, 0⟩ :: bs = u ++ x :: r)
    (hx : x.addr < b.addr) (hlinked : Linked h.mem u x b r base l) :
    ∃ bs', ⟨base, 0⟩ :: bs' = u ++ l ∧ total bs' = total bs + b.size ∧
      bs'.length ≤ bs.length + 1 ∧ (∃ c ∈ bs', b.size ≤ c.size) ∧
      ∀ Q : Block → Prop, (∀ d, Q d → base < d.addr) →
        (∀ c d, Q c → Q d → c.stop = d.addr → Q (c.join d)) → Q b → (∀ d ∈ bs, Q d) →
        ∀ d ∈ bs', Q d := by
  have hbase := S.base_lt_block
  have hpos : 1 ≤ b.size := S.pos (by simp)
  obtain ⟨bs', hN'⟩ : ∃ bs', ⟨base, 0⟩ :: bs' = u ++ l := by
    obtain ⟨d, l', rfl, -, hd⟩ := hlinked.head
    cases u with
    | nil =>
      obtain ⟨rfl, rfl⟩ := cons.inj hN
      have hd' : d = ⟨base, 0⟩ := hd.resolve_right fun he => hbase.ne he
      exact ⟨l', by rw [hd']; rfl⟩
    | cons e u =>
      obtain ⟨rfl, -⟩ := cons.inj hN
      exact ⟨u ++ d :: l', rfl⟩
  have htotal : total bs' = total bs + b.size := by
    have h₁ := congrArg total hN
    have h₂ := congrArg total hN'
    have h3 := hlinked.merged.total
    simp only [total_cons, total_append] at h₁ h₂ h3
    omega
  have hlength : bs'.length ≤ bs.length + 1 := by
    have h₁ := congrArg length hN
    have h₂ := congrArg length hN'
    have h3 := hlinked.merged.length
    simp only [length_cons, length_append] at h₁ h₂ h3
    omega
  have hsorted : ∀ d ∈ bs', base < d.addr := by
    have := hlinked.sorted
    rw [← hN', pairwise_cons] at this
    exact fun d hd => this.1 d hd
  refine ⟨bs', hN', htotal, hlength, ?_, ?_⟩
  · obtain ⟨c, hc, hle⟩ := hlinked.big
    have hmem : c ∈ ⟨base, 0⟩ :: bs' := hN' ▸ mem_append_right u hc
    rcases mem_cons.mp hmem with rfl | hmem
    · exact absurd (hpos.trans hle) (Nat.not_succ_le_zero 0)
    · exact ⟨c, hmem, hle⟩
  · intro Q hQbase hjoin hb hQ d hd
    have hold : ∀ e ∈ ⟨base, 0⟩ :: bs, e.addr = base ∨ Q e := by
      intro e he
      rcases mem_cons.mp he with rfl | he
      · exact .inl rfl
      · exact .inr (hQ e he)
    have hmem : d ∈ u ++ l := hN' ▸ mem_cons_of_mem _ hd
    -- nothing is joined to `base`, so what is joined has the property
    have hor : d.addr = base ∨ Q d := by
      rcases mem_append.mp hmem with hmem | hmem
      · exact hold d (hN ▸ mem_append_left _ hmem)
      · refine hlinked.merged.inherit (fun e => e.addr = base ∨ Q e) ?_ ?_ d hmem
        · rintro e f (he | he) (hf | hf) hef
          · exact .inl he
          · exact .inl he
          · have := hQbase e he
            have := addr_le_stop e
            omega
          · exact .inr (hjoin e f he hf hef)
        · intro e he
          rcases mem_cons.mp he with rfl | he
          · exact hold e (hN ▸ by simp)
          · rcases mem_cons.mp he with rfl | he
            · exact .inr hb
            · exact hold e (hN ▸ by simp [he])
    exact hor.resolve_left (hsorted d hd).ne'

theorem Shape.free_spec (hlive : others = h.live.eraseP (·.addr = b.addr)) :
    ∃ h' bs', h.free (b.addr + HEADERSIZE) = some h' ∧ Shape base h' bs' others ∧
      h'.live = others ∧ bs'.length ≤ bs.length + 1 ∧ ∃ c ∈ bs', b.size ≤ c.size := by
  obtain ⟨u, x, r, hN, hx, hxstop, hu, hr⟩ := S.exists_place
  have hbase := S.base_lt_block
  have hpos : 1 ≤ b.size := S.pos (by simp)
  have hstop := addr_lt_stop hpos
  obtain ⟨l, hlinked⟩ := link_spec (z := base) (hN ▸ S.chained) (hN ▸ S.sorted)
    (S.used b mem_cons_self) hpos hxstop hx hr (by omega)
    ((S.bounds b (by simp)).2.2.trans (min_le_right _ _))
  obtain ⟨bs', hN', htotal, hlength, hbig, hinherit⟩ := S.exists_free hN hx hlinked
  have hoth : ∀ o ∈ others, o ∈ bs ++ b :: others := fun o ho => by simp [ho]
  have hapart := pairwise_cons.mp S.apart
  refine ⟨{ h with mem := Heap.link h.mem b.addr x.addr, freep := x.addr, live := others }, bs',
    ?_, ⟨?_, ?_, ?_, ?_, hapart.2, ?_, ?_, S.low, ?_⟩, rfl, hlength, hbig⟩
  · simp only [Heap.free, Nat.add_sub_cancel, S.walk hN hx hu hr, hlive]
    rfl
  · rw [hN']
    exact hlinked.chained
  · rw [hN']
    obtain ⟨d, l', rfl, hd, -⟩ := hlinked.head
    simp [hd]
  · rw [hN']
    exact hlinked.sorted
  · intro o ho
    have hxo : o.addr ≠ x.addr := by
      have hmem : x ∈ ⟨base, 0⟩ :: bs := hN ▸ by simp
      rcases mem_cons.mp hmem with rfl | hmem
      · exact (S.base_lt (hoth o ho)).ne'
      · exact ((S.disjoint x hmem o (by simp [ho])).addr_ne
          (S.pos (mem_append_left _ hmem)) (S.pos (hoth o ho))).symm
    have hbo : o.addr ≠ b.addr := ((hapart.1 o ho).addr_ne hpos (S.pos (hoth o ho))).symm
    show (Heap.link h.mem b.addr x.addr o.addr).size = o.size
    rw [hlinked.frame o.addr hbo hxo]
    exact S.used o (by simp [ho])
  · intro d hd o ho
    refine (hinherit (fun d => base < d.addr ∧ Apart d o) (fun _ h => h.1) ?_ ?_ ?_ d hd).2
    · rintro c d ⟨hc, hco⟩ ⟨-, hdo⟩ hcd
      exact ⟨hc, hco.join hdo (S.pos (hoth o ho)) hcd⟩
    · exact ⟨hbase, hapart.1 o ho⟩
    · exact fun d hd => ⟨S.base_lt (mem_append_left _ hd), S.disjoint d hd o (by simp [ho])⟩
  · intro d hd
    rcases mem_append.mp hd with hd | hd
    · refine hinherit
        (fun d => 1 ≤ d.size ∧ base + HEADERSIZE ≤ d.addr ∧ d.stop ≤ min h.brk KERNBASE)
        (fun d hd => ?_) ?_ (S.bounds b (by simp)) (fun d hd => S.bounds d (by simp [hd])) d hd
      · have := hd.2.1
        simp only [HEADERSIZE] at this
        omega
      · rintro c d ⟨hc, hcb, -⟩ ⟨-, -, hds⟩ hcd
        exact ⟨hc.trans (Nat.le_add_right _ _), hcb, (join_stop hcd).trans_le hds⟩
    · exact S.bounds d (hoth d hd)
  · have := S.units
    simp only [total_cons] at this
    show total bs' + total others = h.units
    omega

end Free

/-! ### Taking a block -/

section Take

def Block.tail (c : Block) (n : ℕ) : Block := ⟨c.addr + HEADERSIZE * (c.size - n), n⟩

def Block.front (c : Block) (n : ℕ) : Block := ⟨c.addr, c.size - n⟩

theorem Apart.tail {o : Block} (h : Apart c o) (hn : n ≤ c.size) : Apart (c.tail n) o := by
  simp only [Apart, Block.tail, stop_eq, HEADERSIZE] at *
  omega

theorem Apart.front {o : Block} (h : Apart c o) : Apart (c.front n) o := by
  simp only [Apart, Block.front, stop_eq] at *
  omega

theorem front_apart_tail (c : Block) (n : ℕ) : Apart (c.front n) (c.tail n) := .inl le_rfl

variable (S : Shape base h bs others)

include S

theorem Shape.exists_succ (hq : q ∈ ⟨base, 0⟩ :: bs) (hc : c ∈ bs)
    (hnext : (h.mem q.addr).ptr = c.addr) : ∃ l r, ⟨base, 0⟩ :: bs = l ++ q :: c :: r := by
  obtain ⟨l, t, hN⟩ := append_of_mem hq
  have hptr := S.header hN
  rw [hptr] at hnext
  cases t with
  | nil => exact absurd hnext (S.base_lt (mem_append_left _ hc)).ne
  | cons d r =>
    have haddr : d.addr = c.addr := hnext
    have hd := S.chained.size d (hN ▸ by simp)
    have hc' := S.chained.size c (mem_cons_of_mem _ hc)
    obtain rfl : d = c := by
      cases d
      cases c
      simp only at haddr hd hc'
      rw [haddr] at hd
      rw [haddr, ← hd, hc']
    exact ⟨l, r, hN⟩

theorem Shape.apart_of_ne {d : Block} (hd : d ∈ bs) (hc : c ∈ bs) (hne : d ≠ c) : Apart d c := by
  have hpair : bs.Pairwise Apart := (pairwise_cons.mp S.sorted).2.imp Below.apart
  exact hpair.forall hd hc hne

theorem Shape.of_take {bs' : List Block} (hc : c ∈ bs) (hn : 1 ≤ n)
    (hle : n ≤ c.size) (hchained : Chained mem (⟨base, 0⟩ :: bs') base)
    (hfreep : q.addr ∈ (⟨base, 0⟩ :: bs').map Block.addr)
    (hsorted : (⟨base, 0⟩ :: bs').Pairwise Below)
    (hfrom : ∀ d ∈ bs', d ∈ bs ∧ d ≠ c ∨ d = c.front n ∧ n < c.size)
    (htail : (mem (c.tail n).addr).size = n)
    (hused : ∀ o ∈ others, mem o.addr = h.mem o.addr) (htotal : total bs' + n = total bs) :
    Shape base { h with mem := mem, freep := q.addr, live := c.tail n :: h.live } bs'
      (c.tail n :: others) := by
  have hbc := S.bounds c (mem_append_left _ hc)
  refine ⟨hchained, hfreep, hsorted, ?_, ?_, ?_, ?_, S.low, ?_⟩
  · intro o ho
    rcases mem_cons.mp ho with rfl | ho
    · exact htail
    · exact (congrArg Header.size (hused o ho)).trans (S.used o ho)
  · rw [pairwise_cons]
    exact ⟨fun o ho => (S.disjoint c hc o ho).tail hle, S.apart⟩
  · intro d hd o ho
    rcases hfrom d hd with ⟨hd, hne⟩ | ⟨rfl, -⟩
    · rcases mem_cons.mp ho with rfl | ho
      · exact ((S.apart_of_ne hd hc hne).symm.tail hle).symm
      · exact S.disjoint d hd o ho
    · rcases mem_cons.mp ho with rfl | ho
      · exact front_apart_tail c n
      · exact (S.disjoint c hc o ho).front
  · have hbt : 1 ≤ (c.tail n).size ∧ base + HEADERSIZE ≤ (c.tail n).addr ∧
        (c.tail n).stop ≤ min h.brk KERNBASE := by
      simp only [Block.tail, stop_eq, HEADERSIZE] at *
      omega
    intro d hd
    rcases mem_append.mp hd with hd | hd
    · rcases hfrom d hd with ⟨hd, -⟩ | ⟨rfl, hlt⟩
      · exact S.bounds d (mem_append_left _ hd)
      · show 1 ≤ (c.front n).size ∧ base + HEADERSIZE ≤ (c.front n).addr ∧
          (c.front n).stop ≤ min h.brk KERNBASE
        simp only [Block.front, stop_eq, HEADERSIZE] at *
        omega
    · rcases mem_cons.mp hd with rfl | hd
      · exact hbt
      · exact S.bounds d (mem_append_right _ hd)
  · have := S.units
    show total bs' + total (c.tail n :: others) = h.units
    simp only [total_cons, Block.tail]
    omega

theorem Shape.exists_cons {l r : List Block} (hN : ⟨base, 0⟩ :: bs = l ++ q :: c :: r)
    (m : List Block) : ∃ bs', ⟨base, 0⟩ :: bs' = l ++ q :: (m ++ r) ∧
      (∀ d ∈ bs', d ∈ bs ∧ d ≠ c ∨ d ∈ m) ∧ total bs' + c.size = total bs + total m := by
  have hsorted := S.sorted
  rw [hN] at hsorted
  have hpair := pairwise_append.mp hsorted
  have hcq := pairwise_cons.mp hpair.2.1
  have hcr := pairwise_cons.mp hcq.2
  have hother : ∀ d ∈ l ++ q :: r, d ≠ c := by
    rintro d hd rfl
    rcases mem_append.mp hd with hd | hd
    · exact (hpair.2.2 d hd d (by simp)).addr_lt.ne rfl
    · rcases mem_cons.mp hd with rfl | hd
      · exact (hcq.1 d mem_cons_self).addr_lt.ne rfl
      · exact (hcr.1 d hd).addr_lt.ne rfl
  have hmem : ∀ d ∈ l ++ q :: r, d ∈ bs → d ∈ bs ∧ d ≠ c := fun d hd hbs => ⟨hbs, hother d hd⟩
  cases l with
  | nil =>
    obtain ⟨rfl, rfl⟩ := cons.inj hN
    refine ⟨m ++ r, rfl, fun d hd => ?_, by simp; omega⟩
    rcases mem_append.mp hd with hd | hd
    · exact .inr hd
    · exact .inl (hmem d (by simp [hd]) (by simp [hd]))
  | cons e l =>
    obtain ⟨rfl, rfl⟩ := cons.inj hN
    refine ⟨l ++ q :: (m ++ r), rfl, fun d hd => ?_, by simp; omega⟩
    simp only [mem_append, mem_cons] at hd
    rcases hd with hd | rfl | hd | hd
    · exact .inl (hmem d (by simp [hd]) (by simp [hd]))
    · exact .inl (hmem d (by simp) (by simp))
    · exact .inr hd
    · exact .inl (hmem d (by simp [hd]) (by simp [hd]))

theorem Shape.used_ne {d o : Block} (hd : d ∈ ⟨base, 0⟩ :: bs) (ho : o ∈ others) :
    o.addr ≠ d.addr := by
  rcases mem_cons.mp hd with rfl | hd
  · exact (S.base_lt (mem_append_right _ ho)).ne'
  · exact ((S.disjoint d hd o ho).addr_ne (S.pos (mem_append_left _ hd))
      (S.pos (mem_append_right _ ho))).symm

theorem Shape.take_spec (hq : q ∈ ⟨base, 0⟩ :: bs) (hc : c ∈ bs)
    (hnext : (h.mem q.addr).ptr = c.addr) (hn : 1 ≤ n) (hle : n ≤ c.size) :
    ∃ h' bs', h.take n q.addr c.addr = ((c.tail n).addr + HEADERSIZE, h') ∧
      Shape base h' bs' (c.tail n :: others) ∧ h'.live = c.tail n :: h.live := by
  obtain ⟨l, r, hN⟩ := S.exists_succ hq hc hnext
  have hmc : h.mem c.addr = ⟨first (r.map Block.addr) base, c.size⟩ :=
    S.header (u := l ++ [q]) (by rw [hN]; simp)
  have hmq : h.mem q.addr = ⟨c.addr, q.size⟩ := S.header hN
  have hsorted := S.sorted
  have hchain := S.chained
  rw [hN] at hsorted hchain
  obtain ⟨hcl, hcq⟩ := chained_append.mp hchain
  have hcr := (chained_cons.mp (chained_cons.mp hcq).2).2
  have hpair := pairwise_append.mp hsorted
  have hpq := pairwise_cons.mp hpair.2.1
  have hpr := pairwise_cons.mp hpq.2
  have hqc := (hpq.1 c mem_cons_self).addr_lt
  have hlc : ∀ d ∈ l, d.addr < q.addr ∧ d.addr < c.addr := fun d hd =>
    ⟨(hpair.2.2 d hd q (by simp)).addr_lt, (hpair.2.2 d hd c (by simp)).addr_lt⟩
  rcases hle.eq_or_lt with rfl | hlt
  · -- the whole block goes
    obtain ⟨bs', hN', hfrom, htotal⟩ := S.exists_cons hN []
    have htail : c.tail c.size = c := by simp [Block.tail]
    set mem := update h.mem q.addr ⟨first (r.map Block.addr) base, q.size⟩ with hmem
    have hsub : (l ++ q :: ([] ++ r)).Sublist (l ++ q :: c :: r) :=
      (sublist_cons_self c r).cons_cons q |>.append_left l
    refine ⟨{ h with mem := mem, freep := q.addr, live := c.tail c.size :: h.live }, bs', ?_,
      S.of_take hc hn le_rfl ?_ ?_ ?_ ?_ ?_ ?_ ?_, rfl⟩
    · simp only [Heap.take, hmc, hmq, if_true, htail, hmem]
    · rw [hN']
      refine chained_append.mpr ⟨hcl.congr fun d hd => ?_, chained_cons.mpr ⟨?_, ?_⟩⟩
      · exact update_of_ne (hlc d hd).1.ne _ _
      · exact update_self _ _ _
      · refine hcr.congr fun d hd => update_of_ne ?_ _ _
        exact (hpq.1 d (mem_cons_of_mem _ hd)).addr_lt.ne'
    · rw [hN']
      simp
    · rw [hN']
      exact hsorted.sublist hsub
    · exact fun d hd => .inl ((hfrom d hd).resolve_right nofun)
    · rw [htail, hmem, update_of_ne hqc.ne', hmc]
    · exact fun o ho => update_of_ne (S.used_ne hq ho) _ _
    · simpa using htotal
  · -- the block is split
    obtain ⟨bs', hN', hfrom, htotal⟩ := S.exists_cons hN [c.front n]
    have hct : c.addr < (c.tail n).addr ∧ (c.tail n).addr < c.stop := by
      simp only [Block.tail, stop_eq, HEADERSIZE]
      omega
    set mem1 := update h.mem c.addr ⟨first (r.map Block.addr) base, c.size - n⟩ with hmem1
    set mem := update mem1 (c.tail n).addr ⟨(mem1 (c.tail n).addr).ptr, n⟩ with hmem
    have hframe : ∀ a, a ≠ c.addr → a ≠ (c.tail n).addr → mem a = h.mem a := by
      intro a hac hat
      rw [hmem, update_of_ne hat, hmem1, update_of_ne hac]
    have hsc : (c.front n :: r).Pairwise Below := by
      refine pairwise_cons.mpr ⟨fun d hd => ?_, hpr.2⟩
      have := hpr.1 d hd
      simp only [Below, Block.front, stop_eq] at *
      omega
    refine ⟨{ h with mem := mem, freep := q.addr, live := c.tail n :: h.live }, bs', ?_,
      S.of_take hc hn hle ?_ ?_ ?_ ?_ ?_ ?_ ?_, rfl⟩
    · simp only [Heap.take, hmc, hlt.ne', if_false]
      rfl
    · rw [hN']
      refine chained_append.mpr ⟨hcl.congr fun d hd => ?_, chained_cons.mpr ⟨?_,
        chained_cons.mpr ⟨?_, hcr.congr fun d hd => ?_⟩⟩⟩
      · have := hlc d hd
        exact hframe _ (by omega) (by omega)
      · rw [hframe _ hqc.ne (by omega), hmq]
        rfl
      · rw [show (c.front n).addr = c.addr from rfl, hmem, update_of_ne hct.1.ne, hmem1,
          update_self]
        rfl
      · have hcd : c.stop < d.addr := hpr.1 d hd
        exact hframe _ (by omega) (by omega)
    · rw [hN']
      simp
    · rw [hN']
      refine pairwise_append.mpr ⟨hpair.1, pairwise_cons.mpr ⟨?_, hsc⟩, ?_⟩
      · intro d hd
        rcases mem_cons.mp hd with rfl | hd
        · exact hpq.1 c mem_cons_self
        · exact hpq.1 d (mem_cons_of_mem _ hd)
      · intro d hd e he
        rcases mem_cons.mp he with rfl | he
        · exact hpair.2.2 d hd e (by simp)
        · rcases mem_cons.mp he with rfl | he
          · exact hpair.2.2 d hd c (by simp)
          · exact hpair.2.2 d hd e (mem_cons_of_mem _ (mem_cons_of_mem _ he))
    · intro d hd
      exact (hfrom d hd).imp_right fun hd => ⟨mem_singleton.mp hd, hlt⟩
    · rw [hmem, update_self]
    · intro o ho
      have hoc := S.disjoint c hc o ho
      have := addr_lt_stop (S.pos (mem_append_right bs ho))
      refine hframe _ (S.used_ne (mem_cons_of_mem _ hc) ho) ?_
      rcases hoc with hoc | hoc <;> omega
    · simp only [total_cons, total_nil, Block.front] at htotal
      omega

end Take

/-! ### More memory -/

theorem Shape.freep_pos {base : ℕ} {h : Heap} {others : List Block} (S : Shape base h bs others)
    (hbase : 0 < base) : h.freep ≠ 0 := by
  obtain ⟨d, hd, he⟩ := mem_map.mp S.freep
  have := S.base_le hd
  omega

theorem Shape.grow {base : ℕ} {h : Heap} (S : Shape base h bs h.live) {hp nu : ℕ} (hnu : 1 ≤ nu)
    (hhp : h.brk ≤ hp) (htop : hp + HEADERSIZE * nu ≤ KERNBASE) : Shape base { h with
      mem := update h.mem hp ⟨(h.mem hp).ptr, nu⟩
      brk := hp + HEADERSIZE * nu
      units := h.units + nu } bs (⟨hp, nu⟩ :: h.live) := by
  have hbelow : ∀ d ∈ bs ++ h.live, d.addr < hp ∧ d.stop ≤ hp := by
    intro d hd
    have := addr_lt_stop (S.pos hd)
    have := (S.bounds d hd).2.2
    omega
  have hlow := S.low
  have hnode : ∀ d ∈ ⟨base, 0⟩ :: bs, d.addr ≠ hp := by
    intro d hd
    rcases mem_cons.mp hd with rfl | hd
    · simp only [HEADERSIZE] at hlow
      exact (by omega : base ≠ hp)
    · exact (hbelow d (mem_append_left _ hd)).1.ne
  refine ⟨S.chained.congr fun d hd => update_of_ne (hnode d hd) _ _, S.freep, S.sorted,
    ?_, ?_, ?_, ?_, ?_, ?_⟩
  · intro o ho
    rcases mem_cons.mp ho with rfl | ho
    · simp
    · have hne := (hbelow o (mem_append_right _ ho)).1.ne
      simp only [update_of_ne hne]
      exact S.used o ho
  · exact pairwise_cons.mpr
      ⟨fun o ho => .inr (hbelow o (mem_append_right _ ho)).2, S.apart⟩
  · intro d hd o ho
    rcases mem_cons.mp ho with rfl | ho
    · exact .inl (hbelow d (mem_append_left _ hd)).2
    · exact S.disjoint d hd o ho
  · intro d hd
    have hcases : d = ⟨hp, nu⟩ ∨ d ∈ bs ++ h.live := by
      simp only [mem_append, mem_cons] at hd ⊢
      tauto
    rcases hcases with rfl | hd
    · exact ⟨hnu, hlow.trans hhp, le_min le_rfl htop⟩
    · obtain ⟨h₁, h₂, h3⟩ := S.bounds d hd
      exact ⟨h₁, h₂, h3.trans (min_le_min_right _ (hhp.trans (Nat.le_add_right _ _)))⟩
  · exact hlow.trans (hhp.trans (Nat.le_add_right _ _))
  · have := S.units
    simp only [total_cons]
    omega

theorem sbrk_grows (h : Heap) (gap : Option ℕ) {n : ℕ} (hpos : 0 < n) (hlt : n < 2 ^ 31) :
    h.sbrk gap n = some none ∨ ∃ hp, h.brk ≤ hp ∧ hp + n ≤ KERNBASE ∧
      h.sbrk gap n = some (some (hp, { h with brk := hp + n })) := by
  simp only [Heap.sbrk, if_pos (And.intro hpos hlt)]
  split_ifs with hfull
  · exact .inl rfl
  · obtain ⟨-, hroom⟩ := not_or.mp hfull
    exact .inr ⟨_, Nat.le_add_right _ _, (not_le.mp hroom).le, rfl⟩

theorem le_pgroundup {sz : ℕ} (h : sz ≤ KERNBASE) : sz ≤ PGROUNDUP sz := by
  simp only [PGROUNDUP, KERNBASE, PGSIZE] at *
  omega

theorem Shape.morecore_spec {base : ℕ} {h : Heap} (S : Shape base h bs h.live) (gap : Option ℕ)
    {n : ℕ} (hn : n * HEADERSIZE < 2 ^ 31) (hbase : 0 < base) : h.morecore gap n = some (0, h) ∨
      ∃ h' bs', h.morecore gap n = some (h'.freep, h') ∧ h'.freep ≠ 0 ∧
        Shape base h' bs' h'.live ∧ h'.live = h.live ∧ bs'.length ≤ bs.length + 1 ∧
        ∃ c ∈ bs', n ≤ c.size := by
  set nu := if n < 4096 then 4096 else n with hnu
  have hnu1 : 1 ≤ nu := by
    rw [hnu]
    split_ifs <;> omega
  have hnn : n ≤ nu := by
    rw [hnu]
    split_ifs <;> omega
  have hint : HEADERSIZE * nu < 2 ^ 31 := by
    simp only [HEADERSIZE] at *
    rw [hnu]
    split_ifs <;> omega
  have hmod : nu * HEADERSIZE % 2 ^ 32 = HEADERSIZE * nu := by
    rw [Nat.mul_comm, Nat.mod_eq_of_lt (hint.trans (by decide))]
  have hpos : HEADERSIZE ≤ HEADERSIZE * nu := Nat.le_mul_of_pos_right _ hnu1
  rcases sbrk_grows h gap (lt_of_lt_of_le (by decide) hpos) hint with hsbrk | ⟨hp, hhp, htop, hsbrk⟩
  · refine .inl ?_
    simp only [Heap.morecore, ← hnu, hmod, hsbrk]
    rfl
  · have hgrow := S.grow hnu1 hhp htop
    have hnone : h.live = h.live.eraseP (·.addr = hp) := by
      refine (eraseP_of_forall_not fun d hd => ?_).symm
      have := addr_lt_stop (S.pos (mem_append_right bs hd))
      have := (S.bounds d (mem_append_right bs hd)).2.2
      simp
      omega
    obtain ⟨h', bs', hfree, hshape, hlive, hlength, c, hc, hle⟩ := hgrow.free_spec hnone
    refine .inr ⟨h', bs', ?_, hshape.freep_pos hbase, hlive ▸ hshape, hlive, hlength, c, hc,
      hnn.trans hle⟩
    have hmapped : ¬PGROUNDUP (hp + HEADERSIZE * nu) < hp + HEADERSIZE :=
      not_lt.mpr ((Nat.add_le_add_left hpos hp).trans (le_pgroundup htop))
    simp only [Heap.morecore, ← hnu, hmod, hsbrk, Option.bind_eq_bind, Option.bind_some,
      if_neg hmapped]
    exact congrArg (fun o => o.bind fun h => some (h.freep, h)) hfree

/-! ### The loop of `malloc` -/

section Search

def Finds (base : ℕ) (h : Heap) (bs : List Block) (n : ℕ) (r : Option (ℕ × Heap)) : Prop :=
  ∃ q c, q ∈ ⟨base, 0⟩ :: bs ∧ c ∈ bs ∧ (h.mem q.addr).ptr = c.addr ∧ n ≤ c.size ∧
    r = some (h.take n q.addr c.addr)

section

variable (gap : Option ℕ) (S : Shape base h bs others) (hn : 1 ≤ n)
include gap S hn

theorem search_found (hq : q ∈ ⟨base, 0⟩ :: bs) (hc : c ∈ ⟨base, 0⟩ :: bs)
    (hnext : (h.mem q.addr).ptr = c.addr) (hle : n ≤ (h.mem c.addr).size) (fuel : ℕ) :
    Finds base h bs n (h.search gap n (fuel + 1) q.addr c.addr) := by
  have hsize := S.chained.size c hc
  rcases mem_cons.mp hc with rfl | hc
  · rw [hsize] at hle
    exact absurd (hn.trans hle) (Nat.not_succ_le_zero 0)
  · exact ⟨q, c, hq, hc, hnext, hsize ▸ hle, if_pos hle⟩

/-- The rest of a circle, over the nodes `w` and then `freep`: a block is found, or there is none
and `morecore` is called. -/
theorem search_links {w : List Block}
    (hw : Links (fun a => (h.mem a).ptr) (w.map Block.addr) h.freep)
    (hwN : ∀ d ∈ w, d ∈ ⟨base, 0⟩ :: bs) (hwf : ∀ d ∈ w, d.addr ≠ h.freep)
    (hq : q ∈ ⟨base, 0⟩ :: bs) (hnext : (h.mem q.addr).ptr = first (w.map Block.addr) h.freep)
    (fuel : ℕ) : Finds base h bs n
      (h.search gap n (fuel + w.length + 1) q.addr (first (w.map Block.addr) h.freep)) ∨
    ((∀ d ∈ w, d.size < n) ∧ (h.mem h.freep).size < n) ∧
      h.search gap n (fuel + w.length + 1) q.addr (first (w.map Block.addr) h.freep) =
        (h.morecore gap n).bind fun r =>
          if r.1 = 0 then some (0, r.2)
          else r.2.search (gap.map fun _ => 0) n fuel r.1 (r.2.mem r.1).ptr := by
  induction w generalizing q with
  | nil =>
    simp only [map_nil, first_nil, length_nil, Nat.add_zero] at hnext ⊢
    obtain ⟨f, hf, hfaddr⟩ := mem_map.mp S.freep
    by_cases hle : n ≤ (h.mem h.freep).size
    · rw [← hfaddr] at hnext hle ⊢
      exact .inl (search_found gap S hn hq hf hnext hle fuel)
    · refine .inr ⟨⟨nofun, not_le.mp hle⟩, ?_⟩
      rw [Heap.search, if_neg hle, if_pos rfl]
      rfl
  | cons d w ih =>
    have hd := hwN d mem_cons_self
    have hsize := S.chained.size d hd
    obtain ⟨hdnext, hw'⟩ := hw
    simp only [map_cons, first_cons, length_cons] at hnext ⊢
    by_cases hle : n ≤ (h.mem d.addr).size
    · exact .inl (search_found gap S hn hq hd hnext hle _)
    · have hround : h.search gap n (fuel + (w.length + 1) + 1) q.addr d.addr =
          h.search gap n (fuel + w.length + 1) d.addr (first (w.map Block.addr) h.freep) := by
        rw [Heap.search, if_neg hle, if_neg (hwf d mem_cons_self), ← hdnext]
        rfl
      rw [hround]
      refine (ih hw' (fun e he => hwN e (mem_cons_of_mem _ he))
        (fun e he => hwf e (mem_cons_of_mem _ he)) hd hdnext).imp_right ?_
      rintro ⟨⟨hsmall, hfsmall⟩, hmore⟩
      refine ⟨⟨fun e he => ?_, hfsmall⟩, hmore⟩
      rcases mem_cons.mp he with rfl | he
      · exact hsize ▸ not_le.mp hle
      · exact hsmall e he

theorem search_circle (fuel : ℕ) :
    Finds base h bs n (h.search gap n (fuel + bs.length + 1) h.freep (h.mem h.freep).ptr) ∨
    (∀ d ∈ bs, d.size < n) ∧ h.search gap n (fuel + bs.length + 1) h.freep (h.mem h.freep).ptr =
        (h.morecore gap n).bind fun r =>
          if r.1 = 0 then some (0, r.2)
          else r.2.search (gap.map fun _ => 0) n fuel r.1 (r.2.mem r.1).ptr := by
  obtain ⟨f, hf, hfaddr⟩ := mem_map.mp S.freep
  obtain ⟨u, v, hN⟩ := append_of_mem hf
  -- the ring, read from `freep` on
  have hring : Links (fun a => (h.mem a).ptr) ((f :: (v ++ u)).map Block.addr) f.addr := by
    have hlinks := S.chained.links
    have hfirst : base = first (u.map Block.addr) f.addr := by
      have := congrArg (fun l => first (l.map Block.addr) base) hN
      simpa [first_append] using this
    rw [hN, map_append, map_cons] at hlinks
    rw [map_cons, map_append]
    exact Links.rotate (hfirst ▸ hlinks)
  have hlen : (v ++ u).length = bs.length := by
    have := congrArg length hN
    simp only [length_cons, length_append] at this ⊢
    omega
  have hmemN : ∀ d ∈ v ++ u, d ∈ ⟨base, 0⟩ :: bs := by
    intro d hd
    rw [hN]
    simp only [mem_append, mem_cons] at hd ⊢
    tauto
  have hne : ∀ d ∈ v ++ u, d.addr ≠ f.addr := by
    have hsorted := S.sorted
    rw [hN] at hsorted
    have hpair := pairwise_append.mp hsorted
    intro d hd
    rcases mem_append.mp hd with hd | hd
    · exact ((pairwise_cons.mp hpair.2.1).1 d hd).addr_lt.ne'
    · exact (hpair.2.2 d hd f mem_cons_self).addr_lt.ne
  have hsearch := search_links gap S hn (w := v ++ u) (hfaddr ▸ hring.2) hmemN
    (hfaddr ▸ hne) hf (hfaddr ▸ hring.1) fuel
  have hptr : (h.mem h.freep).ptr = first ((v ++ u).map Block.addr) h.freep := by
    rw [← hfaddr]
    exact hring.1
  rw [hlen, ← hptr, hfaddr] at hsearch
  refine hsearch.imp_right fun ⟨⟨hsmall, hfsmall⟩, hmore⟩ => ⟨fun d hd => ?_, hmore⟩
  have hd' : d ∈ u ++ f :: v := hN ▸ mem_cons_of_mem _ hd
  by_cases hdf : d = f
  · rw [← hfaddr, S.chained.size f hf] at hfsmall
    exact hdf ▸ hfsmall
  · refine hsmall d ?_
    simp only [mem_append, mem_cons] at hd' ⊢
    tauto

end

/-- What `malloc` does with an initialised heap: it hands out a block of `n` units, or it returns 0
and nothing has changed, since no free block is large enough and there is no memory. -/
theorem search_spec (S : Shape base h bs h.live) (gap : Option ℕ) (hn : 1 ≤ n)
    (hbig : n * HEADERSIZE < 2 ^ 31) (hbase : 0 < base) :
    ∃ p h' bs', h.search gap n (2 * h.units + 4) h.freep (h.mem h.freep).ptr = some (p, h') ∧
      Shape base h' bs' h'.live ∧
      (p = 0 ∧ h'.live = h.live ∧ (∀ d ∈ bs, d.size < n) ∧ h.morecore gap n = some (0, h) ∨
        ∃ b, p = b.addr + HEADERSIZE ∧ b.size = n ∧ h'.live = b :: h.live) := by
  have hfinish : ∀ {h' : Heap} {bs' : List Block} {r : Option (ℕ × Heap)},
      Shape base h' bs' h'.live → h'.live = h.live → Finds base h' bs' n r →
      ∃ p h'' bs'', r = some (p, h'') ∧ Shape base h'' bs'' h''.live ∧
        (p = 0 ∧ h''.live = h.live ∧ (∀ d ∈ bs, d.size < n) ∧ h.morecore gap n = some (0, h) ∨
          ∃ b, p = b.addr + HEADERSIZE ∧ b.size = n ∧ h''.live = b :: h.live) := by
    rintro h' bs' r S' hlive ⟨q, c, hq, hc, hnext, hle, rfl⟩
    obtain ⟨h'', bs'', htake, S'', hlive''⟩ := S'.take_spec hq hc hnext hn hle
    refine ⟨_, h'', bs'', by rw [htake], hlive'' ▸ S'', .inr ⟨c.tail n, rfl, rfl, ?_⟩⟩
    rw [hlive'', hlive]
  have hlen := S.length_le
  obtain ⟨fuel, hfuel⟩ : ∃ fuel, 2 * h.units + 4 = fuel + bs.length + 1 :=
    ⟨2 * h.units + 3 - bs.length, by omega⟩
  rw [hfuel]
  rcases search_circle gap S hn fuel with hfound | ⟨hnone, hmore⟩
  · exact hfinish S rfl hfound
  · rw [hmore]
    rcases S.morecore_spec gap hbig hbase with hfail |
      ⟨h', bs', hcore, hne, S', hlive, hlength, c, hc, hle⟩
    · refine ⟨0, h, bs, ?_, S, .inl ⟨rfl, rfl, hnone, hfail⟩⟩
      rw [hfail]
      rfl
    · rw [congrArg (Option.bind · _) hcore, Option.bind_some, if_neg hne]
      obtain ⟨fuel', hfuel'⟩ : ∃ fuel', fuel = fuel' + bs'.length + 1 :=
        ⟨fuel - bs'.length - 1, by omega⟩
      rw [hfuel']
      -- the new memory is in the ring, so the second circle ends with a block
      rcases search_circle (gap.map fun _ => 0) S' hn fuel' with hfound | ⟨hsmall, -⟩
      · exact hfinish S' hlive hfound
      · exact absurd (hsmall c hc) (not_lt.mpr hle)

end Search

/-! ### Whole runs -/

variable {nbytes : ℕ}

section Runs

def Inv (base : ℕ) (h : Heap) : Prop :=
  (h.freep = 0 ∧ h.live = [] ∧ h.units = 0 ∧ base + HEADERSIZE ≤ h.brk) ∨
    ∃ bs, Shape base h bs h.live

theorem nunits_spec (hle : nbytes ≤ 2 ^ 31 - 16) :
    1 ≤ Heap.nunits nbytes ∧ Heap.nunits nbytes * HEADERSIZE < 2 ^ 31 ∧
      HEADERSIZE + nbytes ≤ HEADERSIZE * Heap.nunits nbytes := by
  simp only [Heap.nunits, HEADERSIZE]
  omega

theorem shape_start (h : Heap) (hlive : h.live = []) (hunits : h.units = 0)
    (hlow : base + HEADERSIZE ≤ h.brk) :
    Shape base { h with mem := update h.mem base ⟨base, 0⟩, freep := base } [] h.live := by
  rw [hlive]
  refine ⟨chained_cons.mpr ⟨?_, ⟨trivial, nofun⟩⟩, by simp, by simp, nofun, .nil, nofun, nofun, hlow,
    by simp [hunits]⟩
  exact update_self _ _ _

theorem Inv.ready (hbase : 0 < base) (hinv : Inv base h) :
    ∃ bs, Shape base (h.ready base) bs (h.ready base).live := by
  rcases hinv with ⟨hfreep, hlive, hunits, hlow⟩ | ⟨bs, S⟩
  · rw [Heap.ready, if_pos hfreep]
    exact ⟨[], shape_start h hlive hunits hlow⟩
  · rw [Heap.ready, if_neg (S.freep_pos hbase)]
    exact ⟨bs, S⟩

@[simp] theorem ready_live : (h.ready base).live = h.live := by
  unfold Heap.ready
  split_ifs <;> rfl

@[simp] theorem ready_brk : (h.ready base).brk = h.brk := by
  unfold Heap.ready
  split_ifs <;> rfl

theorem free_live {bs : List Block} (S : Shape base h bs h.live) {b : Block} (hb : b ∈ h.live) :
    ∃ h' bs', h.free (b.addr + HEADERSIZE) = some h' ∧ Shape base h' bs' h'.live ∧
      h.live.Perm (b :: h'.live) := by
  obtain ⟨a, l1, l2, -, ha, hlive, herase⟩ :=
    exists_of_eraseP (p := fun d : Block => d.addr = b.addr) hb (by simp)
  have ha' : a ∈ h.live := by rw [hlive]; simp
  obtain rfl : a = b := by
    have haddr : a.addr = b.addr := by simpa using ha
    have hsize := S.used a ha'
    rw [haddr, S.used b hb] at hsize
    cases a
    cases b
    simp only at haddr hsize
    rw [haddr, hsize]
  have hperm : h.live.Perm (a :: h.live.eraseP fun d => d.addr = a.addr) := by
    rw [herase, hlive]
    exact perm_middle
  have S' : Shape base h bs (a :: h.live.eraseP fun d => d.addr = a.addr) := by
    refine ⟨S.chained, S.freep, S.sorted, fun o ho => S.used o (hperm.mem_iff.mpr ho),
      hperm.pairwise S.apart Apart.symm, fun d hd o ho => S.disjoint d hd o (hperm.mem_iff.mpr ho),
      ?_, S.low, ?_⟩
    · intro d hd
      refine S.bounds d ?_
      rcases mem_append.mp hd with hd | hd
      · exact mem_append_left _ hd
      · exact mem_append_right _ (hperm.mem_iff.mpr hd)
    · have htotal : total h.live = total (a :: h.live.eraseP fun d => d.addr = a.addr) :=
        (hperm.map Block.size).sum_eq
      exact htotal ▸ S.units
  obtain ⟨h', bs', hfree, hshape, hlive', -⟩ := S'.free_spec rfl
  exact ⟨h', bs', hfree, hlive' ▸ hshape, hlive' ▸ hperm⟩

theorem inv_step (hbase : 0 < base) {h' : Heap} {act : Act} (hinv : Inv base h)
    (hlegal : act.Legal h) (hstep : step base h act = some h') : Inv base h' := by
  cases act with
  | malloc nbytes gap =>
    obtain ⟨h1, h2, -⟩ := nunits_spec (le_trans (Nat.le_of_lt hlegal) (by decide))
    obtain ⟨bs, S⟩ := hinv.ready hbase
    obtain ⟨p, h'', bs', hmalloc, hshape, -⟩ := search_spec S gap h1 h2 hbase
    simp only [step, Heap.malloc, hmalloc, Option.map_some] at hstep
    obtain rfl := Option.some.inj hstep
    exact .inr ⟨bs', hshape⟩
  | free ap =>
    obtain ⟨b, hb, rfl⟩ := hlegal
    rcases hinv with ⟨-, hlive, -⟩ | ⟨bs, S⟩
    · rw [hlive] at hb
      exact nomatch hb
    · obtain ⟨h'', bs', hfree, hshape, -⟩ := free_live S hb
      simp only [step, hfree] at hstep
      obtain rfl := Option.some.inj hstep
      exact .inr ⟨bs', hshape⟩

theorem inv_run {brk : ℕ} {acts : List Act} (hbase : 0 < base) (hbrk : base + HEADERSIZE ≤ brk)
    (hrun : Trans.Run (step base) Act.Legal (start brk) acts h) : Inv base h :=
  hrun.induct (I := Inv base) (.inl ⟨rfl, rfl, rfl, hbrk⟩)
    fun _ _ _ hinv hlegal hstep => inv_step hbase hinv hlegal hstep

/-- The free list of a heap, with the free blocks `bs` in the order of the ring after `base`. -/
structure FreeList (base : ℕ) (h : Heap) (bs : List Block) : Prop where
  ring : Links (fun a => (h.mem a).ptr) (base :: bs.map Block.addr) base
  freep : h.freep ∈ base :: bs.map Block.addr
  sizes : (h.mem base).size = 0 ∧ ∀ b ∈ bs ++ h.live, (h.mem b.addr).size = b.size
  /-- addresses go up once around the ring, so they wrap around once, at `base` -/
  increasing : (base :: bs.map Block.addr).Pairwise (· < ·)
  disjoint : (bs ++ h.live).Pairwise Apart
  /-- list neighbours do not touch, apart from `base`, which lies below them all -/
  separate : bs.IsChain fun a b => a.stop ≠ b.addr
  units : total bs + total h.live = h.units

theorem Shape.freeList {bs : List Block} (S : Shape base h bs h.live) : FreeList base h bs := by
  have hsorted := pairwise_cons.mp S.sorted
  refine ⟨S.chained.links, S.freep, ⟨S.chained.size _ mem_cons_self, fun b hb => ?_⟩, ?_, ?_, ?_,
    S.units⟩
  · rcases mem_append.mp hb with hb | hb
    · exact S.chained.size b (mem_cons_of_mem _ hb)
    · exact S.used b hb
  · have := S.sorted.imp (fun hab : Below _ _ => hab.addr_lt)
    exact pairwise_map.mpr this
  · exact pairwise_append.mpr ⟨hsorted.2.imp Below.apart, S.apart, S.disjoint⟩
  · exact (hsorted.2.imp fun hab : Below _ _ => hab.ne).isChain

theorem malloc_room (hbase : 0 < base) (hinv : Inv base h) (gap : Option ℕ)
    (hle : nbytes ≤ 2 ^ 31 - 16) : ∃ p h', h.malloc base gap nbytes = some (p, h') ∧
      (p = 0 ∧ h'.live = h.live ∨
        ∃ b, p = b.addr + HEADERSIZE ∧ p + nbytes ≤ b.stop ∧ b.stop ≤ h'.brk ∧
          h'.live = b :: h.live ∧ ∀ o ∈ h.live, Apart b o) := by
  obtain ⟨h1, h2, hroom⟩ := nunits_spec hle
  obtain ⟨bs, S⟩ := hinv.ready hbase
  obtain ⟨p, h', bs', hmalloc, S', hret⟩ := search_spec S gap h1 h2 hbase
  rw [ready_live] at hret
  refine ⟨p, h', hmalloc, hret.imp (fun hfail => ⟨hfail.1, hfail.2.1⟩) ?_⟩
  rintro ⟨b, rfl, hsize, hlive⟩
  have hb : b ∈ bs' ++ h'.live := by simp [hlive]
  refine ⟨b, rfl, ?_, (S'.bounds b hb).2.2.trans (min_le_left _ _), hlive, ?_⟩
  · rw [Block.stop, hsize]
    omega
  · have := S'.apart
    rw [hlive] at this
    exact (pairwise_cons.mp this).1

/-- In every state a program reaches with `malloc` and `free`, the free list is well formed and
accounts for all the memory. `malloc` returns 0 or a new block with room for the request, disjoint
from the blocks in use, and `free` returns: neither loop runs for ever. -/
theorem heap_sound {base brk : ℕ} {acts : List Act} {h : Heap} (hbase : 0 < base)
    (hbrk : base + HEADERSIZE ≤ brk)
    (hrun : Trans.Run (step base) Act.Legal (start brk) acts h) :
    (h.freep = 0 ∧ h.live = [] ∧ h.units = 0 ∨ ∃ bs, FreeList base h bs) ∧
      (∀ nbytes gap, nbytes < 2 ^ 30 → ∃ p h', h.malloc base gap nbytes = some (p, h') ∧
        (p = 0 ∧ h'.live = h.live ∨
          ∃ b, p = b.addr + HEADERSIZE ∧ p + nbytes ≤ b.stop ∧ h'.live = b :: h.live ∧
            ∀ o ∈ h.live, Apart b o)) ∧
      ∀ b ∈ h.live, ∃ h', h.free (b.addr + HEADERSIZE) = some h' ∧ h.live.Perm (b :: h'.live) := by
  have hinv := inv_run hbase hbrk hrun
  refine ⟨?_, fun nbytes gap hlt => ?_, fun b hb => ?_⟩
  · rcases hinv with ⟨h₁, h₂, h3, -⟩ | ⟨bs, S⟩
    · exact .inl ⟨h₁, h₂, h3⟩
    · exact .inr ⟨bs, S.freeList⟩
  · obtain ⟨p, h', hmalloc, hret⟩ := malloc_room hbase hinv gap (by omega : nbytes ≤ 2 ^ 31 - 16)
    refine ⟨p, h', hmalloc, hret.imp_right ?_⟩
    rintro ⟨b, hp, hroom, -, hlive, hapart⟩
    exact ⟨b, hp, hroom, hlive, hapart⟩
  · rcases hinv with ⟨-, hlive, -⟩ | ⟨bs, S⟩
    · rw [hlive] at hb
      exact nomatch hb
    · obtain ⟨h', -, hfree, -, hperm⟩ := free_live S hb
      exact ⟨h', hfree, hperm⟩

def threeBlocks : List Act :=
  [.malloc 100 (some 0), .malloc 200 (some 0), .malloc 40000 (some 8), .free 48840, .free 49048]

theorem heap_sound_threeBlocks :
    ∃ h : Heap, Trans.Run (step 4096) Act.Legal (start 16384) threeBlocks h ∧
      h.live = [⟨49160, 5001⟩] ∧ h.units = 9097 ∧ ∃ bs, FreeList 4096 h bs := by
  have hexec : (Trans.exec (step 4096) (fun h a => decide (Act.Legal h a)) (start 16384)
      threeBlocks).any (fun h => decide (h.live = [⟨49160, 5001⟩] ∧ h.units = 9097)) = true := by
    decide +kernel
  obtain ⟨h, hrun, hq⟩ := Trans.Run.of_exec_any (C := Act.Legal)
    (fun _ _ => of_decide_eq_true) hexec
  obtain ⟨hlive, hunits⟩ := of_decide_eq_true hq
  refine ⟨h, hrun, hlive, hunits, ?_⟩
  rcases (heap_sound (by decide) (by decide) hrun).1 with ⟨-, hnone, -⟩ | hlist
  · rw [hlive] at hnone
    exact nomatch hnone
  · exact hlist

/-! ### Requests that wrap around -/

structure Nodes (h : Heap) (N : Set ℕ) : Prop where
  zero : 0 ∉ N
  freep : h.freep ∈ N
  next : ∀ a ∈ N, (h.mem a).ptr ∈ N

theorem Shape.nodes (hbase : 0 < base) (S : Shape base h bs others) :
    Nodes h {a | a ∈ (⟨base, 0⟩ :: bs).map Block.addr} := by
  refine ⟨fun hzero => ?_, S.freep, fun a ha => ?_⟩
  · obtain ⟨d, hd, he⟩ := mem_map.mp hzero
    have := S.base_le hd
    omega
  · obtain ⟨d, hd, rfl⟩ := mem_map.mp ha
    obtain ⟨u, r, hN⟩ := append_of_mem hd
    rw [S.header hN]
    cases r with
    | nil => exact mem_map.mpr ⟨⟨base, 0⟩, mem_cons_self, rfl⟩
    | cons e r => exact mem_map.mpr ⟨e, hN ▸ by simp, rfl⟩

theorem update_ptr_mem {M : Set ℕ} {p ptr size : ℕ} (hptr : ptr ∈ M) {a : ℕ}
    (ha : a ≠ p → (mem a).ptr ∈ M) : (update mem p ⟨ptr, size⟩ a).ptr ∈ M := by
  rcases eq_or_ne a p with rfl | hne
  · rwa [update_self]
  · rw [update_of_ne hne]
    exact ha hne

theorem link_closed {N : Set ℕ} {bp p : ℕ} (hnext : ∀ a ∈ N, (mem a).ptr ∈ N) (hp : p ∈ N) :
    ∀ a ∈ insert bp N, (Heap.link mem bp p a).ptr ∈ insert bp N := by
  have hq := hnext p hp
  obtain ⟨ptr, size, hin, hfirst⟩ : ∃ ptr size, ptr ∈ N ∧
      (if (bp + HEADERSIZE * (mem bp).size) % 2 ^ 32 = (mem p).ptr then
        update mem bp ⟨(mem (mem p).ptr).ptr, (mem bp).size + (mem (mem p).ptr).size⟩
      else update mem bp ⟨(mem p).ptr, (mem bp).size⟩) = update mem bp ⟨ptr, size⟩ := by
    split_ifs
    · exact ⟨_, _, hnext _ hq, rfl⟩
    · exact ⟨_, _, hq, rfl⟩
  have hmem : ∀ a ∈ insert bp N, (update mem bp ⟨ptr, size⟩ a).ptr ∈ insert bp N := fun a ha =>
    update_ptr_mem (.inr hin) fun hne => .inr (hnext a (ha.resolve_left hne))
  intro a ha
  simp only [Heap.link, hfirst]
  split_ifs
  · exact update_ptr_mem (hmem bp (.inl rfl)) fun _ => hmem a ha
  · exact update_ptr_mem (.inl rfl) fun _ => hmem a ha

theorem Nodes.free {N : Set ℕ} {h h' : Heap} {bp : ℕ} (hN : Nodes h N) (hbp : bp ≠ 0)
    (hfree : h.free (bp + HEADERSIZE) = some h') : Nodes h' (insert bp N) ∧ h'.brk = h.brk := by
  simp only [Heap.free, Nat.add_sub_cancel, Option.bind_eq_bind] at hfree
  obtain ⟨p, hwalk, hret⟩ := Option.bind_eq_some_iff.mp hfree
  cases hret
  have hp : p ∈ N := walk_mem hN.next hN.freep hwalk
  refine ⟨⟨?_, .inr hp, link_closed hN.next hp⟩, rfl⟩
  rintro (hzero | hzero)
  · exact hbp hzero.symm
  · exact hN.zero hzero

def request (n : ℕ) : ℕ := (if n < 4096 then 4096 else n) * HEADERSIZE % 2 ^ 32

def Grows (n : ℕ) : Prop := 0 < request n ∧ request n < 2 ^ 31

theorem sbrk_cases {gap : Option ℕ} {o : Option (ℕ × Heap)} (hpos : 0 < h.brk)
    (hsbrk : h.sbrk gap n = some o) :
    o = none ∧ (0 < n ∧ n < 2 ^ 31) ∧ (gap = none ∨ KERNBASE ≤ h.brk + gap.getD 0 + n) ∨
      ∃ brk, o = some (h.brk + gap.getD 0, { h with brk := brk }) ∧ 0 < brk ∧
        (brk ≤ h.brk + gap.getD 0 ∨ (0 < n ∧ n < 2 ^ 31) ∧ brk ≤ KERNBASE) := by
  simp only [Heap.sbrk] at hsbrk
  split_ifs at hsbrk with hint hfull hzero
  · cases hsbrk
    exact .inl ⟨rfl, hint, hfull⟩
  · cases hsbrk
    have hroom := not_le.mp (not_or.mp hfull).2
    exact .inr ⟨_, rfl, by omega, .inr ⟨hint, hroom.le⟩⟩
  · cases hsbrk
    exact .inr ⟨_, rfl, lt_min (by omega) (by omega), .inl (min_le_left _ _)⟩

/-- `morecore` answers 0 only when it has asked for a positive number of bytes that are not there;
otherwise it leaves a ring of nodes. The end of memory stays below `top`. -/
theorem Nodes.morecore {N : Set ℕ} {gap : Option ℕ} {top p : ℕ} {h' : Heap} (hN : Nodes h N)
    (hpos : 0 < h.brk) (htop : h.brk + gap.getD 0 ≤ top) (hgrow : Grows n → KERNBASE ≤ top)
    (hmore : h.morecore gap n = some (p, h')) :
    h'.brk ≤ top ∧
      (p = 0 ∧ Grows n ∧ (gap = none ∨ KERNBASE ≤ h.brk + gap.getD 0 + request n) ∨
        p ≠ 0 ∧ 0 < h'.brk ∧ ∃ N', Nodes h' N') := by
  simp only [Heap.morecore, Option.bind_eq_bind] at hmore
  obtain ⟨o, hsbrk, hmore⟩ := Option.bind_eq_some_iff.mp hmore
  rcases sbrk_cases hpos hsbrk with ⟨rfl, hint, hfull⟩ | ⟨brk, rfl, hbrk, hle⟩
  · cases hmore
    exact ⟨le_trans (Nat.le_add_right _ _) htop, .inl ⟨rfl, hint, hfull⟩⟩
  · by_cases hfault : PGROUNDUP brk < h.brk + gap.getD 0 + HEADERSIZE
    · simp only [if_pos hfault] at hmore
      cases hmore
    simp only [if_neg hfault] at hmore
    obtain ⟨h2, hfree, hret⟩ := Option.bind_eq_some_iff.mp hmore
    cases hret
    have hstored : Nodes { h with
        mem := update h.mem (h.brk + gap.getD 0)
          ⟨(h.mem (h.brk + gap.getD 0)).ptr, if n < 4096 then 4096 else n⟩
        brk := brk
        units := h.units + if n < 4096 then 4096 else n } N := by
      refine ⟨hN.zero, hN.freep, fun a ha => ?_⟩
      rcases eq_or_ne a (h.brk + gap.getD 0) with rfl | hne
      · exact update_ptr_mem (hN.next _ ha) fun hne => absurd rfl hne
      · show (update h.mem _ _ a).ptr ∈ N
        rw [update_of_ne hne]
        exact hN.next a ha
    obtain ⟨hN', hbrk' : h'.brk = brk⟩ := hstored.free (by omega) hfree
    refine ⟨?_, .inr ⟨fun hzero => hN'.zero (hzero ▸ hN'.freep), by omega, _, hN'⟩⟩
    rcases hle with hle | ⟨hint, hle⟩
    · omega
    · have := hgrow hint
      omega

@[simp] theorem take_brk {prevp p : ℕ} : (h.take n prevp p).2.brk = h.brk := by
  unfold Heap.take
  split_ifs <;> rfl

theorem take_pos {prevp p : ℕ} : (h.take n prevp p).1 ≠ 0 := by
  unfold Heap.take
  split_ifs <;> exact Nat.succ_ne_zero _

theorem Nodes.search {N : Set ℕ} {gap : Option ℕ} {fuel top prevp p r : ℕ} {h h' : Heap}
    (hN : Nodes h N) (hpos : 0 < h.brk) (htop : h.brk + gap.getD 0 ≤ top)
    (hgrow : Grows n → KERNBASE ≤ top) (hsearch : h.search gap n fuel prevp p = some (r, h')) :
    h'.brk ≤ top ∧ (r = 0 → Grows n) := by
  induction fuel generalizing gap N prevp p h with
  | zero => cases hsearch
  | succ fuel ih =>
    rw [Heap.search] at hsearch
    split_ifs at hsearch
    · have htake := Option.some.inj hsearch
      have hbrk := congrArg (·.2.brk) htake
      have hp := congrArg (·.1) htake
      simp only [take_brk] at hbrk hp
      exact ⟨by omega, fun hr => absurd (hp.trans hr) take_pos⟩
    · obtain ⟨⟨p', h1⟩, hmore, hret⟩ := Option.bind_eq_some_iff.mp hsearch
      obtain ⟨hbrk, ⟨rfl, hn, -⟩ | ⟨hp', hpos', N', hN'⟩⟩ := hN.morecore hpos htop hgrow hmore
      · cases hret
        exact ⟨hbrk, fun _ => hn⟩
      · simp only [if_neg hp'] at hret
        exact ih hN' hpos' (by cases gap <;> simpa using hbrk) hret
    · exact ih hN hpos htop hsearch

/-- From 2^31 - 15 bytes on, the bytes are no positive `int`, until `nbytes + 7` wraps around. -/
theorem not_grows (hlo : 2 ^ 31 - 16 < nbytes) (hhi : nbytes < 2 ^ 32 - 7) :
    ¬Grows (Heap.nunits nbytes) := by
  have hunits : 2 ^ 28 ≤ Heap.nunits nbytes ∧ Heap.nunits nbytes ≤ 2 ^ 29 := by
    simp only [Heap.nunits, HEADERSIZE]
    omega
  rw [Grows, request, if_neg (by omega), HEADERSIZE]
  omega

theorem nunits_wraps (hlo : 2 ^ 32 - 7 ≤ nbytes) (hhi : nbytes < 2 ^ 32) :
    Heap.nunits nbytes = 1 := by
  simp only [Heap.nunits, HEADERSIZE]
  omega

/-- `malloc` returns 0, or a block with room for the request, below the end of memory and disjoint
from the blocks in use. -/
def Honours (base : ℕ) (h : Heap) (gap : Option ℕ) (nbytes : ℕ) : Prop :=
  ∃ p h', h.malloc base gap nbytes = some (p, h') ∧
    (p = 0 ∨ ∃ b ∈ h'.live, p = b.addr + HEADERSIZE ∧ p + nbytes ≤ b.stop ∧ b.stop ≤ h'.brk ∧
      ∀ o ∈ h.live, Apart b o)

theorem honours_small (hbase : 0 < base) (hinv : Inv base h) (gap : Option ℕ)
    (hle : nbytes ≤ 2 ^ 31 - 16) : Honours base h gap nbytes := by
  obtain ⟨p, h', hmalloc, hret⟩ := malloc_room hbase hinv gap hle
  refine ⟨p, h', hmalloc, ?_⟩
  rcases hret with ⟨hp, -⟩ | ⟨b, hp, hroom, hbrk, hlive, hapart⟩
  · exact .inl hp
  · exact .inr ⟨b, by simp [hlive], hp, hroom, hbrk, hapart⟩

/-- No block has room for a large request, so `malloc` has to return 0, and this it does only when
`sbrk` has been asked for a positive number of bytes. -/
theorem Honours.fails (hbase : 0 < base) {gap : Option ℕ} (hmem : h.brk + gap.getD 0 ≤ PHYSTOP)
    {bs : List Block} (S : Shape base (h.ready base) bs (h.ready base).live)
    (hlo : 2 ^ 31 - 16 < nbytes) (hhon : Honours base h gap nbytes) :
    2 ^ 32 - 7 ≤ nbytes ∧ ∃ h', h.malloc base gap nbytes = some (0, h') := by
  obtain ⟨p, h', hmalloc, hret⟩ := hhon
  have hpos : 0 < (h.ready base).brk := lt_of_lt_of_le (by simp [HEADERSIZE]) S.low
  have hsearch : ∀ top, h.brk + gap.getD 0 ≤ top → (Grows (Heap.nunits nbytes) → KERNBASE ≤ top) →
      h'.brk ≤ top ∧ (p = 0 → Grows (Heap.nunits nbytes)) := fun top htop hgrow =>
    (S.nodes hbase).search hpos (by rwa [ready_brk]) hgrow hmalloc
  have hphys : PHYSTOP < 2 ^ 31 - 16 := by decide
  rcases Nat.lt_or_ge nbytes (2 ^ 32 - 7) with hhi | hhi
  · have hn := not_grows hlo hhi
    obtain ⟨hbrk, hzero⟩ := hsearch PHYSTOP hmem fun hgrow => absurd hgrow hn
    rcases hret with hp | ⟨b, -, -, hroom, hstop, -⟩
    · exact absurd (hzero hp) hn
    · omega
  · have hkern : KERNBASE = 2 ^ 31 := rfl
    obtain ⟨hbrk, -⟩ := hsearch KERNBASE (by omega) fun _ => le_rfl
    rcases hret with rfl | ⟨b, -, -, hroom, hstop, -⟩
    · exact ⟨hhi, h', hmalloc⟩
    · omega

theorem ready_empty_iff {bs : List Block}
    (S : Shape base (h.ready base) bs (h.ready base).live) :
    bs = [] ↔ h.freep = 0 ∨ (h.mem base).ptr = base := by
  have hptr : ((h.ready base).mem base).ptr = first (bs.map Block.addr) base :=
    congrArg Header.ptr (S.header (u := []) rfl)
  have hempty : bs = [] ↔ ((h.ready base).mem base).ptr = base := by
    rw [hptr]
    cases bs with
    | nil => simp
    | cons d bs => simpa using (S.base_lt (b := d) (by simp)).ne'
  rw [hempty, Heap.ready]
  split_ifs with hfreep
  · simp [hfreep]
  · simp [hfreep]

/-- From every heap of a process that fits in memory: a request is honoured exactly when its bytes,
with a header, are a positive `int`; or when `nbytes + 7` wraps around, no block is free and there
is no memory, so that `malloc` returns 0. -/
theorem malloc_honours {base nbytes : ℕ} {h : Heap} {gap : Option ℕ} (hbase : 0 < base)
    (hinv : Inv base h) (hmem : h.brk + gap.getD 0 ≤ PHYSTOP) (hn : nbytes < 2 ^ 32) :
    Honours base h gap nbytes ↔ nbytes ≤ 2 ^ 31 - 16 ∨
      2 ^ 32 - 7 ≤ nbytes ∧ (h.freep = 0 ∨ (h.mem base).ptr = base) ∧ gap = none := by
  obtain ⟨bs, S⟩ := hinv.ready hbase
  constructor
  · intro hhon
    refine (Nat.lt_or_ge (2 ^ 31 - 16) nbytes).symm.imp_right fun hlo => ?_
    obtain ⟨hhi, h', hmalloc⟩ := hhon.fails hbase hmem S hlo
    have hone := nunits_wraps hhi hn
    obtain ⟨p, h'', -, hsearch, -, hret⟩ := search_spec S gap le_rfl (by decide) hbase
    rw [Heap.malloc, hone] at hmalloc
    obtain ⟨rfl, rfl⟩ := Prod.mk.inj (Option.some.inj (hmalloc.symm.trans hsearch))
    rcases hret with ⟨-, -, hsmall, hmore⟩ | ⟨b, hp, -⟩
    · have hbs : bs = [] := by
        refine eq_nil_iff_forall_not_mem.mpr fun d hd => ?_
        have := S.pos (mem_append_left _ hd)
        have := hsmall d hd
        omega
      refine ⟨hhi, (ready_empty_iff S).mp hbs, ?_⟩
      have hpos : 0 < (h.ready base).brk := lt_of_lt_of_le (by simp [HEADERSIZE]) S.low
      have htop : (h.ready base).brk + gap.getD 0 ≤ KERNBASE := by
        rw [ready_brk]
        exact hmem.trans (by decide)
      obtain ⟨-, ⟨-, -, hnone | hfull⟩ | ⟨hne, -⟩⟩ :=
        (S.nodes hbase).morecore hpos htop (fun _ => le_rfl) hmore
      · exact hnone
      · rw [ready_brk] at hfull
        have : PHYSTOP + request 1 < KERNBASE := by decide
        omega
      · exact absurd rfl hne
    · exact absurd hp (Nat.succ_ne_zero _).symm
  · rintro (hle | ⟨hhi, hempty, rfl⟩)
    · exact honours_small hbase hinv gap hle
    · obtain rfl := (ready_empty_iff S).mpr hempty
      refine ⟨0, h.ready base, ?_, .inl rfl⟩
      rw [Heap.malloc, nunits_wraps hhi hn]
      rcases search_circle none S le_rfl (2 * (h.ready base).units + 3) with
        ⟨q, c, -, hc, -⟩ | ⟨-, hmore⟩
      · exact nomatch hc
      · exact hmore

/-- In the heap of the three blocks a fourth gets a free block. -/
theorem malloc_honours_threeBlocks : ∃ h : Heap,
    Trans.Run (step 4096) Act.Legal (start 16384) threeBlocks h ∧
      (h.malloc 4096 (some 0) 300).any (fun r => decide (r.1 ≠ 0)) = true ∧
      Honours 4096 h (some 0) 300 := by
  have hexec : (Trans.exec (step 4096) (fun h a => decide (Act.Legal h a)) (start 16384)
      threeBlocks).any (fun h => decide (h.brk ≤ PHYSTOP ∧
        (h.malloc 4096 (some 0) 300).any (fun r => decide (r.1 ≠ 0)) = true)) = true := by
    decide +kernel
  obtain ⟨h, hrun, hq⟩ := Trans.Run.of_exec_any (C := Act.Legal)
    (fun _ _ => of_decide_eq_true) hexec
  obtain ⟨hbrk, hsome⟩ : h.brk + (some 0).getD 0 ≤ PHYSTOP ∧ _ := of_decide_eq_true hq
  have hinv := inv_run (by decide : 0 < 4096) (by decide) hrun
  exact ⟨h, hrun, hsome,
    (malloc_honours (by decide) hinv hbrk (by decide)).mpr (.inl (by decide))⟩

/-- `nbytes + 7` wraps around, and the block handed out is a header only. The unit count of a
request of 2^31 bytes is a negative `int` for `sbrk`: the header is stored past the last page, or,
when the end of memory is within a page, the block handed out is past the end. -/
theorem malloc_wraps :
    ((start 16384).malloc 4096 (some 0) (2 ^ 32 - 1)).any (fun r =>
      decide (r.1 ≠ 0 ∧ r.2.live = [⟨r.1 - HEADERSIZE, 1⟩])) = true ∧
    ((start 16384).malloc 4096 (some 0) (2 ^ 31)).isNone = true ∧
    ((start 16384).malloc 4096 (some 8) (2 ^ 31)).any (fun r =>
      decide (r.1 ≠ 0 ∧ r.2.brk < r.1)) = true := by
  refine ⟨?_, ?_, ?_⟩ <;> decide +kernel

end Runs

end Xv6.Umalloc
