import Xv6.Spec.Log

/-! Crash atomicity of the redo log. Two predicates on disks carry the argument:
`Clean`, where the header is empty and recovery writes nothing home, and `Logged`,
where the header and the log blocks hold the transaction and any subset of the home
blocks may already be installed. -/

open Function List

namespace Xv6

namespace Machine

def writeAll (m : Machine) (ws : List (ℕ × Block)) : Machine :=
  ws.foldl (fun m w => m.bwrite w.1 w.2) m

theorem bread_bwrite (m : Machine) (b : ℕ) (data : Block) :
    (m.bwrite b data).bread = update m.bread b data := by
  funext x
  by_cases hx : x = b
  · subst hx
    simp [bread, bwrite]
  · simp [bread, bwrite, hx]

@[simp] theorem writeAll_nil (m : Machine) : m.writeAll [] = m := rfl

@[simp] theorem writeAll_cons (m : Machine) (w : ℕ × Block) (ws : List (ℕ × Block)) :
    m.writeAll (w :: ws) = (m.bwrite w.1 w.2).writeAll ws := rfl

theorem writeAll_append (m : Machine) (ws vs : List (ℕ × Block)) :
    m.writeAll (ws ++ vs) = (m.writeAll ws).writeAll vs := by
  simp [writeAll, foldl_append]

variable (m : Machine) (ws : List (ℕ × Block))

theorem bread_writeAll : (m.writeAll ws).bread = Writes.apply ws m.bread := by
  induction ws generalizing m with
  | nil => rfl
  | cons w ws ih => rw [writeAll_cons, ih, bread_bwrite, Writes.apply_cons]

theorem disk_writeAll : (m.writeAll ws).disk = Writes.apply ws m.disk := by
  induction ws generalizing m with
  | nil => rfl
  | cons w ws ih => rw [writeAll_cons, ih]; rfl

theorem writes_writeAll : (m.writeAll ws).writes = m.writes ++ ws := by
  induction ws generalizing m with
  | nil => simp
  | cons w ws ih => rw [writeAll_cons, ih]; simp [bwrite]

@[simp] theorem bread_boot (d : ℕ → Block) : (boot d).bread = d := rfl

theorem crashDisk_writeAll (k : ℕ) :
    crashDisk m (m.writeAll ws) k = Writes.apply (ws.take k) m.disk := by
  rw [crashDisk, writes_writeAll, drop_left]

theorem disk_writeAll_eq_crashDisk {k : ℕ}
    (hk : ws.length ≤ k) : (m.writeAll ws).disk = crashDisk m (m.writeAll ws) k := by
  rw [crashDisk_writeAll, disk_writeAll, take_of_length_le hk]

end Machine

/-! The header block. -/

theorem word_putBlocks_of_le (i : ℕ) (bs : List ℕ) (hb : Block) {k : ℕ} (hk : k ≤ 4 * i) :
    (putBlocks i bs hb).word 4 k = hb.word 4 k := by
  induction bs generalizing i hb with
  | nil => rfl
  | cons b bs ih =>
    rw [putBlocks, ih (i + 1) _ (by omega), Buffer.word_setWord_of_disjoint _ _ _ _ _ _ (by omega)]

theorem word_putBlocks (i : ℕ) (bs : List ℕ) (hb : Block) (j : ℕ) (hj : j < bs.length)
    (hroom : 4 * (i + bs.length + 1) ≤ BSIZE) (hu : bs[j] < 2 ^ 32) :
    (putBlocks i bs hb).word 4 (4 * (i + j + 1)) = bs[j] := by
  induction bs generalizing i hb j with
  | nil => simp at hj
  | cons b bs ih =>
    rw [putBlocks]
    cases j with
    | zero =>
      rw [word_putBlocks_of_le _ _ _ (by omega)]
      simp only [length_cons] at hroom
      rw [Nat.add_zero, Buffer.word_setWord_self _ _ _ _ (by omega)]
      simp only [getElem_cons_zero] at hu ⊢
      exact Nat.mod_eq_of_lt (by simpa using hu)
    | succ j =>
      simp only [length_cons] at hroom hj
      have := ih (i + 1) (hb.setWord 4 (4 * (i + 1)) b) j (by omega) (by omega) (by simpa using hu)
      rw [show i + (j + 1) + 1 = i + 1 + j + 1 by omega, this, getElem_cons_succ]

def headOf (hb : Block) (lh : List ℕ) : Block := putBlocks 0 lh (hb.setWord 4 0 lh.length)

theorem headN_headOf (hb : Block) (lh : List ℕ) (h : lh.length ≤ LOGSIZE) :
    headN (headOf hb lh) = lh.length := by
  have hL : LOGSIZE = 30 := rfl
  have hB : BSIZE = 512 := rfl
  have hw : (headOf hb lh).word 4 0 = lh.length := by
    rw [headOf, word_putBlocks_of_le _ _ _ (by omega),
      Buffer.word_setWord_self _ _ _ _ (by omega), Nat.mod_eq_of_lt (by norm_num; omega)]
  simp only [headN, hw]
  rw [if_pos (by omega)]

theorem headBlock_headOf (hb : Block) (lh : List ℕ) (h : lh.length ≤ LOGSIZE) (i : ℕ)
    (hi : i < lh.length) (hu : lh[i] < 2 ^ 32) : headBlock (headOf hb lh) i = lh[i] := by
  have hL : LOGSIZE = 30 := rfl
  have hB : BSIZE = 512 := rfl
  simpa [headBlock, headOf] using
    word_putBlocks 0 lh (hb.setWord 4 0 lh.length) i hi (by omega) hu

/-! The writes of each routine. -/

namespace Log

def InLog (log : Log) (b : ℕ) : Prop := log.start ≤ b ∧ b < log.start + log.size

instance (log : Log) (b : ℕ) : Decidable (log.InLog b) :=
  inferInstanceAs (Decidable (log.start ≤ b ∧ b < log.start + log.size))

theorem writeLogFrom_eq (start tail : ℕ) (bs : List ℕ) (m : Machine)
    (h : ∀ b ∈ bs, b ≤ start ∨ start + tail + bs.length < b) : writeLogFrom start tail bs m =
      m.writeAll ((bs.zipIdx tail).map fun p => (start + p.2 + 1, m.bread p.1)) := by
  induction bs generalizing tail m with
  | nil => rfl
  | cons b bs ih =>
    rw [writeLogFrom, ih]
    · rw [zipIdx_cons, map_cons, Machine.writeAll_cons]
      congr 1
      apply map_congr_left
      intro p hp
      -- the log block just written is no home block still to be read
      have hmem : p.1 ∈ bs := fst_mem_of_mem_zipIdx hp
      have := h p.1 (mem_cons_of_mem _ hmem)
      rw [Machine.bread_bwrite, update_of_ne]
      simp only [length_cons] at this
      omega
    · intro c hc
      have := h c (mem_cons_of_mem _ hc)
      simp only [length_cons] at this
      omega

theorem installFrom_eq (start tail : ℕ) (bs : List ℕ) (m : Machine)
    (h : ∀ b ∈ bs, b ≤ start ∨ start + tail + bs.length < b) : installFrom start tail bs m =
      m.writeAll ((bs.zipIdx tail).map fun p => (p.1, m.bread (start + p.2 + 1))) := by
  induction bs generalizing tail m with
  | nil => rfl
  | cons b bs ih =>
    have hb := h b mem_cons_self
    simp only [length_cons] at hb
    rw [installFrom, ih]
    · rw [zipIdx_cons, map_cons, Machine.writeAll_cons]
      congr 1
      apply map_congr_left
      intro p hp
      -- the home block just written is no log block still to be read
      have hle := le_snd_of_mem_zipIdx hp
      have hlt := snd_lt_add_of_mem_zipIdx hp
      rw [Machine.bread_bwrite, update_of_ne]
      omega
    · intro c hc
      have := h c (mem_cons_of_mem _ hc)
      simp only [length_cons] at this
      omega

theorem writeHead_eq (log : Log) (m : Machine) :
    log.writeHead m = m.writeAll [(log.start, headOf (m.bread log.start) log.lh)] := rfl

/-- No transaction is on the disk `d`, whose blocks outside the log are those of `c`. -/
structure Clean (log : Log) (c d : ℕ → Block) : Prop where
  head : headN (d log.start) = 0
  home : ∀ b, ¬ log.InLog b → d b = c b

/-- The transaction that stores `new b` in each `b ∈ lh` over `c` is committed on `d`;
each of its blocks may or may not have been installed yet. -/
structure Logged (log : Log) (lh : List ℕ) (c new d : ℕ → Block) : Prop where
  head : headN (d log.start) = lh.length
  block : ∀ i (hi : i < lh.length), headBlock (d log.start) i = lh[i]
  data : ∀ i (hi : i < lh.length), d (log.start + i + 1) = new lh[i]
  home : ∀ b, ¬ log.InLog b → d b = c b ∨ b ∈ lh ∧ d b = new b

def installed (lh : List ℕ) (c new : ℕ → Block) : ℕ → Block :=
  fun b => if b ∈ lh then new b else c b

structure Fits (log : Log) (lh : List ℕ) : Prop where
  room : lh.length + 1 ≤ log.size
  cap : lh.length ≤ LOGSIZE
  outside : ∀ b ∈ lh, ¬ log.InLog b
  uint : ∀ b ∈ lh, b < 2 ^ 32

variable {log : Log} {lh : List ℕ} {c new d : ℕ → Block}

theorem Fits.inLog_start (h : Fits log lh) : log.InLog log.start := by
  have := h.room
  exact ⟨le_rfl, by omega⟩

theorem Fits.inLog_data (h : Fits log lh) {i : ℕ} (hi : i < lh.length) :
    log.InLog (log.start + i + 1) := by
  have := h.room
  exact ⟨by omega, by omega⟩

theorem Fits.apart (h : Fits log lh) : ∀ b ∈ lh, b ≤ log.start ∨ log.start + 0 + lh.length < b := by
  intro b hb
  have hout := h.outside b hb
  have hroom := h.room
  unfold InLog at hout
  omega

theorem Fits.nil (hs : 0 < log.size) : Fits log [] :=
  ⟨by simpa using Nat.succ_le_of_lt hs, by simp, by simp, by simp⟩

theorem clean_of_head (hs : 0 < log.size) (hb : Block) (h : ∀ b, ¬ log.InLog b → d b = c b) :
    Clean log c (update d log.start (headOf hb [])) := by
  refine ⟨?_, fun b hb => ?_⟩
  · rw [update_self, headN_headOf hb [] (by simp)]
    rfl
  · rw [update_of_ne, h b hb]
    rintro rfl
    exact hb (Fits.nil hs).inLog_start

theorem Clean.update_data (h : Clean log c d) {b : ℕ} (hb : log.InLog b) (hne : b ≠ log.start)
    (v : Block) : Clean log c (update d b v) := by
  refine ⟨?_, fun x hx => ?_⟩
  · rw [update_of_ne hne.symm, h.head]
  · rw [update_of_ne, h.home x hx]
    rintro rfl
    exact hx hb

variable (hf : Fits log lh) (h : Logged log lh c new d)

include hf h in
theorem Logged.update_home {b : ℕ} (hb : b ∈ lh) : Logged log lh c new (update d b (new b)) := by
  have hout := hf.outside b hb
  have hkeep : ∀ x, log.InLog x → update d b (new b) x = d x := by
    intro x hx
    rw [update_of_ne]
    rintro rfl
    exact hout hx
  refine ⟨?_, fun i hi => ?_, fun i hi => ?_, fun x hx => ?_⟩
  · rw [hkeep _ hf.inLog_start, h.head]
  · rw [hkeep _ hf.inLog_start, h.block i hi]
  · rw [hkeep _ (hf.inLog_data hi), h.data i hi]
  · by_cases hxb : x = b
    · subst hxb
      exact Or.inr ⟨hb, update_self ..⟩
    · rw [update_of_ne hxb]
      exact h.home x hx

def installWrites (log : Log) (lh : List ℕ) (v : ℕ → Block) : List (ℕ × Block) :=
  (lh.zipIdx 0).map fun p => (p.1, v (log.start + p.2 + 1))

theorem installWrites_length (log : Log) (lh : List ℕ) (v : ℕ → Block) :
    (log.installWrites lh v).length = lh.length := by
  simp [installWrites]

variable {v : ℕ → Block} {d' : ℕ → Block} {w : ℕ × Block}

theorem mem_installWrites (hv : ∀ i (hi : i < lh.length), v (log.start + i + 1) = new lh[i])
    (hw : w ∈ log.installWrites lh v) : w.1 ∈ lh ∧ w.2 = new w.1 := by
  obtain ⟨⟨b, i⟩, hp, rfl⟩ := List.mem_map.mp hw
  obtain ⟨hi, rfl⟩ := List.mk_mem_zipIdx_iff_getElem?.mp hp |> List.getElem?_eq_some_iff.mp
  exact ⟨List.getElem_mem hi, hv i hi⟩

theorem map_fst_installWrites (log : Log) (lh : List ℕ) (v : ℕ → Block) :
    (log.installWrites lh v).map Prod.fst = lh := by
  simp [installWrites, comp_def]

include hf h in
/-- Every prefix of the installs leaves the transaction committed, and all of them
together leave every home block final. -/
theorem Logged.install_prefix
    (hv : ∀ i (hi : i < lh.length), v (log.start + i + 1) = new lh[i]) (k : ℕ) :
    Logged log lh c new (Writes.apply ((log.installWrites lh v).take k) d) := by
  refine Writes.apply_take_induct (fun w hw d' hd' => ?_) h k
  obtain ⟨hmem, hval⟩ := mem_installWrites hv hw
  rw [hval]
  exact hd'.update_home hf hmem

theorem Logged.install_all (h : Logged log lh c new d)
    (hv : ∀ i (hi : i < lh.length), v (log.start + i + 1) = new lh[i]) (b : ℕ)
    (hb : ¬ log.InLog b) : Writes.apply (log.installWrites lh v) d b = installed lh c new b := by
  unfold installed
  split_ifs with hmem
  · apply Writes.apply_of_mem
    · rw [map_fst_installWrites]
      exact hmem
    · rintro w hw rfl
      exact (mem_installWrites hv hw).2
  · rw [Writes.apply_of_not_mem (by rwa [map_fst_installWrites])]
    exact (h.home b hb).resolve_right fun hn => hmem hn.1

/-! Recovery. -/

theorem readHead_start (log : Log) (m : Machine) : (log.readHead m).start = log.start := by
  simp only [readHead]

theorem recoverFromLog_eq (hf : Fits log lh) (hlh : (log.readHead (.boot d)).lh = lh) :
    (log.recoverFromLog (.boot d)).2 = (Machine.boot d).writeAll (log.installWrites lh d ++
        [(log.start, headOf (Writes.apply (log.installWrites lh d) d log.start) [])]) := by
  have hinst : (log.readHead (.boot d)).installTrans (.boot d) =
      (Machine.boot d).writeAll (log.installWrites lh d) := by
    rw [installTrans, hlh, readHead_start]
    exact installFrom_eq log.start 0 lh (.boot d) hf.apart
  have hview := Machine.bread_writeAll (.boot d) (log.installWrites lh d)
  rw [Machine.bread_boot] at hview
  rw [Machine.writeAll_append, ← hview, ← hinst]
  simp only [recoverFromLog, writeHead_eq, readHead_start]

theorem Clean.readHead_lh (h : Clean log c d) : (log.readHead (.boot d)).lh = [] := by
  simp [readHead, h.head]

theorem Logged.readHead_lh (h : Logged log lh c new d) : (log.readHead (.boot d)).lh = lh := by
  simp only [readHead, Machine.bread_boot, h.head, Int.toNat_natCast]
  apply ext_getElem (by simp)
  intro i hi hi'
  simpa using h.block i hi'

theorem Clean.recover_crash (hs : 0 < log.size) (h : Clean log c d) (k : ℕ) :
    Clean log c (crashDisk (.boot d) (log.recoverFromLog (.boot d)).2 k) := by
  rw [recoverFromLog_eq (Fits.nil hs) h.readHead_lh, Machine.crashDisk_writeAll]
  refine Writes.apply_take_induct (fun w hw d' hd' => ?_) h k
  simp only [installWrites, zipIdx_nil, map_nil, nil_append,
    mem_singleton] at hw
  subst hw
  exact clean_of_head hs _ hd'.home

include hf h in
theorem Logged.recover_crash (k : ℕ) :
    Logged log lh c new (crashDisk (.boot d) (log.recoverFromLog (.boot d)).2 k) ∨
      Clean log (installed lh c new) (crashDisk (.boot d) (log.recoverFromLog (.boot d)).2 k) := by
  rw [recoverFromLog_eq hf h.readHead_lh, Machine.crashDisk_writeAll]
  by_cases hk : k ≤ lh.length
  · left
    rw [take_append_of_le_length (by rwa [installWrites_length])]
    exact h.install_prefix hf h.data k
  · right
    rw [take_of_length_le (by simp [installWrites_length]; omega), Writes.apply_append]
    exact clean_of_head (by have := hf.room; omega) _ (h.install_all h.data)

theorem Clean.recover_done (hs : 0 < log.size) (h : Clean log c d) :
    Clean log c (log.recoverFromLog (.boot d)).2.disk := by
  have hcrash := h.recover_crash hs 1
  rw [recoverFromLog_eq (Fits.nil hs) h.readHead_lh] at hcrash ⊢
  rwa [Machine.disk_writeAll_eq_crashDisk _ _ (k := 1) (by simp [installWrites])]

include hf h in
theorem Logged.recover_done :
    Clean log (installed lh c new) (log.recoverFromLog (.boot d)).2.disk := by
  rw [recoverFromLog_eq hf h.readHead_lh, Machine.disk_writeAll, Writes.apply_append]
  exact clean_of_head (by have := hf.room; omega) _ (h.install_all h.data)

theorem Clean.of_recovers (hs : 0 < log.size) (hrec : Recovers log d d')
    (h : Clean log c d) : Clean log c d' := by
  induction hrec with
  | done d => exact h.recover_done hs
  | crash d d' k _ ih => exact ih (h.recover_crash hs k)

theorem Logged.of_recovers (hf : Fits log lh) (hrec : Recovers log d d')
    (h : Logged log lh c new d) : Clean log (installed lh c new) d' := by
  induction hrec with
  | done d => exact h.recover_done hf
  | crash d d' k hrest ih =>
    rcases h.recover_crash hf k with hl | hc
    · exact ih hl
    · exact Clean.of_recovers (by have := hf.room; omega) hrest hc

/-! Commit. -/

def logWrites (log : Log) (lh : List ℕ) (v : ℕ → Block) : List (ℕ × Block) :=
  (lh.zipIdx 0).map fun p => (log.start + p.2 + 1, v p.1)

theorem logWrites_length (log : Log) (lh : List ℕ) (v : ℕ → Block) :
    (log.logWrites lh v).length = lh.length := by
  simp [logWrites]

theorem mem_logWrites (hw : w ∈ log.logWrites lh v) :
    ∃ i, ∃ hi : i < lh.length, w = (log.start + i + 1, v lh[i]) := by
  obtain ⟨⟨b, i⟩, hp, rfl⟩ := List.mem_map.mp hw
  obtain ⟨hi, rfl⟩ := List.mk_mem_zipIdx_iff_getElem?.mp hp |> List.getElem?_eq_some_iff.mp
  exact ⟨i, hi, rfl⟩

theorem Clean.log_prefix (hf : Fits log lh) (h : Clean log c d) (v : ℕ → Block) (k : ℕ) :
    Clean log c (Writes.apply ((log.logWrites lh v).take k) d) := by
  refine Writes.apply_take_induct (fun w hw d' hd' => ?_) h k
  obtain ⟨i, hi, rfl⟩ := mem_logWrites hw
  exact hd'.update_data (hf.inLog_data hi) (by simp; omega) _

theorem log_all (v : ℕ → Block) {i : ℕ} (hi : i < lh.length) :
    Writes.apply (log.logWrites lh v) d (log.start + i + 1) = v lh[i] := by
  apply Writes.apply_of_mem
  · refine mem_map.mpr ⟨(log.start + i + 1, v lh[i]), ?_, rfl⟩
    refine mem_map.mpr ⟨(lh[i], i), ?_, rfl⟩
    exact mk_mem_zipIdx_iff_getElem?.mpr (getElem?_eq_getElem hi)
  · intro w hw hwi
    obtain ⟨j, hj, rfl⟩ := mem_logWrites hw
    obtain rfl : j = i := by simpa using hwi
    rfl

theorem Clean.commit_head (hf : Fits log lh) (h : Clean log c d)
    (hdata : ∀ i (hi : i < lh.length), d (log.start + i + 1) = new lh[i]) (hb : Block) :
    Logged log lh c new (update d log.start (headOf hb lh)) := by
  refine ⟨?_, fun i hi => ?_, fun i hi => ?_, fun b hb => Or.inl ?_⟩
  · rw [update_self, headN_headOf hb lh hf.cap]
  · rw [update_self, headBlock_headOf hb lh hf.cap i hi (hf.uint _ (getElem_mem hi))]
  · rw [update_of_ne (by omega), hdata i hi]
  · rw [update_of_ne, h.home b hb]
    rintro rfl
    exact hb hf.inLog_start

theorem commit_eq (hf : Fits log log.lh) (hpos : 0 < log.lh.length) (m : Machine) :
    ∃ hb hb' v, (∀ i (hi : i < log.lh.length), v (log.start + i + 1) = m.bread log.lh[i]) ∧
      (log.commit m).2 = m.writeAll (log.logWrites log.lh m.bread ++
        (log.start, headOf hb log.lh) :: (log.installWrites log.lh v ++
          [(log.start, headOf hb' [])])) := by
  set m1 := m.writeAll (log.logWrites log.lh m.bread)
  set m2 := m1.writeAll [(log.start, headOf (m1.bread log.start) log.lh)] with hm2
  set m3 := m2.writeAll (log.installWrites log.lh m2.bread)
  have hlog : log.writeLog m = m1 := writeLogFrom_eq log.start 0 log.lh m hf.apart
  have hinst : log.installTrans m2 = m3 := installFrom_eq log.start 0 log.lh m2 hf.apart
  refine ⟨m1.bread log.start, m3.bread log.start, m2.bread, fun i hi => ?_, ?_⟩
  · rw [hm2, Machine.bread_writeAll, Writes.apply_cons, Writes.apply_nil,
      update_of_ne (by simp; omega), Machine.bread_writeAll, log_all m.bread hi]
  · rw [Machine.writeAll_append, Machine.writeAll_cons, Machine.writeAll_append, commit,
      if_pos hpos]
    simp only [hlog, writeHead_eq]
    change _ = (m2.writeAll (log.installWrites log.lh m2.bread)).writeAll _
    rw [hinst]

/-- The disk after any number of the block writes of `commit`: clean with the old
contents up to the header write, committed after it, clean with the new contents after
the last write. -/
theorem commit_crash (hf : Fits log log.lh) (m : Machine) (hidle : headN (m.disk log.start) = 0)
    (k : ℕ) : (k ≤ log.lh.length ∧ Clean log m.disk (crashDisk m (log.commit m).2 k)) ∨
      (log.lh.length < k ∧
        (Logged log log.lh m.disk m.bread (crashDisk m (log.commit m).2 k) ∨
          Clean log (installed log.lh m.disk m.bread) (crashDisk m (log.commit m).2 k))) := by
  have hstart : Clean log m.disk m.disk := ⟨hidle, fun _ _ => rfl⟩
  by_cases hpos : 0 < log.lh.length
  swap
  · -- an empty transaction writes nothing
    have hnil : log.lh = [] := length_eq_zero_iff.mp (by omega)
    have hsame : crashDisk m (log.commit m).2 k = m.disk := by
      simp [commit, hnil, crashDisk]
    have hfin : installed log.lh m.disk m.bread = m.disk := by
      funext b
      simp [installed, hnil]
    rw [hsame, hfin]
    rcases Nat.lt_or_ge log.lh.length k with hk | hk
    · exact Or.inr ⟨hk, Or.inr hstart⟩
    · exact Or.inl ⟨hk, hstart⟩
  obtain ⟨hb, hb', v, hv, hcommit⟩ := commit_eq hf hpos m
  rw [hcommit, Machine.crashDisk_writeAll]
  have hlen := logWrites_length log log.lh m.bread
  have hclean := hstart.log_prefix hf m.bread
  rcases Nat.lt_or_ge log.lh.length k with hk | hk
  swap
  · rw [take_append_of_le_length (by omega)]
    exact Or.inl ⟨hk, hclean k⟩
  -- the header write is among the first k
  have hall := hclean log.lh.length
  rw [take_of_length_le (by omega)] at hall
  have hlogged := hall.commit_head hf (fun i hi => log_all m.bread hi) hb
  obtain ⟨j, rfl⟩ : ∃ j, k = (log.logWrites log.lh m.bread).length + (j + 1) :=
    ⟨k - log.lh.length - 1, by omega⟩
  rw [take_length_add_append, take_succ_cons, Writes.apply_append, Writes.apply_cons]
  refine Or.inr ⟨hk, ?_⟩
  by_cases hj : j ≤ log.lh.length
  · left
    rw [take_append_of_le_length (by rwa [installWrites_length])]
    exact hlogged.install_prefix hf hv j
  · right
    rw [take_of_length_le (by simp [installWrites_length]; omega), Writes.apply_append]
    exact clean_of_head (by have := hf.room; omega) _ (hlogged.install_all hv)

/-- Stop `commit` after any `k` of its block writes and recover, with recovery itself
interrupted any number of times: the home blocks all have their old contents when the
header write (write number `n + 1`) had not been made, else all have the contents of the
buffers; nothing else outside the log changes and the log is empty. -/
theorem commit_crash_atomic (log : Log) (m : Machine) (hf : Fits log log.lh)
    (hidle : headN (m.disk log.start) = 0) (k : ℕ) (d' : ℕ → Block)
    (hrec : Recovers log (crashDisk m (log.commit m).2 k) d') :
    headN (d' log.start) = 0 ∧
      (∀ b, ¬ log.InLog b → b ∉ log.lh → d' b = m.disk b) ∧
      (∀ b ∈ log.lh, d' b = if k ≤ log.lh.length then m.disk b else m.bread b) := by
  have hs : 0 < log.size := by have := hf.room; omega
  rcases commit_crash hf m hidle k with ⟨hk, hc⟩ | ⟨hk, hnew⟩
  · have h := hc.of_recovers hs hrec
    refine ⟨h.head, fun b hb _ => h.home b hb, fun b hb => ?_⟩
    rw [if_pos hk, h.home b (hf.outside b hb)]
  · have h : Clean log (installed log.lh m.disk m.bread) d' := by
      rcases hnew with hl | hc
      · exact hl.of_recovers hf hrec
      · exact hc.of_recovers hs hrec
    refine ⟨h.head, fun b hb hmem => ?_, fun b hb => ?_⟩
    · rw [h.home b hb, installed, if_neg hmem]
    · rw [if_neg (by omega), h.home b (hf.outside b hb), installed, if_pos hb]

/-- Two blocks on an empty image: the machine stops with one of them installed, and again
during the first recovery. -/
theorem commit_crash_atomic_two_blocks :
    let log : Log := ⟨2, nlog, 0, true, [60, 75]⟩
    let new : Block := Buffer.ofFn fun _ => 7
    let m : Machine := ⟨fun _ => Buffer.zero, fun b => if b ∈ [60, 75] then some new else none, []⟩
    let d₁ := crashDisk m (log.commit m).2 4
    let d₂ := crashDisk (.boot d₁) (log.recoverFromLog (.boot d₁)).2 1
    let d' := (log.recoverFromLog (.boot d₂)).2.disk
    headN (d' 2) = 0 ∧ d' 33 = Buffer.zero ∧ d' 60 = new ∧ d' 75 = new := by
  intro log new m d₁ d₂ d'
  have hf : Fits log log.lh := ⟨by decide, by decide, by decide, by decide⟩
  have hidle : headN (m.disk log.start) = 0 := by
    simp [m, headN, Buffer.word, Buffer.slice, Buffer.zero, Bytes.leVal, range_succ]
  have h := commit_crash_atomic log m hf hidle 4 d' (.crash _ _ 1 (.done _))
  clear_value d'
  have hnew : ∀ b ∈ log.lh, d' b = new := by
    intro b hb
    rw [h.2.2 b hb, if_neg (by decide)]
    simp only [m, Machine.bread]
    rw [if_pos hb]
    rfl
  exact ⟨h.1, h.2.1 33 (by decide) (by decide), hnew 60 (by decide), hnew 75 (by decide)⟩

end Log

end Xv6
