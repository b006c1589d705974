import Xv6.Log.Invariant

/-!
# The contents of the blocks

`spec` has the contents that were last logged for each block.  Outside of the log's area the
disk has these contents, unless the block is pinned, and so has every valid buffer, unless
it was changed and not logged yet.  In the log's area the valid buffers agree with the disk,
except for one that the committing thread has filled and is about to write.  What
`install_trans` finds in the log are the contents of the blocks it installs.
-/

namespace Xv6

open Function

/-! ### The assertions -/

namespace Phase

/-- The block of the log's area whose buffer is filled and not yet written. -/
def filling (start : ℕ) : Phase → Option ℕ
  | writeLog tail .write => some (start + tail + 1)
  | writeHead _ .write => some start
  | _ => none

/-- The block with index `k` has been copied to the log. -/
def stages (k : ℕ) : Phase → Prop
  | writeLog tail .dropFirst | writeLog tail .dropSecond => k ≤ tail
  | writeLog tail _ => k < tail
  | writeHead false _ | install .. => True
  | _ => False

/-- Neither between filling a buffer and writing it, nor between writing and unpinning. -/
def calm : Phase → Bool
  | writeLog _ .write | writeHead _ .write | install _ .unpin => false
  | _ => true

variable {a : Phase}

theorem calm_of_not_commits (h : a.commits = false) : a.calm = true := by
  cases a <;> first | rfl | contradiction

theorem not_stages_of_not_commits (h : a.commits = false) (k : ℕ) : ¬ a.stages k := by
  cases a <;> first | exact id | contradiction

theorem filling_of_not_commits (h : a.commits = false) (start : ℕ) : a.filling start = none := by
  cases a <;> first | rfl | contradiction

theorem filling_ne {start b : ℕ} (h : a.filling start = none) : a.filling start ≠ some b := by
  rw [h]
  exact (Option.some_ne_none b).symm

end Phase

open Phase

section Assertions

variable {P : Type} (s : LogSys P)

/-- A valid buffer of a block. -/
structure LogSys.Caches (i : BufId) (b : ℕ) : Prop where
  dev : (s.buf i).dev = ROOTDEV
  valid : (s.buf i).valid = true
  blockno : (s.buf i).blockno = b

/-- What a committing thread has achieved at each place. -/
structure StagedAt (ph : Phase) : Prop where
  staged : ∀ k < s.lh.length, ph.stages k → s.disk (s.start + k + 1) = s.spec (s.lh.getD k 0)
  filled : ∀ tail, ph = .writeLog tail .write → ∀ i, s.Caches i (s.start + tail + 1) →
    (s.buf i).data = s.spec (s.lh.getD tail 0)
  written : ∀ tail, ph = .install tail .unpin →
    s.disk (s.lh.getD tail 0) = s.spec (s.lh.getD tail 0)

/-- The buffer a thread waits for is the one of the block it asked for. -/
def Answered (t : Thread) : Prop :=
  ∀ i, t.micro = .locking i ∨ t.micro = .loading i → (s.buf i).blockno = t.asked

structure Coherent : Prop where
  held : ∀ p, ∀ i ∈ (s.thread p).dirty, i ∈ (s.thread p).held
  op : ∀ p, (s.thread p).phase ≠ .op → (s.thread p).dirty = []
  outside : ∀ b ∈ s.lh, Outside s.start b
  home : ∀ b, Outside s.start b → b ∉ s.pinned → s.disk b = s.spec b
  cached : ∀ i b, s.Caches i b → Outside s.start b → (∀ p, i ∉ (s.thread p).dirty) →
    (s.buf i).data = s.spec b
  area : ∀ i b, s.Caches i b → ¬ Outside s.start b →
    (∀ p, (s.thread p).phase.filling s.start ≠ some b) → (s.buf i).data = s.disk b
  stage : ∀ p, StagedAt s (s.thread p).phase
  answered : ∀ p, Answered s (s.thread p)

end Assertions

section Frame

variable {P : Type} {s s' : LogSys P} {a b : Phase} {t t' : Thread} {i : BufId} {n : ℕ}

/-- Only what has been copied is asserted of a phase that is calm. -/
theorem StagedAt.of_calm (hcalm : a.calm = true)
    (h : ∀ k < s.lh.length, a.stages k → s.disk (s.start + k + 1) = s.spec (s.lh.getD k 0)) :
  StagedAt s a
  := by
  refine ⟨h, ?_, ?_⟩
  · rintro tail rfl
    cases hcalm
  · rintro tail rfl
    cases hcalm

theorem StagedAt.of_not_commits (h : a.commits = false) : StagedAt s a :=
  .of_calm (calm_of_not_commits h) fun k _ hk => absurd hk (not_stages_of_not_commits h k)

/-- A move that needs no new assertion. -/
def Steady (s : LogSys P) (a b : Phase) : Prop :=
  b = a ∨ a.filling s.start = none ∧ b.calm = true ∧ ∀ k < s.lh.length, b.stages k → a.stages k

theorem Steady.of_not_commits (ha : a.commits = false) (hb : b.commits = false) : Steady s a b :=
  Or.inr ⟨filling_of_not_commits ha _, calm_of_not_commits hb,
    fun k _ hk => absurd hk (not_stages_of_not_commits hb k)⟩

theorem StagedAt.steady (h : StagedAt s a) (hab : Steady s a b) : StagedAt s b := by
  obtain rfl | ⟨_, hcalm, hstages⟩ := hab
  · exact h
  · exact .of_calm hcalm fun k hk hb => h.staged k hk (hstages k hk hb)

theorem Steady.filling (h : Steady s a b) (ha : a.filling s.start = some n) :
  b.filling s.start = some n
  := by
  obtain rfl | ⟨hnone, _⟩ := h
  · exact ha
  · rw [hnone] at ha
    cases ha

/-- The blocks, and the valid buffers, have the same contents. -/
structure SameContents (s s' : LogSys P) : Prop where
  disk : s'.disk = s.disk
  spec : s'.spec = s.spec
  lh : s'.lh = s.lh
  start : s'.start = s.start
  pinned : s'.pinned = s.pinned
  caches : ∀ i b, s'.Caches i b → s.Caches i b ∧ (s'.buf i).data = (s.buf i).data

theorem StagedAt.same (h : StagedAt s a) (hsame : SameContents s s') : StagedAt s' a := by
  constructor
  · rw [hsame.disk, hsame.spec, hsame.lh, hsame.start]
    exact h.staged
  · intro tail ha i hi
    rw [hsame.start] at hi
    obtain ⟨hi, hdata⟩ := hsame.caches i _ hi
    rw [hdata, hsame.spec, hsame.lh]
    exact h.filled tail ha i hi
  · rw [hsame.disk, hsame.spec, hsame.lh]
    exact h.written

/-- A thread keeps the buffers that it has changed. -/
structure Keeps (s s' : LogSys P) (t t' : Thread) : Prop where
  dirty : t'.dirty = t.dirty
  held : ∀ i ∈ t.dirty, i ∈ t.held → i ∈ t'.held
  op : t'.phase ≠ .op → t.phase ≠ .op ∨ t.dirty = []
  phase : Steady s t.phase t'.phase
  answered : Answered s t → Answered s' t'

theorem Keeps.refl
    (t : Thread)
    (hno : ∀ i, t.micro = .locking i ∨ t.micro = .loading i → (s'.buf i).blockno = (s.buf i).blockno) :
  Keeps s s' t t
  := by
  refine ⟨rfl, fun _ _ => id, Or.inl, Or.inl rfl, ?_⟩
  intro h i hi
  rw [hno i hi]
  exact h i hi

/-- Steps that change no contents. -/
theorem Coherent.frame
    (hC : Coherent s) (hsame : SameContents s s')
    (hthread : ∀ p, Keeps s s' (s.thread p) (s'.thread p)) :
  Coherent s'
  := by
  constructor
  · intro p i hi
    rw [(hthread p).dirty] at hi
    exact (hthread p).held i hi (hC.held p i hi)
  · intro p hp
    rw [(hthread p).dirty]
    obtain hop | hnil := (hthread p).op hp
    · exact hC.op p hop
    · exact hnil
  · rw [hsame.lh, hsame.start]
    exact hC.outside
  · rw [hsame.start, hsame.pinned, hsame.disk, hsame.spec]
    exact hC.home
  · intro i b hi hout hclean
    rw [hsame.start] at hout
    obtain ⟨hi, hdata⟩ := hsame.caches i b hi
    rw [hdata, hsame.spec]
    apply hC.cached i b hi hout
    intro p
    rw [← (hthread p).dirty]
    exact hclean p
  · intro i b hi hout hfilling
    rw [hsame.start] at hout hfilling
    obtain ⟨hi, hdata⟩ := hsame.caches i b hi
    rw [hdata, hsame.disk]
    apply hC.area i b hi hout
    intro p hp
    exact hfilling p ((hthread p).phase.filling hp)
  · intro p
    exact ((hC.stage p).steady (hthread p).phase).same hsame
  · intro p
    exact (hthread p).answered (hC.answered p)

theorem Goes.steady (h : Goes s a b) : Steady s a b := by
  cases h with
  | request | sleep | wake => exact Steady.of_not_commits rfl rfl
  | start => exact Or.inr ⟨rfl, rfl, fun k _ hk => absurd hk (Nat.not_lt_zero k)⟩
  | skip => exact Or.inr ⟨rfl, rfl, fun _ _ hk => hk.elim⟩
  | head tail htail => exact Or.inr ⟨rfl, rfl, fun k hk _ => Nat.lt_of_lt_of_le hk htail⟩

theorem Calls.steady (h : Calls s n a b) : Steady s a b := by
  cases h with
  | client => exact Or.inl rfl
  | head erase => cases erase <;> exact Or.inr ⟨rfl, rfl, fun _ _ => id⟩
  | _ => exact Or.inr ⟨rfl, rfl, fun _ _ => id⟩

theorem Drops.steady (h : Drops t i b) (s : LogSys P) : Steady s t.phase b := by
  cases h with
  | client => exact Or.inl rfl
  | writeLogHome tail src rest hph | installLog tail dst src rest hph
  | installHome tail dst rest hph => rw [hph]; exact Or.inr ⟨rfl, rfl, fun _ _ => id⟩
  | writeLogLog tail dst rest hph =>
    rw [hph]
    exact Or.inr ⟨rfl, rfl, fun k _ hk => Nat.le_of_lt_succ hk⟩
  | head erase i rest hph =>
    rw [hph]
    cases erase <;> exact Or.inr ⟨rfl, rfl, fun _ _ => id⟩

/-- A thread does not release a buffer that it has changed. -/
theorem Drops.not_dirty (h : Drops t i b) (hop : t.phase ≠ .op → t.dirty = []) : i ∉ t.dirty := by
  cases h with
  | client _ _ _ hi => exact hi
  | writeLogHome _ _ _ hph | writeLogLog _ _ _ hph | head _ _ _ hph | installLog _ _ _ _ hph
  | installHome _ _ _ hph =>
    rw [hop (by simp [hph])]
    exact List.not_mem_nil

/-- Changes of the other fields of a buffer. -/
theorem SameContents.caches_update {b : Buf P} (hbuf : s'.buf = update s.buf i b)
    (h : b.valid = true → b.dev = (s.buf i).dev ∧ (s.buf i).valid = true
      ∧ b.blockno = (s.buf i).blockno ∧ b.data = (s.buf i).data) (j : BufId) (c : ℕ)
    (hj : s'.Caches j c) :
  s.Caches j c ∧ (s'.buf j).data = (s.buf j).data
  := by
  obtain ⟨hdev, hvalid, hno⟩ := hj
  rw [hbuf] at hdev hvalid hno ⊢
  by_cases hji : j = i
  · rw [hji, update_self] at hdev hvalid hno
    rw [hji, update_self]
    obtain ⟨h1, h2, h3, h4⟩ := h hvalid
    exact ⟨⟨h1 ▸ hdev, h2, h3 ▸ hno⟩, h4⟩
  · rw [update_of_ne hji] at hdev hvalid hno ⊢
    exact ⟨⟨hdev, hvalid, hno⟩, rfl⟩

theorem SameContents.caches_eq
    (hbuf : s'.buf = s.buf) (j : BufId) (c : ℕ) (hj : s'.Caches j c) :
  s.Caches j c ∧ (s'.buf j).data = (s.buf j).data
  := by
  obtain ⟨hdev, hvalid, hno⟩ := hj
  rw [hbuf] at hdev hvalid hno ⊢
  exact ⟨⟨hdev, hvalid, hno⟩, rfl⟩

theorem Coherent.wake (hC : Coherent s) : Coherent s.wakeup := by
  refine hC.frame ⟨rfl, rfl, rfl, rfl, rfl, SameContents.caches_eq rfl⟩ ?_
  intro p
  refine ⟨Thread.wake_dirty _, ?_, ?_, ?_, ?_⟩
  · intro i _ hi
    change i ∈ (s.thread p).wake.held
    rw [Thread.wake_held]
    exact hi
  · intro hp
    left
    intro hop
    exact hp (Thread.wake_op.mpr hop)
  · change Steady s _ (s.thread p).wake.phase
    unfold Thread.wake
    split_ifs with hph
    · rw [hph]
      exact Steady.of_not_commits rfl rfl
    · exact Or.inl rfl
  · intro h i hi
    change (s.thread p).wake.micro = _ ∨ (s.thread p).wake.micro = _ at hi
    rw [Thread.wake_micro] at hi
    change _ = (s.thread p).wake.asked
    rw [Thread.wake_asked]
    exact h i hi

end Frame

section Quiet

variable {P : Type} [DecidableEq P] {s s' : LogSys P} {p : P} {t : Thread}

/-- A step of the thread of `p` that changes no contents. -/
theorem Coherent.quiet
    (hC : Coherent s) (hsame : SameContents s s')
    (hthread : s'.thread = update s.thread p t) (hp : Keeps s s' (s.thread p) t)
    (hno : ∀ q, ∀ i ∈ (s.thread q).pending, (s'.buf i).blockno = (s.buf i).blockno) :
  Coherent s'
  := by
  apply hC.frame hsame
  rw [hthread, Function.forall_update_iff s.thread (p := fun q t => Keeps s s' (s.thread q) t)]
  refine ⟨hp, ?_⟩
  intro q _
  apply Keeps.refl
  intro i hi
  apply hno q
  obtain hi | hi := hi <;> simp [Thread.pending, hi]

end Quiet

section Buffers

variable {P : Type} {s : LogSys P} {p : P} {i j : BufId} {b : ℕ}

theorem LogSys.Caches.of_setData {data : Block} (h : (s.setData i data).Caches j b) : s.Caches j b := by
  obtain ⟨hdev, hvalid, hno⟩ := h
  obtain ⟨data', hbuf⟩ := LogSys.setData_buf (s := s) (i := i) data j
  rw [hbuf] at hdev hvalid hno
  exact ⟨hdev, hvalid, hno⟩

variable [Fintype P]

theorem JointInv.caches_held (hI : JointInv s) (hi : i ∈ (s.thread p).held) :
  s.Caches i (s.buf i).blockno
  := ⟨hI.cache.dev p i (CacheInv.uses_pos hi), hI.cache.valid p i hi, rfl⟩

theorem JointInv.caches_unique (hI : JointInv s) (hi : s.Caches i b) (hj : s.Caches j b) :
  i = j
  := hI.cache.unique i j hi.dev hj.dev (hi.blockno.trans hj.blockno.symm)

/-- The buffer of the log that has been filled is there. -/
theorem JointInv.caches_filled (hI : JointInv s) {tail : ℕ}
    (hph : (s.thread p).phase = .writeLog tail .write) :
  ∃ i, s.Caches i (s.start + tail + 1)
  := by
  have hplace := hI.place p
  rw [hph] at hplace
  have hheld : s.start + tail + 1 ∈ (s.thread p).held.map (fun i => (s.buf i).blockno) := by
    obtain h | ⟨i, h⟩ := (s.thread p).pending_cases
    · rw [h] at hplace
      exact hplace.subset (List.mem_cons_of_mem _ List.mem_cons_self)
    · rw [h, List.map_cons] at hplace
      exact (List.cons_prefix_cons.mp hplace).2.subset List.mem_cons_self
  obtain ⟨i, hi, hno⟩ := List.mem_map.mp hheld
  use i
  rw [← hno]
  exact hI.caches_held hi

end Buffers

section Steps

variable {P : Type} [Fintype P] [DecidableEq P] {s s' : LogSys P} {p : P} {t : Thread}

/-! ### Steps that change contents -/

variable {i : BufId} {data : Block}

omit [DecidableEq P] in
/-- A buffer that is not valid gets the contents of the disk, which are those last logged since the
block is not pinned. -/
theorem Coherent.fetch
    (hC : Coherent s) (hI : JointInv s) (hm : (s.thread p).micro = .loading i)
    (hv : (s.buf i).valid = false) :
  Coherent (s.setBuf i { s.buf i with data := s.disk (s.buf i).blockno, valid := true })
  := by
  have hnone : ∀ j, ¬ s.Caches j (s.buf i).blockno := by
    intro j hj
    have hdev := hI.cache.dev p i (by simp [Thread.uses, hm, Micro.refs])
    rw [← hI.cache.unique j i hj.dev hdev hj.blockno, hj.valid] at hv
    cases hv
  have hpinned : (s.buf i).blockno ∉ s.pinned := by
    intro hb
    obtain ⟨j, hdev, hno, hvalid⟩ := hI.cache.pinned _ hb
    exact hnone j ⟨hdev, hvalid, hno⟩
  set s' := s.setBuf i { s.buf i with data := s.disk (s.buf i).blockno, valid := true } with hs'
  have hcaches : ∀ j b, s'.Caches j b → (b = (s.buf i).blockno ∧ (s'.buf j).data = s.disk b)
      ∨ (s.Caches j b ∧ (s'.buf j).data = (s.buf j).data) := by
    rintro j b ⟨hdev, hvalid, hblockno⟩
    simp only [hs', LogSys.setBuf] at hdev hvalid hblockno ⊢
    by_cases hj : j = i
    · left
      rw [hj, update_self] at hblockno
      rw [hj, update_self, hblockno]
      exact ⟨rfl, rfl⟩
    · right
      rw [update_of_ne hj] at hdev hvalid hblockno ⊢
      exact ⟨⟨hdev, hvalid, hblockno⟩, rfl⟩
  refine ⟨hC.held, hC.op, hC.outside, hC.home, ?_, ?_, ?_, ?_⟩
  · intro j b hj hout hclean
    obtain ⟨rfl, hdata⟩ | ⟨hj, hdata⟩ := hcaches j b hj
    · rw [hdata]
      exact hC.home _ hout hpinned
    · rw [hdata]
      exact hC.cached j b hj hout hclean
  · intro j b hj hout hfilling
    obtain ⟨rfl, hdata⟩ | ⟨hj, hdata⟩ := hcaches j b hj
    · exact hdata
    · rw [hdata]
      exact hC.area j b hj hout hfilling
  · intro q
    refine ⟨(hC.stage q).staged, ?_, (hC.stage q).written⟩
    intro tail hq j hj
    obtain ⟨hb, _⟩ | ⟨hj, hdata⟩ := hcaches j _ hj
    · obtain ⟨k, hk⟩ := hI.caches_filled hq
      rw [show s.start + tail + 1 = (s.buf i).blockno from hb] at hk
      exact absurd hk (hnone k)
    · rw [hdata]
      exact (hC.stage q).filled tail hq j hj
  · intro q j hj
    refine Eq.trans ?_ (hC.answered q j hj)
    exact LogSys.setBuf_blockno rfl

/-- `bread` returns. -/
theorem Coherent.load
    (hC : Coherent s) (hI : JointInv s) (hm : (s.thread p).micro = .loading i) :
  Coherent (s.load p i)
  := by
  have hkeeps : ∀ {s₁ s₂ : LogSys P}, Keeps s₁ s₂ (s.thread p)
      { s.thread p with micro := .none, held := i :: (s.thread p).held } := by
    refine ⟨rfl, fun _ _ => List.mem_cons_of_mem i, Or.inl, Or.inl rfl, ?_⟩
    rintro _ j (hj | hj) <;> cases hj
  rw [LogSys.load]
  split_ifs with hv
  · exact hC.quiet ⟨rfl, rfl, rfl, rfl, rfl, SameContents.caches_update rfl (fun h => ⟨rfl, h, rfl, rfl⟩)⟩
      rfl hkeeps (fun _ _ _ => LogSys.setBuf_blockno rfl)
  · exact (hC.fetch hI hm (eq_false_of_ne_true hv)).quiet
      ⟨rfl, rfl, rfl, rfl, rfl, SameContents.caches_eq rfl⟩ rfl hkeeps (fun _ _ _ => rfl)

/-- A thread changes a buffer that it holds. -/
theorem Coherent.modify (hC : Coherent s) (hI : JointInv s) (hph : (s.thread p).phase = .op)
    (hi : i ∈ (s.thread p).held) (hout : Outside s.start (s.buf i).blockno) :
  Coherent ((s.setData i data).setThread p { s.thread p with dirty := i :: (s.thread p).dirty })
  := by
  have hnot := hI.log.not_commits (hI.log.not_committing hph)
  have hno : ∀ j, ((s.setData i data).buf j).blockno = (s.buf j).blockno :=
    fun _ => LogSys.setBuf_blockno rfl
  constructor
  · apply (Function.forall_update_iff s.thread (p := fun _ t => ∀ j ∈ t.dirty, j ∈ t.held)).mpr
    refine ⟨?_, fun q _ => hC.held q⟩
    intro j hj
    obtain rfl | hj := List.mem_cons.mp hj
    · exact hi
    · exact hC.held p j hj
  · apply (Function.forall_update_iff s.thread (p := fun _ t => t.phase ≠ .op → t.dirty = [])).mpr
    exact ⟨fun h => absurd hph h, fun q _ => hC.op q⟩
  · exact hC.outside
  · exact hC.home
  · intro j b hj hb hclean
    have hdirty := (Function.forall_update_iff s.thread (p := fun _ t => j ∉ t.dirty)).mp hclean
    have hji : j ≠ i := by
      rintro rfl
      exact hdirty.1 List.mem_cons_self
    refine (LogSys.setData_of_ne hji).trans (hC.cached j b (LogSys.Caches.of_setData ⟨hj.dev, hj.valid, hj.blockno⟩) hb ?_)
    intro q
    by_cases hq : q = p
    · rw [hq]
      exact fun h => hdirty.1 (List.mem_cons_of_mem i h)
    · exact hdirty.2 q hq
  · intro j b hj hb _
    have hj' : s.Caches j b := LogSys.Caches.of_setData ⟨hj.dev, hj.valid, hj.blockno⟩
    have hji : j ≠ i := by
      rintro rfl
      rw [hj'.blockno] at hout
      exact hb hout
    refine (LogSys.setData_of_ne hji).trans (hC.area j b hj' hb ?_)
    exact fun q => filling_ne (filling_of_not_commits (hnot q) _)
  · intro q
    apply StagedAt.of_not_commits
    refine LogInv.commits_update (fun q _ => hnot q) ?_ q
    exact hnot p
  · apply (Function.forall_update_iff s.thread (p := fun _ t => Answered _ t)).mpr
    constructor
    · intro j hj
      exact (hno j).trans (hC.answered p j hj)
    · intro q _ j hj
      exact (hno j).trans (hC.answered q j hj)

variable {b : ℕ}

section

variable (hC : Coherent s) (hI : JointInv s) (hph : (s.thread p).phase = .op)
  (hi : i ∈ (s.thread p).held)

include hC hI hph hi

/-- `log_write`: the contents of the buffer become those last logged, and the block is
pinned. -/
theorem Coherent.logBlock (hb : (s.buf i).blockno = b) (hout : Outside s.start b)
    (hdisk : s'.disk = s.disk) (hspec : s'.spec = update s.spec b (s.buf i).data)
    (hstart : s'.start = s.start) (hlh : ∀ c ∈ s'.lh, c ∈ s.lh ∨ c = b)
    (hpinned : ∀ c, c ∉ s'.pinned → c ∉ s.pinned ∧ c ≠ b)
    (hcaches : ∀ j c, s'.Caches j c → s.Caches j c ∧ (s'.buf j).data = (s.buf j).data)
    (hno : ∀ j, (s'.buf j).blockno = (s.buf j).blockno)
    (hthread : s'.thread = update s.thread p ((s.thread p).record i b)) :
  Coherent s'
  := by
  have hnot := hI.log.not_commits (hI.log.not_committing hph)
  have hi' := hI.caches_held hi
  rw [hb] at hi'
  constructor
  · rw [hthread, Function.forall_update_iff s.thread (p := fun _ t => ∀ j ∈ t.dirty, j ∈ t.held)]
    refine ⟨?_, fun q _ => hC.held q⟩
    intro j hj
    exact hC.held p j (List.mem_of_mem_filter hj)
  · rw [hthread, Function.forall_update_iff s.thread (p := fun _ t => t.phase ≠ .op → t.dirty = [])]
    exact ⟨fun h => absurd hph h, fun q _ => hC.op q⟩
  · intro c hc
    rw [hstart]
    obtain hc | rfl := hlh c hc
    · exact hC.outside c hc
    · exact hout
  · intro c hc hcp
    rw [hstart] at hc
    obtain ⟨hcp, hne⟩ := hpinned c hcp
    rw [hdisk, hspec, update_of_ne hne]
    exact hC.home c hc hcp
  · intro j c hj hc hclean
    rw [hstart] at hc
    rw [hthread, Function.forall_update_iff s.thread (p := fun _ t => j ∉ t.dirty)] at hclean
    obtain ⟨hj, hdata⟩ := hcaches j c hj
    rw [hdata, hspec]
    by_cases hcb : c = b
    · rw [hcb] at hj
      rw [hI.caches_unique hj hi', hcb, update_self]
    · rw [update_of_ne hcb]
      have hji : j ≠ i := by
        rintro rfl
        exact hcb (hj.blockno.symm.trans hb)
      apply hC.cached j c hj hc
      intro q
      by_cases hq : q = p
      · rw [hq]
        intro h
        apply hclean.1
        exact List.mem_filter.mpr ⟨h, by simpa using hji⟩
      · exact hclean.2 q hq
  · intro j c hj hc _
    rw [hstart] at hc
    obtain ⟨hj, hdata⟩ := hcaches j c hj
    rw [hdata, hdisk]
    apply hC.area j c hj hc
    exact fun q => filling_ne (filling_of_not_commits (hnot q) _)
  · intro q
    rw [hthread]
    apply StagedAt.of_not_commits
    refine LogInv.commits_update (fun q _ => hnot q) ?_ q
    exact hnot p
  · rw [hthread, Function.forall_update_iff s.thread (p := fun _ t => Answered _ t)]
    constructor
    · intro j hj
      rw [hno]
      exact hC.answered p j hj
    · intro q _ j hj
      rw [hno]
      exact hC.answered q j hj

theorem Coherent.log (hout : Outside s.start (s.buf i).blockno)
    (hroom : s.lh.length < LOGBLOCKS) (hopen : 0 < s.outstanding) :
  Coherent (s.logWrite p i)
  := by
  have hpinned := hI.log.pinned (hI.log.not_committing hph)
  rw [LogInv.logWrite_eq hroom hopen]
  split_ifs with hb
  · refine hC.logBlock hI hph hi rfl hout rfl rfl rfl (fun _ => Or.inl) ?_
      (SameContents.caches_eq rfl) (fun _ => rfl) rfl
    intro c hc
    refine ⟨hc, ?_⟩
    rintro rfl
    apply hc
    change _ ∈ s.pinned
    rw [hpinned]
    exact hb
  · refine hC.logBlock hI hph hi rfl hout rfl rfl rfl ?_ ?_
      (SameContents.caches_update rfl (fun h => ⟨rfl, h, rfl, rfl⟩))
      (fun _ => LogSys.setBuf_blockno rfl) rfl
    · intro c hc
      change c ∈ s.lh ++ [(s.buf i).blockno] at hc
      simpa using hc
    · intro c hc
      change c ∉ s.pinned ++ [(s.buf i).blockno] at hc
      simpa using hc

end

/-! ### The committing thread -/

section Commit

variable {a ph : Phase} (hC : Coherent s) (hI : JointInv s) (hph : (s.thread p).phase = a)
  (hp : a.commits = true)

include hC hI hph hp

omit [DecidableEq P] in
/-- During a commit no buffer is changed by an operation. -/
theorem Coherent.dirty_of_commits (q : P) : (s.thread q).dirty = [] :=
  hC.op q (hI.log.not_op ((hI.log.loc p).commits (hph ▸ hp)) q)

omit [DecidableEq P] in
theorem Coherent.cached_of_commits (hi : s.Caches i b) (hb : Outside s.start b) :
  (s.buf i).data = s.spec b
  := by
  apply hC.cached i b hi hb
  intro q
  rw [hC.dirty_of_commits hI hph hp]
  exact List.not_mem_nil

omit [DecidableEq P] in
/-- During a commit only the committing thread fills buffers. -/
theorem Coherent.area_of_commits (hi : s.Caches i b) (hb : ¬ Outside s.start b)
    (hfilling : a.filling s.start ≠ some b) :
  (s.buf i).data = s.disk b
  := by
  apply hC.area i b hi hb
  intro q
  by_cases hq : q = p
  · rw [hq, hph]
    exact hfilling
  · exact filling_ne (filling_of_not_commits (hI.log.others_of_commits (hph ▸ hp) hq).2 _)

/-- A step of the committing thread. -/
theorem Coherent.commitStep
    (hm : (s.thread p).micro = .none)
    (hthread : s'.thread = update s.thread p { s.thread p with phase := ph })
    (hno : ∀ i, (s'.buf i).blockno = (s.buf i).blockno)
    (houtside : ∀ b ∈ s'.lh, Outside s'.start b)
    (hhome : ∀ b, Outside s'.start b → b ∉ s'.pinned → s'.disk b = s'.spec b)
    (hcached : ∀ i b, s'.Caches i b → Outside s'.start b → (s'.buf i).data = s'.spec b)
    (harea : ∀ i b, s'.Caches i b → ¬ Outside s'.start b → ph.filling s'.start ≠ some b →
    (s'.buf i).data = s'.disk b)
    (hstage : StagedAt s' ph) :
  Coherent s'
  := by
  have hclean := hC.dirty_of_commits hI hph hp
  have hclean' : ∀ q, (s'.thread q).dirty = [] := by
    rw [hthread, Function.forall_update_iff s.thread (p := fun _ t => t.dirty = [])]
    exact ⟨hclean p, fun q _ => hclean q⟩
  constructor
  · intro q i hi
    rw [hclean' q] at hi
    cases hi
  · intro q _
    exact hclean' q
  · exact houtside
  · exact hhome
  · intro i b hi hb _
    exact hcached i b hi hb
  · intro i b hi hb hfilling
    apply harea i b hi hb
    have := hfilling p
    rwa [hthread, update_self] at this
  · rw [hthread, Function.forall_update_iff s.thread (p := fun _ t => StagedAt s' t.phase)]
    exact ⟨hstage, fun q hq => StagedAt.of_not_commits (hI.log.others_of_commits (hph ▸ hp) hq).2⟩
  · rw [hthread, Function.forall_update_iff s.thread (p := fun _ t => Answered s' t)]
    constructor
    · rintro i (hi | hi)
      · rw [hm] at hi
        cases hi
      · rw [hm] at hi
        cases hi
    · intro q _ i hi
      rw [hno]
      exact hC.answered q i hi

end Commit

variable {a ph : Phase} {rest : List BufId} {bs : List ℕ}

omit [DecidableEq P] in
/-- The latest buffer of a committing thread. -/
theorem JointInv.caches_head (hI : JointInv s) (hph : (s.thread p).phase = a)
    (hm : (s.thread p).micro = .none) (hheld : (s.thread p).held = i :: rest)
    (hstack : a.stack s.start s.lh = b :: bs) :
  s.Caches i b
  := by
  have hplace := hI.place p
  rw [hph, hstack, Thread.pending_of_none hm, hheld, List.map_cons] at hplace
  rw [(List.cons_prefix_cons.mp hplace).1]
  apply hI.caches_held (p := p)
  rw [hheld]
  exact List.mem_cons_self

omit [DecidableEq P] in
/-- The buffer that a committing thread got before its latest one. -/
theorem JointInv.caches_second (hI : JointInv s) {i j : BufId} {b c : ℕ}
    (hph : (s.thread p).phase = a)
    (hm : (s.thread p).micro = .none) (hheld : (s.thread p).held = i :: j :: rest)
    (hstack : a.stack s.start s.lh = b :: c :: bs) :
  s.Caches j c
  := by
  have hplace := hI.place p
  rw [hph, hstack, Thread.pending_of_none hm, hheld, List.map_cons, List.map_cons] at hplace
  rw [(List.cons_prefix_cons.mp (List.cons_prefix_cons.mp hplace).2).1]
  apply hI.caches_held (p := p)
  rw [hheld]
  exact List.mem_cons_of_mem _ List.mem_cons_self

variable {tail : ℕ}

omit [Fintype P] [DecidableEq P] in
theorem Coherent.outside_getD (hC : Coherent s) (h : tail < s.lh.length) :
  Outside s.start (s.lh.getD tail 0)
  := by
  apply hC.outside
  rw [List.getD_eq_getElem _ _ h]
  exact List.getElem_mem h

omit [DecidableEq P] in
theorem LogInv.not_outside (hI : LogInv s) (h : tail < s.lh.length) :
  ¬ Outside s.start (s.start + tail + 1)
  := by
  have := hI.budget
  unfold Outside
  omega

theorem not_outside_start (start : ℕ) : ¬ Outside start start := by
  unfold Outside
  omega

omit [DecidableEq P] in
/-- The round a committing thread is in. -/
theorem LogInv.round_lt (hI : LogInv s) (hph : (s.thread p).phase = ph)
    (h : ph.inRange s.lh → tail < s.lh.length) :
  tail < s.lh.length
  := by
  apply h
  rw [← hph]
  exact (hI.loc p).range

omit [Fintype P] [DecidableEq P] in
theorem Coherent.stageAt (hC : Coherent s) (hph : (s.thread p).phase = a) : StagedAt s a := hph ▸ hC.stage p

variable (hC : Coherent s) (hI : JointInv s)

include hC hI

/-- The committing thread changes a buffer of the log's area. -/
theorem Coherent.fillArea (hph : (s.thread p).phase = a)
    (hp : a.commits = true) (hm : (s.thread p).micro = .none) (hi : s.Caches i b)
    (hb : ¬ Outside s.start b) (hbefore : a.filling s.start = none)
    (hafter : ph.filling s.start = some b) (hstage : StagedAt ((s.setData i data).goto p ph) ph) :
  Coherent ((s.setData i data).goto p ph)
  := by
  have hcaches : ∀ {j c}, ((s.setData i data).goto p ph).Caches j c → s.Caches j c :=
    fun h => LogSys.Caches.of_setData ⟨h.dev, h.valid, h.blockno⟩
  have hdata : ∀ {j c}, s.Caches j c → c ≠ b → ((s.setData i data).buf j).data = (s.buf j).data := by
    intro j c hj hcb
    have hji : j ≠ i := by
      rintro rfl
      exact hcb (hj.blockno.symm.trans hi.blockno)
    exact LogSys.setData_of_ne hji
  refine hC.commitStep hI hph hp hm rfl (fun _ => LogSys.setBuf_blockno rfl) hC.outside hC.home ?_ ?_ hstage
  · intro j c hj hc
    have hcb : c ≠ b := by
      rintro rfl
      exact hb hc
    exact (hdata (hcaches hj) hcb).trans (hC.cached_of_commits hI hph hp (hcaches hj) hc)
  · intro j c hj hc hfilling
    have hcb : c ≠ b := by
      rintro rfl
      exact hfilling hafter
    exact (hdata (hcaches hj) hcb).trans
      (hC.area_of_commits hI hph hp (hcaches hj) hc (filling_ne hbefore))

/-- `write_log` and `install_trans` copy a block, `write_head` makes up the header. -/
theorem Coherent.fill (hm : (s.thread p).micro = .none) (hfill : Fills s (s.thread p) i data ph) :
  Coherent ((s.setData i data).goto p ph)
  := by
  cases hfill with
  | stage tail src i rest hph hheld =>
    have hlt : tail < s.lh.length := hI.log.round_lt hph id
    have hsrc : s.Caches src (s.lh.getD tail 0) := hI.caches_head hph hm hheld rfl
    have hdst : s.Caches i (s.start + tail + 1) := hI.caches_second hph hm hheld rfl
    have hstage := hC.stageAt hph
    refine hC.fillArea hI hph rfl hm hdst (hI.log.not_outside hlt) rfl rfl
      ⟨hstage.staged, ?_, nofun⟩
    · intro tail' htail j hj
      obtain ⟨rfl, -⟩ := Phase.writeLog.inj htail
      obtain rfl := hI.caches_unique hdst (LogSys.Caches.of_setData ⟨hj.dev, hj.valid, hj.blockno⟩)
      refine Eq.trans ?_ (hC.cached_of_commits hI hph rfl hsrc (hC.outside_getD hlt))
      exact LogSys.setData_self
  | head erase i rest hph hheld =>
    have hi : s.Caches i s.start := hI.caches_head hph hm hheld rfl
    have hstage := hC.stageAt hph
    refine hC.fillArea hI hph rfl hm hi (not_outside_start _) rfl rfl ⟨?_, nofun, nofun⟩
    cases erase <;> exact hstage.staged
  | install tail i src rest hph hheld =>
    have hlt : tail < s.lh.length := hI.log.round_lt hph id
    have hdst : s.Caches i (s.lh.getD tail 0) := hI.caches_head hph hm hheld rfl
    have hsrc : s.Caches src (s.start + tail + 1) := hI.caches_second hph hm hheld rfl
    have hstage := hC.stageAt hph
    have hlogged : (s.buf src).data = s.spec (s.lh.getD tail 0) := by
      rw [← hstage.staged tail hlt trivial]
      exact hC.area_of_commits hI hph rfl hsrc (hI.log.not_outside hlt) (filling_ne rfl)
    refine hC.commitStep hI hph rfl hm rfl (fun _ => LogSys.setBuf_blockno rfl) hC.outside hC.home ?_ ?_
      (.of_calm rfl hstage.staged)
    · intro j c hj hc
      have hj' : s.Caches j c := LogSys.Caches.of_setData ⟨hj.dev, hj.valid, hj.blockno⟩
      by_cases hji : j = i
      · subst hji
        rw [← hj'.blockno, hdst.blockno]
        exact LogSys.setData_self.trans hlogged
      · exact (LogSys.setData_of_ne hji).trans (hC.cached_of_commits hI hph rfl hj' hc)
    · intro j c hj hc _
      have hj' : s.Caches j c := LogSys.Caches.of_setData ⟨hj.dev, hj.valid, hj.blockno⟩
      have hji : j ≠ i := by
        rintro rfl
        rw [← hj'.blockno, hdst.blockno] at hc
        exact hc (hC.outside_getD hlt)
      exact (LogSys.setData_of_ne hji).trans
        (hC.area_of_commits hI hph rfl hj' hc (filling_ne rfl))

/-- The committing thread writes the buffer of the log's area that it has filled. -/
theorem Coherent.writeArea (hph : (s.thread p).phase = a)
    (hp : a.commits = true) (hm : (s.thread p).micro = .none) (hi : s.Caches i b)
    (hb : ¬ Outside s.start b) (hbefore : a.filling s.start = some b)
    (hstage : StagedAt ((s.bwrite i).goto p ph) ph) :
  Coherent ((s.bwrite i).goto p ph)
  := by
  have hne : ∀ c, c ≠ b → (s.bwrite i).disk c = s.disk c := by
    intro c hc
    apply update_of_ne
    rw [hi.blockno]
    exact hc
  refine hC.commitStep hI hph hp hm rfl (fun _ => rfl) hC.outside ?_ ?_ ?_ hstage
  · intro c hc hpinned
    have hcb : c ≠ b := by
      rintro rfl
      exact hb hc
    exact (hne c hcb).trans (hC.home c hc hpinned)
  · intro j c hj hc
    exact hC.cached_of_commits hI hph hp ⟨hj.dev, hj.valid, hj.blockno⟩ hc
  · intro j c hj hc _
    have hj' : s.Caches j c := ⟨hj.dev, hj.valid, hj.blockno⟩
    by_cases hcb : c = b
    · subst hcb
      obtain rfl := hI.caches_unique hj' hi
      change (s.buf j).data = update s.disk (s.buf j).blockno (s.buf j).data c
      rw [hi.blockno, update_self]
    · refine Eq.trans ?_ (hne c hcb).symm
      apply hC.area_of_commits hI hph hp hj' hc
      rw [hbefore]
      exact fun h => hcb (Option.some.inj h).symm

/-- `bwrite` by the committing thread. -/
theorem Coherent.write (hm : (s.thread p).micro = .none) (hwrite : Writes (s.thread p) i ph) :
  Coherent ((s.bwrite i).goto p ph)
  := by
  cases hwrite with
  | stage tail src i rest hph hheld =>
    have hlt : tail < s.lh.length := hI.log.round_lt hph id
    have hi : s.Caches i (s.start + tail + 1) := hI.caches_second hph hm hheld rfl
    have hstage := hC.stageAt hph
    refine hC.writeArea hI hph rfl hm hi (hI.log.not_outside hlt) rfl (.of_calm rfl ?_)
    intro k hk hle
    change update s.disk (s.buf i).blockno (s.buf i).data (s.start + k + 1) = _
    rw [hi.blockno]
    obtain rfl | hlt := Nat.eq_or_lt_of_le (show k ≤ tail from hle)
    · rw [update_self]
      exact hstage.filled k rfl i hi
    · rw [update_of_ne (by omega)]
      exact hstage.staged k hk hlt
  | head erase i rest hph hheld =>
    have hi : s.Caches i s.start := hI.caches_head hph hm hheld rfl
    have hstage := hC.stageAt hph
    refine hC.writeArea hI hph rfl hm hi (not_outside_start _) rfl
      (.of_calm (by cases erase <;> rfl) ?_)
    intro k hk hall
    change update s.disk (s.buf i).blockno (s.buf i).data (s.start + k + 1) = _
    rw [hi.blockno, update_of_ne (by omega)]
    apply hstage.staged k hk
    cases erase <;> exact hall
  | install tail i rest hph hheld =>
    have hlt : tail < s.lh.length := hI.log.round_lt hph id
    have hi : s.Caches i (s.lh.getD tail 0) := hI.caches_head hph hm hheld rfl
    have hout := hC.outside_getD hlt
    have hdata := hC.cached_of_commits hI hph rfl hi hout
    have hstage := hC.stageAt hph
    have hdisk : ((s.bwrite i).goto p (.install tail .unpin)).disk
        = update s.disk (s.lh.getD tail 0) (s.spec (s.lh.getD tail 0)) := by
      rw [← hdata, ← hi.blockno]
      rfl
    refine hC.commitStep hI hph rfl hm rfl (fun _ => rfl) hC.outside ?_ ?_ ?_ ⟨?_, nofun, ?_⟩
    · intro c hc hpinned
      rw [hdisk]
      by_cases hcb : c = s.lh.getD tail 0
      · rw [hcb, update_self]
        rfl
      · rw [update_of_ne hcb]
        exact hC.home c hc hpinned
    · intro j c hj hc
      exact hC.cached_of_commits hI hph rfl ⟨hj.dev, hj.valid, hj.blockno⟩ hc
    · intro j c hj hc _
      have hcb : c ≠ s.lh.getD tail 0 := by
        rintro rfl
        exact hc hout
      rw [hdisk, update_of_ne hcb]
      exact hC.area_of_commits hI hph rfl ⟨hj.dev, hj.valid, hj.blockno⟩ hc (filling_ne rfl)
    · intro k hk _
      have hcb : s.start + k + 1 ≠ s.lh.getD tail 0 := by
        intro h
        rw [← h] at hout
        exact hI.log.not_outside hk hout
      rw [hdisk]
      refine (update_of_ne hcb _ _).trans ?_
      exact hstage.staged k hk trivial
    · intro tail' htail
      obtain ⟨rfl, -⟩ := Phase.install.inj htail
      rw [hdisk]
      exact update_self _ _ _

/-- A block is unpinned when the disk has its contents. -/
theorem Coherent.unpin
    (hm : (s.thread p).micro = .none) (hph : (s.thread p).phase = .install tail .unpin)
    (hheld : (s.thread p).held = i :: rest) :
  Coherent ((s.bunpin i).goto p (.install tail .dropFirst))
  := by
  have hstage := hC.stageAt hph
  have hcaches : ∀ j c, ((s.bunpin i).goto p (.install tail .dropFirst)).Caches j c →
      s.Caches j c ∧ (((s.bunpin i).goto p (.install tail .dropFirst)).buf j).data = (s.buf j).data :=
    SameContents.caches_update rfl (fun h => ⟨rfl, h, rfl, rfl⟩)
  refine hC.commitStep hI hph rfl hm rfl (fun _ => LogSys.setBuf_blockno rfl) hC.outside ?_ ?_ ?_
    (.of_calm rfl hstage.staged)
  · intro b hb hpinned
    by_cases hbi : b = (s.buf i).blockno
    · rw [hbi, hI.place.unpin hm hph hheld]
      exact hstage.written tail rfl
    · apply hC.home b hb
      intro hmem
      exact hpinned ((List.mem_erase_of_ne hbi).mpr hmem)
  · intro j c hj hc
    obtain ⟨hj, hdata⟩ := hcaches j c hj
    exact hdata.trans (hC.cached_of_commits hI hph rfl hj hc)
  · intro j c hj hc _
    obtain ⟨hj, hdata⟩ := hcaches j c hj
    exact hdata.trans (hC.area_of_commits hI hph rfl hj hc (filling_ne rfl))

theorem Coherent.clear (hm : (s.thread p).micro = .none)
    (hph : (s.thread p).phase = .install tail .readLog) :
  Coherent ({ s with lh := [] }.goto p (.writeHead true .read))
  := by
  refine hC.commitStep hI hph rfl hm rfl (fun _ => rfl) nofun hC.home ?_ ?_ (.of_calm rfl nofun)
  · intro j c hj hc
    exact hC.cached_of_commits hI hph rfl ⟨hj.dev, hj.valid, hj.blockno⟩ hc
  · intro j c hj hc _
    exact hC.area_of_commits hI hph rfl ⟨hj.dev, hj.valid, hj.blockno⟩ hc (filling_ne rfl)

/-! ### Every step -/

theorem Coherent.effect (he : LogEffect s p s') : Coherent s' := by
  cases he with
  | move ph hgo =>
    refine hC.quiet ⟨rfl, rfl, rfl, rfl, rfl, SameContents.caches_eq rfl⟩ rfl
      ⟨rfl, fun _ _ => id, ?_, hgo.steady, id⟩ (fun _ _ _ => rfl)
    intro hop
    exact Or.inl (fun h => hop (hgo.follows.op_iff.mpr h))
  | enter hph =>
    refine hC.quiet ⟨rfl, rfl, rfl, rfl, rfl, SameContents.caches_eq rfl⟩ rfl
      ⟨rfl, fun _ _ => id, ?_, ?_, id⟩ (fun _ _ _ => rfl)
    · intro hop
      exact absurd rfl hop
    · rw [hph]
      exact Steady.of_not_commits rfl rfl
  | hit b ph i hm hcall hdev hno =>
    refine hC.quiet ⟨rfl, rfl, rfl, rfl, rfl,
      SameContents.caches_update rfl (fun h => ⟨rfl, h, rfl, rfl⟩)⟩ rfl
      ⟨rfl, fun _ _ => id, ?_, hcall.steady, ?_⟩ (fun _ _ _ => LogSys.setBuf_blockno rfl)
    · intro hop
      exact Or.inl (fun h => hop (hcall.follows.op_iff.mpr h))
    · rintro _ j (hj | hj)
      · obtain rfl := Micro.locking.inj hj
        simpa [LogSys.setThread, LogSys.setBuf] using hno
      · cases hj
  | recycle b ph i hm hcall hnone hfree =>
    refine hC.quiet ⟨rfl, rfl, rfl, rfl, rfl, SameContents.caches_update rfl (fun h => ?_)⟩ rfl
      ⟨rfl, fun _ _ => id, ?_, hcall.steady, ?_⟩ ?_
    · cases h
    · intro hop
      exact Or.inl (fun h => hop (hcall.follows.op_iff.mpr h))
    · rintro _ j (hj | hj)
      · obtain rfl := Micro.locking.inj hj
        simp [LogSys.setThread, LogSys.setBuf]
      · cases hj
    · intro q j hj
      exact congrArg Buf.blockno (update_of_ne (hI.pending_ne hfree hj) _ _)
  | lock i hm =>
    refine hC.quiet ⟨rfl, rfl, rfl, rfl, rfl,
      SameContents.caches_update rfl (fun h => ⟨rfl, h, rfl, rfl⟩)⟩ rfl
      ⟨rfl, fun _ _ => id, Or.inl, Or.inl rfl, ?_⟩ (fun _ _ _ => LogSys.setBuf_blockno rfl)
    rintro h j (hj | hj)
    · cases hj
    · obtain rfl := Micro.loading.inj hj
      simpa [LogSys.setThread, LogSys.setBuf] using h i (Or.inl hm)
  | load i hm => exact hC.load hI hm
  | unref i hm =>
    refine hC.quiet ⟨rfl, rfl, rfl, rfl, rfl,
      SameContents.caches_update rfl (fun h => ⟨rfl, h, rfl, rfl⟩)⟩ rfl
      ⟨rfl, fun _ _ => id, Or.inl, Or.inl rfl, ?_⟩ (fun _ _ _ => LogSys.setBuf_blockno rfl)
    rintro h j (hj | hj) <;> cases hj
  | drop i ph hm hdrop =>
    refine hC.quiet ⟨rfl, rfl, rfl, rfl, rfl,
      SameContents.caches_update rfl (fun h => ⟨rfl, h, rfl, rfl⟩)⟩ rfl
      ⟨rfl, ?_, ?_, hdrop.steady s, ?_⟩ (fun _ _ _ => LogSys.setBuf_blockno rfl)
    · intro j hj hheld
      have hne : j ≠ i := by
        rintro rfl
        exact hdrop.not_dirty (hC.op p) hj
      exact (List.mem_erase_of_ne hne).mpr hheld
    · intro hop
      exact Or.inl (fun h => hop ((hdrop.follows s).op_iff.mpr h))
    · rintro h j (hj | hj) <;> cases hj
  | modify i data hm hph hi hout => exact hC.modify hI hph hi hout
  | fill i data ph hm hfill => exact hC.fill hI hm hfill
  | write i ph hm hwrite => exact hC.write hI hm hwrite
  | unpin tail i rest hm hph hheld => exact hC.unpin hI hm hph hheld
  | log i hm hph hi hout hmax hroom hopen => exact hC.log hI hph hi hout hroom hopen
  | leave hm hph hdirty hc hmore =>
    rw [LogInv.endOp_leave hc hmore]
    have hwake : s.wakeup.thread p = s.thread p := Thread.wake_of_ne (by simp [hph])
    refine hC.wake.quiet ⟨rfl, rfl, rfl, rfl, rfl, SameContents.caches_eq rfl⟩ rfl ?_ (fun _ _ _ => rfl)
    rw [hwake]
    refine ⟨rfl, fun _ _ => id, fun _ => Or.inr hdirty, ?_, id⟩
    rw [hph]
    exact Steady.of_not_commits rfl rfl
  | last hm hph hdirty hc hlast =>
    rw [LogInv.endOp_last hc hlast]
    refine hC.quiet ⟨rfl, rfl, rfl, rfl, rfl, SameContents.caches_eq rfl⟩ rfl
      ⟨rfl, fun _ _ => id, fun _ => Or.inr hdirty, ?_, id⟩ (fun _ _ _ => rfl)
    rw [hph]
    exact Or.inr ⟨rfl, rfl, fun _ _ hk => hk.elim⟩
  | clear tail hm hph htail => exact hC.clear hI hm hph
  | finish hm hph =>
    have hwake : s.wakeup.thread p = s.thread p := Thread.wake_of_ne (by simp [hph])
    refine hC.wake.quiet ⟨rfl, rfl, rfl, rfl, rfl, SameContents.caches_eq rfl⟩ rfl
      ⟨rfl, fun _ _ => id, ?_, ?_, id⟩ (fun _ _ _ => rfl)
    · intro _
      left
      rw [hwake, hph]
      simp
    · rw [hwake, hph]
      exact Or.inr ⟨rfl, rfl, fun _ _ hk => hk.elim⟩

end Steps

end Xv6
