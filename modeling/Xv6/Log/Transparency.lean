import Xv6.Log.Coherence

/-!
# The cache, the log and the disk as a map

Whoever uses blocks outside of the log's area through `bread` and `log_write` cannot tell
the cache, the log and the disk from a plain map of block numbers to contents: `log_write`
stores the contents of a block, and `bread` returns them, whatever is committed, installed,
recycled or read again in between.
-/

namespace Xv6

/-- What is seen of a block: `bread` returns its contents, or `log_write` logs them. -/
inductive BlockEvent where
  | read (b : ℕ) (data : Block)
  | write (b : ℕ) (data : Block)

/-- A map of block numbers to contents. -/
def plainMap : TransitionSystem (ℕ → Block) BlockEvent where
  init := fun _ => True
  step := fun m e =>
    match e with
    | .read b data => if m b = data then some m else none
    | .write b data => some (Function.update m b data)

/-- What is seen of a step from `s` to `s'`: `bread` returns a buffer for the block it was
asked for, or `log_write` returns. -/
def blockEvents {P : Type} (s : LogSys P) (a : LogAct P) (s' : LogSys P) : List BlockEvent :=
  match a with
  | .logWrite _ i =>
    if s'.panicked = none then [.write (s.buf i).blockno (s.buf i).data] else []
  | .run p =>
    match (s.thread p).micro with
    | .loading i =>
      if Outside s.start (s.thread p).asked then [.read (s.thread p).asked (s'.buf i).data] else []
    | _ => []
  | _ => []

section

variable {P : Type} [DecidableEq P] {s s' s₀ : LogSys P} {a : LogAct P} {p : P}
  {as : List (LogAct P)} {i : BufId}

theorem LogSys.bget_spec (b : ℕ) (ph : Phase) : (s.bget p b ph).spec = s.spec := by
  unfold LogSys.bget
  split
  · rfl
  · split <;> rfl

theorem LogSys.advance_spec {ph : Phase} (h : s.advance p ph = some s') : s'.spec = s.spec := by
  unfold LogSys.advance at h
  split at h <;> (try split at h) <;> cases h <;> first | rfl | apply LogSys.bget_spec

theorem LogSys.runThread_spec (h : s.runThread p = some s') : s'.spec = s.spec := by
  unfold LogSys.runThread at h
  split at h
  · unfold LogSys.acquiresleep at h
    split_ifs at h
    cases h
    rfl
  · cases h
    rfl
  · cases h
    rfl
  · apply LogSys.advance_spec h

theorem LogSys.endOp_spec : (s.endOp p).spec = s.spec := by
  unfold LogSys.endOp
  dsimp only
  split_ifs <;> rfl

/-- Only `log_write` changes what is last logged. -/
theorem LogSys.step_spec (h : s.step a = some s') (ha : ∀ p i, a ≠ .logWrite p i) :
  s'.spec = s.spec
  := by
  unfold LogSys.step at h
  split_ifs at h
  cases a with
  | logWrite p i => exact absurd rfl (ha p i)
  | run p => apply LogSys.runThread_spec h
  | endOp p =>
    simp only at h
    split_ifs at h
    cases h
    apply LogSys.endOp_spec
  | bread p b =>
    simp only at h
    split_ifs at h
    cases h
    apply LogSys.bget_spec
  | _ =>
    simp only at h
    split_ifs at h
    cases h
    rfl

/-- `log_write` stores the contents of the buffer, unless it panics. -/
theorem LogSys.logWrite_spec :
  (s.logWrite p i).spec = s.spec ∧ (s.logWrite p i).panicked ≠ none
    ∨ (s.logWrite p i).spec = Function.update s.spec (s.buf i).blockno (s.buf i).data
      ∧ (s.logWrite p i).panicked = s.panicked
  := by
  unfold LogSys.logWrite
  dsimp only
  split_ifs
  · left
    simp [LogSys.panic]
  · left
    simp [LogSys.panic]
  · right
    exact ⟨rfl, rfl⟩
  · right
    exact ⟨rfl, rfl⟩

theorem Coherent.initial {P : Type} {s : LogSys P} (h : LogSys.Initial s) : Coherent s := by
  have hfresh := h.thread
  constructor
  · intro p i hi
    rw [hfresh p] at hi
    cases hi
  · intro p _
    rw [hfresh p]
    rfl
  · rw [h.lh]
    intro b hb
    cases hb
  · intro b _ _
    rw [h.spec]
  · intro i b hi _ _
    rw [h.spec, h.clean i hi.dev hi.valid, hi.blockno]
  · intro i b hi _ _
    rw [h.clean i hi.dev hi.valid, hi.blockno]
  · intro p
    apply StagedAt.of_not_commits
    rw [hfresh p]
    rfl
  · rintro p i (hi | hi)
    · rw [hfresh p] at hi
      cases hi
    · rw [hfresh p] at hi
      cases hi

variable [Fintype P]

theorem Coherent.reachable (hr : (logSystem P).Reachable s) (hok : s.panicked = none) : Coherent s := by
  induction hr with
  | init h => apply Coherent.initial h
  | step hr h ih =>
    have hok' := LogSys.running_of_step h
    obtain ⟨p, he⟩ := logStep_effect h hok
    apply (ih hok').effect (JointInv.reachable hr hok') he

/-- The buffer that `bread` returns has the contents last logged for the block. -/
theorem LogSys.load_data (hr : (logSystem P).Reachable s) (hok : s.panicked = none)
    (hm : (s.thread p).micro = .loading i) (hout : Outside s.start (s.thread p).asked) :
  ((s.load p i).buf i).data = s.spec (s.thread p).asked
  := by
  have hI := JointInv.reachable hr hok
  have hI' := hI.effect (.load i hm)
  have hC := (Coherent.reachable hr hok)
  have hC' := hC.effect hI (.load i hm)
  have hheld : i ∈ ((s.load p i).thread p).held := by
    simp [LogSys.load, LogSys.setThread]
  have hcaches := hI'.caches_held hheld
  have hno : ((s.load p i).buf i).blockno = (s.thread p).asked := by
    rw [← hC.answered p i (Or.inr hm)]
    apply LogSys.setBuf_blockno
    split_ifs <;> rfl
  rw [hno] at hcaches
  apply hC'.cached i _ hcaches hout
  intro q hq
  -- a thread that has changed the buffer would hold its lock
  have hlocks : q = p := (hI'.cache.lock i).eq (Or.inl (hC'.held q i hq)) (Or.inl hheld)
  rw [hlocks] at hq
  have hq' : i ∈ (s.thread p).dirty := by
    simpa [LogSys.load, LogSys.setThread] using hq
  exact hI.cache.loading p i hm (hC.held p i hq')

/-- What is seen of a step is a step of the map, if anything is seen. -/
theorem blockEvents_exec (hr : (logSystem P).Reachable s) (h : s.step a = some s') :
  plainMap.exec s.spec (blockEvents s a s') = some s'.spec
  := by
  have hok := LogSys.running_of_step h
  cases a with
  | logWrite p i =>
    simp only [LogSys.step, hok, Option.isSome_none, Bool.false_eq_true, if_false] at h
    split_ifs at h
    cases h
    rcases LogSys.logWrite_spec (s := s) (p := p) (i := i) with ⟨hspec, hpanic⟩ | ⟨hspec, hreturn⟩
    · rw [hspec, blockEvents, if_neg hpanic]
      rfl
    · rw [hspec, blockEvents, if_pos (hreturn.trans hok)]
      rfl
  | run p =>
    have hspec := LogSys.step_spec h (by simp)
    rw [hspec, blockEvents]
    split
    next i hm =>
      split_ifs with hout
      · have hs' : s' = s.load p i := by
          simp only [LogSys.step, hok, Option.isSome_none, Bool.false_eq_true, if_false,
            LogSys.runThread, hm] at h
          exact (Option.some.inj h).symm
        rw [hs', LogSys.load_data hr hok hm hout]
        simp [TransitionSystem.exec, plainMap]
      · rfl
    next => rfl
  | _ =>
    rw [LogSys.step_spec h (by simp)]
    rfl

end

/-- A thread changes a block and commits it, and then another one reads it. -/
def commitThenRead : List (LogAct (Fin 2)) :=
  [.beginOp 0, .run 0, .bread 0 40, .run 0, .run 0, .modify 0 29 (fun _ => 7), .logWrite 0 29,
    .brelse 0 29, .run 0, .endOp 0] ++ List.replicate 43 (.run 0) ++ [.bread 1 40, .run 1, .run 1]

end Xv6
