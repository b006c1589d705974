import Xv6.Log.System

/-!
# The effect of a step of the log and the cache

Every step that does not panic is one of a dozen effects (`step_effect`).  A committing
thread passes through places that the log does not distinguish; the relations `Goes`,
`Calls`, `Drops`, `Fills` and `Writes` list the places between which it moves while it does
nothing, looks up a block, releases a buffer, changes a buffer or writes it.
-/

namespace Xv6

open Function

/-! ### The places of a committing thread -/

namespace Phase

/-- The thread is in `commit`, or between `commit` and the end of `end_op`. -/
def commits : Phase → Bool
  | commit | writeLog .. | writeHead .. | install .. | finish => true
  | _ => false

/-- The number of blocks the thread has unpinned. -/
def unpinned : Phase → ℕ
  | install tail .dropFirst | install tail .dropSecond => tail + 1
  | install tail _ => tail
  | _ => 0

/-- The thread has emptied the header in memory. -/
def erased : Phase → Bool
  | writeHead true _ | finish => true
  | _ => false

/-- The block numbers of the buffers that the committing thread has got and not yet released,
the latest first. -/
def stack (start : ℕ) (lh : List ℕ) : Phase → List ℕ
  | writeLog tail .readHome | install tail .readHome => [start + tail + 1]
  | writeLog tail .move | writeLog tail .write | writeLog tail .dropFirst =>
    [lh.getD tail 0, start + tail + 1]
  | writeLog tail .dropSecond => [start + tail + 1]
  | install tail .move | install tail .write | install tail .unpin | install tail .dropFirst =>
    [lh.getD tail 0, start + tail + 1]
  | install tail .dropSecond => [lh.getD tail 0]
  | writeHead _ .edit | writeHead _ .write | writeHead _ .drop => [start]
  | _ => []

/-- The round the thread is in exists. -/
def inRange (lh : List ℕ) : Phase → Prop
  | writeLog tail .readLog | install tail .readLog => tail ≤ lh.length
  | writeLog tail _ | install tail _ => tail < lh.length
  | _ => True

end Phase

/-- The buffers a thread has got, including one it is about to lock or to load. -/
def Thread.pending (t : Thread) : List BufId :=
  match t.micro with
  | .locking i | .loading i => i :: t.held
  | _ => t.held

theorem Thread.pending_of_none {t : Thread} (h : t.micro = .none) : t.pending = t.held := by
  rw [Thread.pending, h]

/-- A thread has got at most one buffer that it does not hold yet. -/
theorem Thread.pending_cases (t : Thread) : t.pending = t.held ∨ ∃ i, t.pending = i :: t.held := by
  unfold Thread.pending
  split
  next i _ => exact Or.inr ⟨i, rfl⟩
  next i _ => exact Or.inr ⟨i, rfl⟩
  next => exact Or.inl rfl

section Moves

variable {P : Type} (s : LogSys P) {i : BufId} {data : Block}

/-- Moves that change nothing else. -/
inductive Goes : Phase → Phase → Prop where
  | request : Goes .out .begin
  | sleep : (s.committing = true ∨ LOGBLOCKS < s.lh.length + (s.outstanding + 1) * MAXOPBLOCKS) →
      Goes .begin .asleep
  | wake : Goes .asleep .begin
  | start : 0 < s.lh.length → Goes .commit (.writeLog 0 .readLog)
  | skip : s.lh = [] → Goes .commit .finish
  | head (tail : ℕ) : s.lh.length ≤ tail → Goes (.writeLog tail .readLog) (.writeHead false .read)

/-- Calls of `bread`, with the block asked for. -/
inductive Calls : ℕ → Phase → Phase → Prop where
  | client (b : ℕ) (ph : Phase) : ph = .out ∨ ph = .op → Calls b ph ph
  | logBlock (tail : ℕ) : tail < s.lh.length →
      Calls (s.start + tail + 1) (.writeLog tail .readLog) (.writeLog tail .readHome)
  | homeBlock (tail : ℕ) :
      Calls (s.lh.getD tail 0) (.writeLog tail .readHome) (.writeLog tail .move)
  | head (erase : Bool) : Calls s.start (.writeHead erase .read) (.writeHead erase .edit)
  | installLog (tail : ℕ) : tail < s.lh.length →
      Calls (s.start + tail + 1) (.install tail .readLog) (.install tail .readHome)
  | installHome (tail : ℕ) :
      Calls (s.lh.getD tail 0) (.install tail .readHome) (.install tail .move)

/-- Calls of `brelse`, with the buffer released. -/
inductive Drops (t : Thread) : BufId → Phase → Prop where
  | client (i : BufId) : t.phase = .out ∨ t.phase = .op → i ∈ t.held → i ∉ t.dirty →
      Drops t i t.phase
  | writeLogHome (tail : ℕ) (src : BufId) (rest : List BufId) :
      t.phase = .writeLog tail .dropFirst → t.held = src :: rest →
      Drops t src (.writeLog tail .dropSecond)
  | writeLogLog (tail : ℕ) (dst : BufId) (rest : List BufId) :
      t.phase = .writeLog tail .dropSecond → t.held = dst :: rest →
      Drops t dst (.writeLog (tail + 1) .readLog)
  | head (erase : Bool) (i : BufId) (rest : List BufId) :
      t.phase = .writeHead erase .drop → t.held = i :: rest →
      Drops t i (if erase then .finish else .install 0 .readLog)
  | installLog (tail : ℕ) (dst src : BufId) (rest : List BufId) :
      t.phase = .install tail .dropFirst → t.held = dst :: src :: rest →
      Drops t src (.install tail .dropSecond)
  | installHome (tail : ℕ) (dst : BufId) (rest : List BufId) :
      t.phase = .install tail .dropSecond → t.held = dst :: rest →
      Drops t dst (.install (tail + 1) .readLog)

/-- Changes of a buffer by the committing thread, with the buffer and its new data. -/
inductive Fills (t : Thread) : BufId → Block → Phase → Prop where
  | stage (tail : ℕ) (src dst : BufId) (rest : List BufId) :
      t.phase = .writeLog tail .move → t.held = src :: dst :: rest →
      Fills t dst (s.buf src).data (.writeLog tail .write)
  | head (erase : Bool) (i : BufId) (rest : List BufId) :
      t.phase = .writeHead erase .edit → t.held = i :: rest →
      Fills t i (encodeHead s.lh (s.buf i).data) (.writeHead erase .write)
  | install (tail : ℕ) (dst src : BufId) (rest : List BufId) :
      t.phase = .install tail .move → t.held = dst :: src :: rest →
      Fills t dst (s.buf src).data (.install tail .write)

/-- Writes of a buffer to the disk. -/
inductive Writes (t : Thread) : BufId → Phase → Prop where
  | stage (tail : ℕ) (src dst : BufId) (rest : List BufId) :
      t.phase = .writeLog tail .write → t.held = src :: dst :: rest →
      Writes t dst (.writeLog tail .dropFirst)
  | head (erase : Bool) (i : BufId) (rest : List BufId) :
      t.phase = .writeHead erase .write → t.held = i :: rest →
      Writes t i (.writeHead erase .drop)
  | install (tail : ℕ) (dst : BufId) (rest : List BufId) :
      t.phase = .install tail .write → t.held = dst :: rest →
      Writes t dst (.install tail .unpin)

/-- A thread releases a buffer that it holds. -/
theorem Drops.mem {t : Thread} {ph : Phase} (h : Drops t i ph) : i ∈ t.held := by
  cases h with
  | client _ _ hi => exact hi
  | writeLogHome _ _ _ _ hheld | writeLogLog _ _ _ _ hheld | head _ _ _ _ hheld
  | installHome _ _ _ _ hheld =>
    rw [hheld]
    exact List.mem_cons_self
  | installLog _ _ _ _ _ hheld =>
    rw [hheld]
    exact List.mem_cons_of_mem _ List.mem_cons_self

/-- Changing the data of a buffer changes nothing else of any buffer. -/
theorem LogSys.setData_buf {s : LogSys P} (data : Block) (j : BufId) :
  ∃ data', (s.setData i data).buf j = { s.buf j with data := data' }
  := by
  by_cases h : j = i
  · use data
    rw [h]
    exact update_self ..
  · use (s.buf j).data
    exact update_of_ne h ..

theorem LogSys.setData_self {s : LogSys P} :
  ((s.setData i data).buf i).data = data
  := congrArg Buf.data (update_self i _ s.buf)

theorem LogSys.setData_of_ne {s : LogSys P} {i j : BufId} (h : j ≠ i) :
  ((s.setData i data).buf j).data = (s.buf j).data
  := congrArg Buf.data (update_of_ne h _ s.buf)

theorem LogSys.setBuf_blockno {s : LogSys P} {i j : BufId} {b : Buf P}
    (h : b.blockno = (s.buf i).blockno) :
  ((s.setBuf i b).buf j).blockno = (s.buf j).blockno
  := by
  simp only [LogSys.setBuf]
  by_cases hj : j = i
  · rw [hj, update_self, h]
  · rw [update_of_ne hj]

end Moves

/-! ### Effects -/

section Effects

variable {P : Type} [DecidableEq P]

/-- What a step of the thread of `p` leads to. -/
inductive LogEffect (s : LogSys P) (p : P) : LogSys P → Prop where
  | move (ph : Phase) : Goes s (s.thread p).phase ph → LogEffect s p (s.goto p ph)
  | enter : (s.thread p).phase = .begin → s.committing = false →
      s.lh.length + (s.outstanding + 1) * MAXOPBLOCKS ≤ LOGBLOCKS →
      LogEffect s p ({ s with outstanding := s.outstanding + 1 }.setThread p
        { s.thread p with phase := .op, logged := [], epoch := s.commits.length })
  | hit (b : ℕ) (ph : Phase) (i : BufId) : (s.thread p).micro = .none →
      Calls s b (s.thread p).phase ph → (s.buf i).dev = ROOTDEV → (s.buf i).blockno = b →
      LogEffect s p ((s.setBuf i { s.buf i with refcnt := (s.buf i).refcnt + 1 }).setThread p
        { s.thread p with phase := ph, micro := .locking i, asked := b })
  | recycle (b : ℕ) (ph : Phase) (i : BufId) : (s.thread p).micro = .none →
      Calls s b (s.thread p).phase ph →
      (∀ j ∈ s.order, ¬ ((s.buf j).dev = ROOTDEV ∧ (s.buf j).blockno = b)) → (s.buf i).refcnt = 0 →
      LogEffect s p
        ((s.setBuf i { s.buf i with dev := ROOTDEV, blockno := b, valid := false, refcnt := 1 }).setThread
          p { s.thread p with phase := ph, micro := .locking i, asked := b })
  | lock (i : BufId) : (s.thread p).micro = .locking i → (s.buf i).lock = none →
      LogEffect s p ((s.setBuf i { s.buf i with lock := some p }).setThread p
        { s.thread p with micro := .loading i })
  | load (i : BufId) : (s.thread p).micro = .loading i → LogEffect s p (s.load p i)
  | unref (i : BufId) : (s.thread p).micro = .releasing i → LogEffect s p (s.unref p i)
  | drop (i : BufId) (ph : Phase) : (s.thread p).micro = .none → Drops (s.thread p) i ph →
      LogEffect s p (s.releasesleep p i ph)
  | modify (i : BufId) (data : Block) : (s.thread p).micro = .none → (s.thread p).phase = .op →
      i ∈ (s.thread p).held → Outside s.start (s.buf i).blockno →
      LogEffect s p ((s.setData i data).setThread p
        { s.thread p with dirty := i :: (s.thread p).dirty })
  | fill (i : BufId) (data : Block) (ph : Phase) : (s.thread p).micro = .none →
      Fills s (s.thread p) i data ph → LogEffect s p ((s.setData i data).goto p ph)
  | write (i : BufId) (ph : Phase) : (s.thread p).micro = .none → Writes (s.thread p) i ph →
      LogEffect s p ((s.bwrite i).goto p ph)
  | unpin (tail : ℕ) (i : BufId) (rest : List BufId) : (s.thread p).micro = .none →
      (s.thread p).phase = .install tail .unpin → (s.thread p).held = i :: rest →
      LogEffect s p ((s.bunpin i).goto p (.install tail .dropFirst))
  | log (i : BufId) : (s.thread p).micro = .none → (s.thread p).phase = .op →
      i ∈ (s.thread p).held → Outside s.start (s.buf i).blockno →
      (s.buf i).blockno ∈ (s.thread p).logged ∨ (s.thread p).logged.length < MAXOPBLOCKS →
      s.lh.length < LOGBLOCKS → 0 < s.outstanding → LogEffect s p (s.logWrite p i)
  | leave : (s.thread p).micro = .none → (s.thread p).phase = .op → (s.thread p).dirty = [] →
      s.committing = false → s.outstanding - 1 ≠ 0 → LogEffect s p (s.endOp p)
  | last : (s.thread p).micro = .none → (s.thread p).phase = .op → (s.thread p).dirty = [] →
      s.committing = false → s.outstanding - 1 = 0 → LogEffect s p (s.endOp p)
  | clear (tail : ℕ) : (s.thread p).micro = .none → (s.thread p).phase = .install tail .readLog →
      s.lh.length ≤ tail → LogEffect s p ({ s with lh := [] }.goto p (.writeHead true .read))
  | finish : (s.thread p).micro = .none → (s.thread p).phase = .finish →
      LogEffect s p ({ s with committing := false }.wakeup.goto p .out)

/-- The step of a label is a call of `bread` for a block. -/
inductive Asks (s : LogSys P) : LogAct P → ℕ → Prop where
  | client (p : P) (b : ℕ) : Asks s (.bread p b) b
  | commit (p : P) (b : ℕ) (ph : Phase) : (s.thread p).micro = .none →
      (s.thread p).phase.commits = true → Calls s b (s.thread p).phase ph → Asks s (.run p) b

/-- The steps that panic. -/
inductive LogPanic (s : LogSys P) : LogAct P → LogSys P → Prop where
  | noBuffers (a : LogAct P) (b : ℕ) : Asks s a b →
      (∀ j ∈ s.order, ¬ ((s.buf j).dev = ROOTDEV ∧ (s.buf j).blockno = b)) →
      (∀ j ∈ s.order, (s.buf j).refcnt ≠ 0) → LogPanic s a (s.panic "bget: no buffers")
  | tooBig (p : P) (i : BufId) : (s.thread p).phase = .op →
      (s.buf i).blockno ∈ (s.thread p).logged ∨ (s.thread p).logged.length < MAXOPBLOCKS →
      LOGBLOCKS ≤ s.lh.length → LogPanic s (.logWrite p i) (s.panic "too big a transaction")
  | outside (p : P) (i : BufId) : (s.thread p).phase = .op → s.outstanding < 1 →
      LogPanic s (.logWrite p i) (s.panic "log_write outside of trans")
  | committing (p : P) : (s.thread p).phase = .op → s.committing = true →
      LogPanic s (.endOp p) ((s.endOp p).panic "log.committing")

variable {s s' : LogSys P} {p : P} {a : LogAct P}

theorem bget_effect
    {b : ℕ} {ph : Phase} (hm : (s.thread p).micro = .none) (hc : Calls s b (s.thread p).phase ph)
    (ha : Asks s a b) :
  LogEffect s p (s.bget p b ph) ∨ LogPanic s a (s.bget p b ph)
  := by
  unfold LogSys.bget
  split
  next i hfind =>
    have hi := List.find?_some hfind
    simp only [decide_eq_true_eq] at hi
    left
    exact LogEffect.hit b ph i hm hc hi.1 hi.2
  next hfind =>
    have hnone : ∀ j ∈ s.order, ¬ ((s.buf j).dev = ROOTDEV ∧ (s.buf j).blockno = b) := by
      simpa using hfind
    split
    next i hfree =>
      have hi := List.find?_some hfree
      simp only [decide_eq_true_eq] at hi
      left
      exact LogEffect.recycle b ph i hm hc hnone hi
    next hfree =>
      right
      apply LogPanic.noBuffers a b ha hnone
      simpa using hfree

/-- The next step of a thread that stands outside of `bread` and `brelse`. -/
theorem logAdvance_effect
    (hm : (s.thread p).micro = .none) (h : s.advance p (s.thread p).phase = some s') :
  LogEffect s p s' ∨ LogPanic s (.run p) s'
  := by
  have hget : ∀ {b : ℕ} {ph : Phase}, (s.thread p).phase.commits = true →
      Calls s b (s.thread p).phase ph → some (s.bget p b ph) = some s' →
      LogEffect s p s' ∨ LogPanic s (.run p) s' := by
    intro b ph hcommits hc hs
    cases hs
    exact bget_effect hm hc (Asks.commit p b ph hm hcommits hc)
  cases hph : (s.thread p).phase with
  | out | op | asleep => simp [hph, LogSys.advance] at h
  | begin =>
    simp only [hph, LogSys.advance] at h
    split_ifs at h with hfull
    · cases h
      left
      apply LogEffect.move
      rw [hph]
      exact Goes.sleep hfull
    · cases h
      rw [not_or, Nat.not_lt, Bool.not_eq_true] at hfull
      left
      exact LogEffect.enter hph hfull.1 hfull.2
  | commit =>
    simp only [hph, LogSys.advance] at h
    cases h
    left
    apply LogEffect.move
    rw [hph]
    split_ifs with hn
    · exact Goes.start hn
    · apply Goes.skip
      rwa [Nat.not_lt, Nat.le_zero, List.length_eq_zero_iff] at hn
  | writeLog tail place =>
    cases place with simp only [hph, LogSys.advance] at h
    | readLog =>
      split_ifs at h with htail
      · apply hget _ _ h
        · rw [hph]
          rfl
        · rw [hph]
          exact Calls.logBlock tail htail
      · cases h
        left
        apply LogEffect.move
        rw [hph]
        exact Goes.head tail (Nat.le_of_not_lt htail)
    | readHome =>
      apply hget _ _ h
      · rw [hph]
        rfl
      · rw [hph]
        exact Calls.homeBlock tail
    | move =>
      split at h
      next src dst rest hheld =>
        cases h
        left
        exact LogEffect.fill _ _ _ hm (Fills.stage tail src dst rest hph hheld)
      next => cases h
    | write =>
      split at h
      next src dst rest hheld =>
        cases h
        left
        exact LogEffect.write _ _ hm (Writes.stage tail src dst rest hph hheld)
      next => cases h
    | unpin => cases h
    | dropFirst =>
      split at h
      next src rest hheld =>
        cases h
        left
        exact LogEffect.drop _ _ hm (Drops.writeLogHome tail src rest hph hheld)
      next => cases h
    | dropSecond =>
      split at h
      next dst rest hheld =>
        cases h
        left
        exact LogEffect.drop _ _ hm (Drops.writeLogLog tail dst rest hph hheld)
      next => cases h
  | writeHead erase place =>
    cases place with simp only [hph, LogSys.advance] at h
    | read =>
      apply hget _ _ h
      · rw [hph]
        rfl
      · rw [hph]
        exact Calls.head erase
    | edit =>
      split at h
      next i rest hheld =>
        cases h
        left
        exact LogEffect.fill _ _ _ hm (Fills.head erase i rest hph hheld)
      next => cases h
    | write =>
      split at h
      next i rest hheld =>
        cases h
        left
        exact LogEffect.write _ _ hm (Writes.head erase i rest hph hheld)
      next => cases h
    | drop =>
      split at h
      next i rest hheld =>
        cases h
        left
        exact LogEffect.drop _ _ hm (Drops.head erase i rest hph hheld)
      next => cases h
  | install tail place =>
    cases place with simp only [hph, LogSys.advance] at h
    | readLog =>
      split_ifs at h with htail
      · apply hget _ _ h
        · rw [hph]
          rfl
        · rw [hph]
          exact Calls.installLog tail htail
      · cases h
        left
        exact LogEffect.clear tail hm hph (Nat.le_of_not_lt htail)
    | readHome =>
      apply hget _ _ h
      · rw [hph]
        rfl
      · rw [hph]
        exact Calls.installHome tail
    | move =>
      split at h
      next dst src rest hheld =>
        cases h
        left
        exact LogEffect.fill _ _ _ hm (Fills.install tail dst src rest hph hheld)
      next => cases h
    | write =>
      split at h
      next dst rest hheld =>
        cases h
        left
        exact LogEffect.write _ _ hm (Writes.install tail dst rest hph hheld)
      next => cases h
    | unpin =>
      split at h
      next dst rest hheld =>
        cases h
        left
        exact LogEffect.unpin tail dst rest hm hph hheld
      next => cases h
    | dropFirst =>
      split at h
      next dst src rest hheld =>
        cases h
        left
        exact LogEffect.drop _ _ hm (Drops.installLog tail dst src rest hph hheld)
      next => cases h
    | dropSecond =>
      split at h
      next dst rest hheld =>
        cases h
        left
        exact LogEffect.drop _ _ hm (Drops.installHome tail dst rest hph hheld)
      next => cases h
  | finish =>
    simp only [hph, LogSys.advance] at h
    cases h
    left
    exact LogEffect.finish hm hph

/-- After a panic there are no more steps. -/
theorem LogSys.running_of_step {a : LogAct P} (h : s.step a = some s') : s.panicked = none := by
  unfold LogSys.step at h
  split_ifs at h with hp
  simpa using hp

/-- Every step has one of the effects above, or panics. -/
theorem logStep_cases (h : s.step a = some s') : (∃ p, LogEffect s p s') ∨ LogPanic s a s' := by
  unfold LogSys.step at h
  split_ifs at h
  cases a with simp only at h
  | beginOp p =>
    split_ifs at h with hc
    cases h
    left
    use p
    apply LogEffect.move
    rw [hc.2]
    exact Goes.request
  | endOp p =>
    split_ifs at h with hc
    cases h
    obtain ⟨⟨_, hm⟩, hph, hdirty⟩ := hc
    cases hcommitting : s.committing with
    | true =>
      right
      have hpanic : s.endOp p = (s.endOp p).panic "log.committing" := by
        simp [LogSys.endOp, hcommitting, LogSys.panic]
      rw [hpanic]
      exact LogPanic.committing p hph hcommitting
    | false =>
      left
      use p
      by_cases hlast : s.outstanding - 1 = 0
      · exact LogEffect.last hm hph hdirty hcommitting hlast
      · exact LogEffect.leave hm hph hdirty hcommitting hlast
  | bread p b =>
    split_ifs at h with hc
    cases h
    apply Or.imp_left _ (bget_effect hc.2 (Calls.client b _ hc.1) (Asks.client p b))
    intro he
    use p
  | modify p i data =>
    split_ifs at h with hc
    cases h
    obtain ⟨⟨_, hm⟩, hph, hheld, hout⟩ := hc
    left
    use p
    exact LogEffect.modify i data hm hph hheld hout
  | logWrite p i =>
    split_ifs at h with hc
    cases h
    obtain ⟨⟨_, hm⟩, hph, hheld, hout, hmax⟩ := hc
    by_cases hfull : LOGBLOCKS ≤ s.lh.length
    · right
      rw [LogSys.logWrite, if_pos hfull]
      exact LogPanic.tooBig p i hph hmax hfull
    · by_cases hopen : s.outstanding < 1
      · right
        rw [LogSys.logWrite, if_neg hfull, if_pos hopen]
        exact LogPanic.outside p i hph hopen
      · left
        use p
        exact LogEffect.log i hm hph hheld hout hmax (Nat.lt_of_not_le hfull)
          (Nat.le_of_not_lt hopen)
  | brelse p i =>
    split_ifs at h with hc
    cases h
    obtain ⟨⟨hph, hm⟩, hheld, hdirty⟩ := hc
    left
    use p
    exact LogEffect.drop i _ hm (Drops.client i hph hheld hdirty)
  | run p =>
    simp only [LogSys.runThread] at h
    split at h
    next i hm =>
      unfold LogSys.acquiresleep at h
      split_ifs at h with hlock
      cases h
      left
      use p
      exact LogEffect.lock i hm hlock
    next i hm =>
      cases h
      left
      use p
      exact LogEffect.load i hm
    next i hm =>
      cases h
      left
      use p
      exact LogEffect.unref i hm
    next hm =>
      apply Or.imp_left _ (logAdvance_effect hm h)
      intro he
      use p
  | kill p =>
    split_ifs at h with hph
    cases h
    left
    use p
    apply LogEffect.move
    rw [hph]
    exact Goes.wake

/-- Every step that does not panic has one of the effects above. -/
theorem logStep_effect (h : s.step a = some s') (hok : s'.panicked = none) :
  ∃ p, LogEffect s p s'
  := by
  obtain he | hpanic := logStep_cases h
  · exact he
  · cases hpanic <;> cases hok

end Effects

end Xv6
