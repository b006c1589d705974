import Xv6.Log.Cache

/-!
# The log and the cache in every reachable state

The invariants of the log and of the cache need each other.  The cache relies on the log
for the blocks that are pinned and not pinned twice; the log relies on the cache for the
block that `install_trans` unpins: a committing thread keeps the buffers it has got, so the
buffer it unpins is the one of the block whose turn it is (`AtPlace`).
-/

namespace Xv6

open Phase Function

/-! ### The buffers of a committing thread -/

section Stacks

variable {P : Type} {s : LogSys P} {t : Thread} {a b : Phase} {i : BufId} {n : ℕ}

theorem Phase.stack_of_not_commits (h : a.commits = false) (start : ℕ) (lh : List ℕ) :
  a.stack start lh = []
  := by
  cases a <;> first | rfl | contradiction

theorem Goes.stack (h : Goes s a b) (start : ℕ) (lh : List ℕ) : b.stack start lh = [] := by
  cases h <;> rfl

/-- A call of `bread` adds a buffer. -/
theorem Calls.stack (h : Calls s n a b) :
  b.stack s.start s.lh = [] ∨ b.stack s.start s.lh = n :: a.stack s.start s.lh
  := by
  cases h with
  | client n ph hph =>
    left
    obtain rfl | rfl := hph <;> rfl
  | _ =>
    right
    rfl

/-- The buffer found by `bread` stands in front of those the thread has got. -/
theorem Calls.stack_prefix {held : List BufId} {no : BufId → ℕ} (h : Calls s n a b)
    (hheld : a.stack s.start s.lh <+: held.map no) (hi : no i = n) :
  b.stack s.start s.lh <+: (i :: held).map no
  := by
  obtain hnil | hcons := h.stack
  · rw [hnil]
    exact List.nil_prefix
  · rw [hcons, List.map_cons, hi]
    exact List.cons_prefix_cons.mpr ⟨rfl, hheld⟩

theorem Fills.stack {data : Block} (h : Fills s t i data b) (start : ℕ) (lh : List ℕ) :
  b.stack start lh = t.phase.stack start lh
  := by
  cases h with
  | stage _ _ _ _ hph | head _ _ _ hph | install _ _ _ _ hph =>
    rw [hph]
    rfl

theorem Writes.stack (h : Writes t i b) (start : ℕ) (lh : List ℕ) :
  b.stack start lh = t.phase.stack start lh
  := by
  cases h with
  | stage _ _ _ _ hph | head _ _ _ hph | install _ _ _ hph =>
    rw [hph]
    rfl

/-- A call of `brelse` removes a buffer: the latest one, or the one before it. -/
theorem Drops.stack (h : Drops t i b) (hnodup : t.held.Nodup) (no : BufId → ℕ)
    (start : ℕ) (lh : List ℕ) (hstack : t.phase.stack start lh <+: t.held.map no) :
  b.stack start lh <+: (t.held.erase i).map no
  := by
  cases h with
  | client i hph =>
    obtain hph | hph := hph <;> rw [hph] <;> exact List.nil_prefix
  | writeLogHome tail src rest hph hheld =>
    rw [hph, hheld] at hstack
    rw [hheld, List.erase_cons_head]
    exact (List.cons_prefix_cons.mp hstack).2
  | writeLogLog tail dst rest hph hheld => exact List.nil_prefix
  | head erase i rest hph hheld => cases erase <;> exact List.nil_prefix
  | installLog tail dst i rest hph hheld =>
    rw [hph, hheld] at hstack
    rw [hheld] at hnodup
    have hne : dst ≠ i := by
      rintro rfl
      exact (List.nodup_cons.mp hnodup).1 List.mem_cons_self
    rw [hheld, List.erase_cons_tail (by simpa using hne), List.erase_cons_head]
    obtain ⟨hhead, _⟩ := List.cons_prefix_cons.mp hstack
    rw [List.map_cons]
    exact List.cons_prefix_cons.mpr ⟨hhead, List.nil_prefix⟩
  | installHome tail dst rest hph hheld => exact List.nil_prefix

end Stacks

/-- The buffers that a committing thread has got are those of the blocks it asked for. -/
def AtPlace {P : Type} (s : LogSys P) : Prop :=
  ∀ p, (s.thread p).phase.stack s.start s.lh <+:
    (s.thread p).pending.map (fun i => (s.buf i).blockno)

namespace AtPlace

variable {P : Type} {s s' : LogSys P} {p : P} {t : Thread}

section

variable [DecidableEq P] (hA : AtPlace s) (hthread : s'.thread = update s.thread p t)

include hA hthread

/-- A step of the thread of `p`, in which the buffers in use keep their blocks. -/
theorem step (hno : ∀ q, ∀ i ∈ (s.thread q).pending, (s'.buf i).blockno = (s.buf i).blockno)
    (hstart : s'.start = s.start)
    (hlh : s'.lh = s.lh ∨ ∀ q, q ≠ p → (s.thread q).phase.commits = false)
    (hp : t.phase.stack s'.start s'.lh <+: t.pending.map (fun i => (s'.buf i).blockno)) :
  AtPlace s'
  := by
  intro q
  rw [hthread]
  by_cases hq : q = p
  · rw [hq, update_self]
    exact hp
  · rw [update_of_ne hq, List.map_congr_left (hno q), hstart]
    obtain h | h := hlh
    · rw [h]
      exact hA q
    · rw [stack_of_not_commits (h q hq)]
      exact List.nil_prefix

variable (hno : ∀ i, (s'.buf i).blockno = (s.buf i).blockno) (hstart : s'.start = s.start)

include hno hstart

/-- A step after which the thread of `p` needs no buffers. -/
theorem step_nil (hlh : s'.lh = s.lh ∨ ∀ q, q ≠ p → (s.thread q).phase.commits = false)
    (hp : t.phase.stack s'.start s'.lh = []) :
  AtPlace s'
  := by
  apply hA.step hthread (fun _ i _ => hno i) hstart hlh
  rw [hp]
  exact List.nil_prefix

/-- A step that keeps the blocks of all buffers and the log. -/
theorem keep (hlh : s'.lh = s.lh)
    (hp : t.phase.stack s.start s.lh <+: t.pending.map (fun i => (s.buf i).blockno)) :
  AtPlace s'
  := by
  apply hA.step hthread (fun _ i _ => hno i) hstart (Or.inl hlh)
  simp only [hno, hstart, hlh]
  exact hp

end

/-- When no thread commits there is nothing to say. -/
theorem of_not_commits (h : ∀ q, (s.thread q).phase.commits = false) : AtPlace s := by
  intro q
  rw [stack_of_not_commits (h q)]
  exact List.nil_prefix

/-- The block that `install_trans` unpins is the one whose turn it is. -/
theorem unpin
    (hA : AtPlace s) {tail : ℕ} {i : BufId} {rest : List BufId} (hm : (s.thread p).micro = .none)
    (hph : (s.thread p).phase = .install tail .unpin) (hheld : (s.thread p).held = i :: rest) :
  (s.buf i).blockno = s.lh.getD tail 0
  := by
  have h := hA p
  simp only [Thread.pending, hm, hph, hheld, Phase.stack, List.map_cons] at h
  exact (List.cons_prefix_cons.mp h).1.symm

end AtPlace

/-- The joint invariant. -/
structure JointInv {P : Type} [Fintype P] (s : LogSys P) : Prop where
  log : LogInv s
  cache : CacheInv s
  place : AtPlace s

namespace JointInv

variable {P : Type} [Fintype P] {s s' : LogSys P} {p : P} {i : BufId}

/-! ### Every step -/

/-- A buffer that a thread has got is in use. -/
theorem uses_of_pending {t : Thread} (hi : i ∈ t.pending) : 0 < t.uses i := by
  unfold Thread.pending at hi
  split at hi
  next j hm =>
    obtain rfl | hi := List.mem_cons.mp hi
    · simp [Thread.uses, hm, Micro.refs]
    · exact CacheInv.uses_pos hi
  next j hm =>
    obtain rfl | hi := List.mem_cons.mp hi
    · simp [Thread.uses, hm, Micro.refs]
    · exact CacheInv.uses_pos hi
  next => exact CacheInv.uses_pos hi

/-- A buffer that a thread has got is not recycled. -/
theorem pending_ne (hI : JointInv s) (hfree : (s.buf i).refcnt = 0) {j : BufId}
    (hj : j ∈ (s.thread p).pending) :
  j ≠ i
  := by
  rintro rfl
  have := uses_of_pending hj
  rw [(hI.cache.unused_of_refcnt hfree).1 p] at this
  cases this

/-- A block that is unpinned was pinned, once. -/
theorem unpin_mem
    (hI : JointInv s) {tail : ℕ} {rest : List BufId} (hm : (s.thread p).micro = .none)
    (hph : (s.thread p).phase = .install tail .unpin) (hheld : (s.thread p).held = i :: rest) :
  (s.buf i).blockno ∈ s.pinned ∧ s.pinned.Nodup
  := by
  have hp : (s.thread p).phase.commits = true := by rw [hph]; rfl
  have hpinned := (hI.log.loc p).unpinned hp
  have hrange := (hI.log.loc p).range
  rw [hph] at hpinned hrange
  have hlt : tail < s.lh.length := hrange
  have hdrop : s.pinned = s.lh.drop tail := hpinned
  rw [hI.place.unpin hm hph hheld, hdrop]
  constructor
  · rw [List.drop_eq_getElem_cons hlt, List.getD_eq_getElem _ _ hlt]
    exact List.mem_cons_self
  · exact hI.log.nodup.sublist (List.drop_sublist tail s.lh)

variable [DecidableEq P]

section

variable (hI : JointInv s) (he : LogEffect s p s')

include hI he

theorem cache_effect : CacheInv s' := by
  have hC := hI.cache
  cases he with
  | move ph | enter | write i ph | clear tail =>
    exact hC.keep rfl rfl (fun _ => ⟨_, rfl⟩) rfl rfl rfl
  | hit b ph i hm hcall hdev hno => exact hC.hit hm hdev b ph
  | recycle b ph i hm hcall hnone hfree => exact hC.recycle hm hfree hnone ph
  | lock i hm hfree => exact hC.acquire hm hfree
  | load i hm => exact hC.load hm
  | unref i hm => exact hC.unref hm
  | drop i ph hm hdrop => exact hC.release hm hdrop.mem ph
  | modify i data | fill i data ph =>
    exact hC.keep rfl rfl (fun j => LogSys.setData_buf data j) rfl rfl rfl
  | unpin tail i rest hm hph hheld =>
    obtain ⟨hmem, hnodup⟩ := hI.unpin_mem hm hph hheld
    have hi : i ∈ (s.thread p).held := by rw [hheld]; exact List.mem_cons_self
    exact hC.unpin hi hmem hnodup _
  | log i hm hph hheld hout hmax hroom hopen =>
    rw [LogInv.logWrite_eq hroom hopen]
    split_ifs with hb
    · exact hC.keep rfl rfl (fun _ => ⟨_, rfl⟩) rfl rfl rfl
    · refine hC.pin hheld ?_ rfl rfl rfl rfl rfl rfl
      rw [hI.log.pinned (hI.log.not_committing hph)]
      exact hb
  | leave hm hph hdirty hc hmore =>
    rw [LogInv.endOp_leave hc hmore]
    refine hC.wake.keep rfl rfl (fun _ => ⟨_, rfl⟩) rfl ?_ ?_
    · exact (Thread.wake_held (s.thread p)).symm
    · exact (Thread.wake_micro (s.thread p)).symm
  | last hm hph hdirty hc hlast =>
    rw [LogInv.endOp_last hc hlast]
    exact hC.keep rfl rfl (fun _ => ⟨_, rfl⟩) rfl rfl rfl
  | finish => exact hC.wake.keep rfl rfl (fun _ => ⟨_, rfl⟩) rfl rfl rfl

theorem place_effect : AtPlace s' := by
  have hA := hI.place
  have hat : (s.thread p).micro = .none →
      (s.thread p).phase.stack s.start s.lh <+:
        (s.thread p).held.map (fun i => (s.buf i).blockno) := by
    intro hm
    have := hA p
    rwa [Thread.pending_of_none hm] at this
  cases he with
  | move ph hgo => exact hA.step_nil rfl (fun _ => rfl) rfl (Or.inl rfl) (hgo.stack _ _)
  | enter => exact hA.step_nil rfl (fun _ => rfl) rfl (Or.inl rfl) rfl
  | hit b ph i hm hcall hdev hno =>
    refine hA.keep rfl (fun _ => LogSys.setBuf_blockno rfl) rfl rfl ?_
    exact hcall.stack_prefix (hat hm) hno
  | recycle b ph i hm hcall hnone hfree =>
    refine hA.step rfl ?_ rfl (Or.inl rfl) ?_
    · intro q j hj
      exact congrArg Buf.blockno (update_of_ne (hI.pending_ne hfree hj) _ _)
    · refine hcall.stack_prefix ?_ ?_
      · convert hat hm using 1
        apply List.map_congr_left
        intro j hj
        rw [← Thread.pending_of_none hm] at hj
        exact congrArg Buf.blockno (update_of_ne (hI.pending_ne hfree hj) _ _)
      · simp only [LogSys.setThread, LogSys.setBuf, update_self]
  | lock i hm | unref i hm =>
    refine hA.keep rfl (fun _ => LogSys.setBuf_blockno rfl) rfl rfl ?_
    have := hA p
    rwa [Thread.pending, hm] at this
  | load i hm =>
    refine hA.keep rfl (fun _ => LogSys.setBuf_blockno ?_) rfl rfl ?_
    · split_ifs <;> rfl
    · have := hA p
      rwa [Thread.pending, hm] at this
  | drop i ph hm hdrop =>
    refine hA.keep rfl (fun _ => LogSys.setBuf_blockno rfl) rfl rfl ?_
    exact hdrop.stack (hI.cache.nodup p) _ _ _ (hat hm)
  | modify i data hm hph =>
    refine hA.step_nil rfl (fun _ => LogSys.setBuf_blockno rfl) rfl (Or.inl rfl) ?_
    change (s.thread p).phase.stack _ _ = []
    rw [hph]
    rfl
  | fill i data ph hm hfill =>
    refine hA.keep rfl (fun _ => LogSys.setBuf_blockno rfl) rfl rfl ?_
    change ph.stack _ _ <+: _
    rw [hfill.stack]
    exact hA p
  | write i ph hm hwrite =>
    refine hA.keep rfl (fun _ => rfl) rfl rfl ?_
    change ph.stack _ _ <+: _
    rw [hwrite.stack]
    exact hA p
  | unpin tail i rest hm hph hheld =>
    refine hA.keep rfl (fun _ => LogSys.setBuf_blockno rfl) rfl rfl ?_
    have := hA p
    rwa [hph] at this
  | log i hm hph hheld hout hmax hroom hopen =>
    have hnot := hI.log.not_commits (hI.log.not_committing hph)
    apply AtPlace.of_not_commits
    rw [LogInv.logWrite_eq hroom hopen]
    split_ifs <;> exact LogInv.commits_update (fun q _ => hnot q) (hnot p)
  | leave hm hph hdirty hc hmore =>
    rw [LogInv.endOp_leave hc hmore]
    exact AtPlace.of_not_commits (LogInv.commits_wake
      (fun q _ => hI.log.not_commits hc q) rfl)
  | last hm hph hdirty hc hlast =>
    rw [LogInv.endOp_last hc hlast]
    exact hA.step_nil rfl (fun _ => rfl) rfl (Or.inl rfl) rfl
  | clear tail hm hph =>
    refine hA.step_nil rfl (fun _ => rfl) rfl (Or.inr ?_) rfl
    intro q hq
    exact (hI.log.others_of_commits (by rw [hph]; rfl) hq).2
  | finish hm hph =>
    have hp : (s.thread p).phase.commits = true := by rw [hph]; rfl
    exact AtPlace.of_not_commits (LogInv.commits_wake
      (fun q hq => (hI.log.others_of_commits hp hq).2) rfl)

/-- Every step keeps the invariant. -/
theorem effect : JointInv s' := by
  refine ⟨hI.log.effect he ?_, hI.cache_effect he, hI.place_effect he⟩
  intro tail i rest hm hph hheld
  exact hI.place.unpin hm hph hheld

end

omit [DecidableEq P] in
theorem initial (h : LogSys.Initial s) : JointInv s := by
  have hphase : ∀ p, (s.thread p).phase = .out := by
    intro p
    rw [h.thread p]
    rfl
  have hnot : ∀ q, (s.thread q).phase.commits = false := by
    intro q
    rw [hphase q]
    rfl
  refine ⟨⟨?_, ?_, ?_, ?_, ?_, ?_, ?_, ?_, ?_, ?_, ?_⟩, ⟨h.order, h.unique, ?_, ?_, ?_, ?_, ?_, ?_, ?_⟩,
    AtPlace.of_not_commits hnot⟩
  · rw [h.outstanding]
    symm
    apply tally_eq_zero.mpr
    intro p
    rw [h.thread p]
    rfl
  · have hzero : tally Thread.remaining s.thread = 0 := by
      apply tally_eq_zero.mpr
      intro p
      rw [h.thread p]
      rfl
    rw [h.lh, hzero]
    exact Nat.zero_le _
  · rw [h.lh]
    exact List.nodup_nil
  · intro p
    exact LogLocal.of_out s (hphase p)
  · intro p _ hp
    rw [hnot p] at hp
    cases hp
  · intro _
    exact h.outstanding
  · intro _ _
    exact h.lh
  · intro _
    rw [h.pinned, h.lh]
  · rw [h.committing]
    intro hc
    cases hc
  · intro _
    left
    exact h.lh
  · rw [h.finished]
    intro op hop
    cases hop
  · intro i
    have husers : s.users i = 0 := by
      apply tally_eq_zero.mpr
      intro p
      rw [h.thread p]
      rfl
    rw [(h.free i).1, husers, LogSys.pins, h.pinned, if_neg (by simp)]
  · intro p i hp
    rw [h.thread p] at hp
    cases hp
  · intro i p
    rw [(h.free i).2, h.thread p]
    simp [Thread.locks, Thread.fresh]
  · intro p
    rw [h.thread p]
    exact List.nodup_nil
  · intro p i hp
    rw [h.thread p] at hp
    cases hp
  · intro p i hi
    rw [h.thread p] at hi
    cases hi
  · rw [h.pinned]
    intro b hb
    cases hb

/-- The invariant holds as long as nothing has panicked. -/
theorem reachable (hr : (logSystem P).Reachable s) (hok : s.panicked = none) : JointInv s := by
  have hinv : s.panicked = none → JointInv s := by
    refine hr.invariant (I := fun s => s.panicked = none → JointInv s) ?_ ?_
    · intro s h _
      exact initial h
    · intro s a s' hI hstep hok'
      obtain ⟨p, he⟩ := logStep_effect hstep hok'
      exact (hI (LogSys.running_of_step hstep)).effect he
  exact hinv hok

end JointInv

/-! ### The state machine of the log -/

section StateMachine

variable {P : Type} [Fintype P] {s : LogSys P}

/-- How many blocks of the log `install_trans` has unpinned. -/
def LogSys.unpinned (s : LogSys P) : ℕ := tally (fun t => t.phase.unpinned) s.thread

theorem Phase.unpinned_of_not_commits {a : Phase} (h : a.commits = false) : a.unpinned = 0 := by
  cases a <;> first | rfl | contradiction

/-- The pins are those of the blocks of the log that are not yet unpinned. -/
theorem LogInv.pinned_eq (hI : LogInv s) : s.pinned = s.lh.drop s.unpinned := by
  cases hc : s.committing with
  | false =>
    have hzero : s.unpinned = 0 := by
      apply tally_eq_zero.mpr
      intro p
      exact unpinned_of_not_commits (hI.not_commits hc p)
    rw [hzero, List.drop_zero, hI.pinned hc]
  | true =>
    obtain ⟨p, hp⟩ := hI.busy hc
    have honly : s.unpinned = (s.thread p).phase.unpinned := by
      apply Finset.sum_eq_single p
      · intro q _ hq
        exact unpinned_of_not_commits (hI.others_of_commits hp hq).2
      · intro hp
        exact absurd (Finset.mem_univ p) hp
    rw [honly]
    exact (hI.loc p).unpinned hp

/-- In every state that is reached without a panic: nobody is inside an operation during a
commit; the log has room for what the running operations may still log; a block of the log
has exactly one pin until `install_trans` unpins it, and is cached as long; an idle log is
empty; the blocks of an operation are in one commit; and a thread sleeps only while the log
is committing or too full. -/
theorem log_invariant [DecidableEq P] (hr : (logSystem P).Reachable s) (hok : s.panicked = none) :
  (s.committing = true → s.outstanding = 0)
    ∧ s.outstanding = tally Thread.running s.thread
    ∧ s.lh.length + tally Thread.remaining s.thread ≤ LOGBLOCKS
    ∧ s.lh.Nodup
    ∧ (∀ i, (s.buf i).refcnt = s.users i +
        if (s.buf i).dev = ROOTDEV ∧ (s.buf i).blockno ∈ s.lh.drop s.unpinned then 1 else 0)
    ∧ (∀ b ∈ s.lh.drop s.unpinned, ∃! i, (s.buf i).dev = ROOTDEV ∧ (s.buf i).blockno = b)
    ∧ (s.outstanding = 0 → s.committing = false → s.lh = [])
    ∧ (∀ p, (s.thread p).phase = .op → OpInv s.lh s.commits.length (s.thread p))
    ∧ (s.committing = true → s.lh = [] ∨ s.commits.getLast? = some s.lh)
    ∧ (∀ op ∈ s.finished, Settled s op)
    ∧ (∀ p, (s.thread p).phase = .asleep →
        s.committing = true ∨ LOGBLOCKS < s.lh.length + (s.outstanding + 1) * MAXOPBLOCKS)
  := by
  obtain ⟨hL, hC, _⟩ := JointInv.reachable hr hok
  rw [← hL.pinned_eq]
  refine ⟨hL.exclusive, hL.outstanding, hL.budget, hL.nodup, hC.refcnt, ?_, hL.idle,
    fun p => (hL.loc p).op, hL.current, hL.finished, fun p => (hL.loc p).asleep⟩
  intro b hb
  obtain ⟨i, hdev, hno, _⟩ := hC.pinned b hb
  use i, ⟨hdev, hno⟩
  rintro j ⟨hdev', hno'⟩
  exact hC.unique j i hdev' hdev (hno'.trans hno.symm)

/-- One thread commits a block while another waits to begin an operation. -/
def commitAndWait : List (LogAct (Fin 2)) :=
  [.beginOp 0, .run 0, .bread 0 40, .run 0, .run 0, .logWrite 0 29, .brelse 0 29, .run 0, .endOp 0,
    .beginOp 1, .run 1]

theorem log_invariant_commit :
  ∃ s : LogSys (Fin 2), (logSystem (Fin 2)).Reachable s ∧ s.panicked = none ∧ s.lh = [40]
    ∧ s.commits = [[40]] ∧ (s.thread 1).phase = .asleep
    ∧ (s.committing = true → s.outstanding = 0) ∧ ∀ op ∈ s.finished, Settled s op
  := by
  have hrun : ((logSystem (Fin 2)).exec (LogSys.boot (fun _ _ => 0) 2) commitAndWait).map
      (fun s => (s.panicked, s.lh, s.commits, (s.thread 1).phase))
      = some (none, [40], [[40]], .asleep) := by
    decide
  obtain ⟨s, hexec, hs⟩ := Option.map_eq_some_iff.mp hrun
  obtain ⟨hok, hlh, hcommits, hphase⟩ : s.panicked = none ∧ s.lh = [40] ∧ s.commits = [[40]]
      ∧ (s.thread 1).phase = .asleep := by
    simpa using hs
  have hr : (logSystem (Fin 2)).Reachable s :=
    (TransitionSystem.Reachable.init (LogSys.boot_initial _ _)).exec hexec
  obtain ⟨hcommit, _, _, _, _, _, _, _, _, hsettled, _⟩ := log_invariant hr hok
  use s

end StateMachine

end Xv6
