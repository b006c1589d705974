import Xv6.Log.Invariant

/-!
# The room in the log and in the cache

`begin_op` reserves room for `MAXOPBLOCKS` blocks, so a block that is not in the log yet
always fits.  But `log_write` looks for room before it looks whether the block is in the
log already: in a full log, logging a block once more panics.

`bget` needs a buffer that nobody refers to.  The blocks of the log are pinned until they
are installed, and `LOGBLOCKS` is `NBUF`: a full log leaves no buffer for the commit.
-/

namespace Xv6

variable {P : Type} [DecidableEq P] {s s' s₀ : LogSys P} {a : LogAct P} {as : List (LogAct P)}
  {b : ℕ} {p : P}

theorem LogEffect.panicked (he : LogEffect s p s') : s'.panicked = s.panicked := by
  cases he with
  | log i hm hph hheld hout hmax hroom hopen =>
    rw [LogInv.logWrite_eq hroom hopen]
    split_ifs <;> rfl
  | leave hm hph hdirty hc hmore => rw [LogInv.endOp_leave hc hmore]; rfl
  | last hm hph hdirty hc hlast => rw [LogInv.endOp_last hc hlast]; rfl
  | _ => rfl

theorem LogSys.step_of_panicked {msg : String} (h : s.panicked = some msg) (a : LogAct P) :
  s.step a = none
  := by
  simp [LogSys.step, h]

/-! ### The log -/

/-- The step does not log a block of a full log once more. -/
def Room (s : LogSys P) (a : LogAct P) : Prop :=
  ∀ p i, a = .logWrite p i → s.lh.length < LOGBLOCKS ∨ (s.buf i).blockno ∉ s.lh

omit [DecidableEq P] in
/-- A block that is not in the log has room. -/
theorem LogInv.room [Fintype P] (hI : LogInv s) (hph : (s.thread p).phase = .op)
    (hmax : b ∈ (s.thread p).logged ∨ (s.thread p).logged.length < MAXOPBLOCKS) (hb : b ∉ s.lh) :
  s.lh.length < LOGBLOCKS
  := by
  have hfew : (s.thread p).logged.length < MAXOPBLOCKS := by
    apply hmax.resolve_left
    intro hlogged
    exact hb (((hI.loc p).op hph).mem b hlogged)
  have hremaining := le_tally Thread.remaining s.thread p
  rw [Thread.remaining_of_op hph] at hremaining
  have := hI.budget
  omega

theorem room_iff [Fintype P] (hI : LogInv s) (h : s.step a = some s') :
  Room s a ↔ s'.panicked ≠ some "too big a transaction"
  := by
  have hok := LogSys.running_of_step h
  constructor
  · intro hroom hbad
    obtain ⟨p, he⟩ | hpanic := logStep_cases h
    · rw [he.panicked, hok] at hbad
      cases hbad
    · cases hpanic with
      | tooBig p i hph hmax hfull =>
        obtain hlt | hnot := hroom p i rfl
        · omega
        · have := hI.room hph hmax hnot
          omega
      | _ => simp [LogSys.panic] at hbad
  · rintro hgood p i rfl
    by_contra hfull
    rw [not_or, Nat.not_lt, not_not] at hfull
    apply hgood
    simp only [LogSys.step, hok, Option.isSome_none, Bool.false_eq_true, if_false] at h
    split_ifs at h
    cases h
    rw [LogSys.logWrite, if_pos hfull.1]
    rfl

/-- A run reaches the panic exactly if it logs a block of a full log once more. -/
theorem log_admission
    [Fintype P] (hinit : LogSys.Initial s₀) (hrun : (logSystem P).exec s₀ as = some s) :
  (∀ bs a cs s₁, as = bs ++ a :: cs → (logSystem P).exec s₀ bs = some s₁ → Room s₁ a)
    ↔ s.panicked ≠ some "too big a transaction"
  := by
  refine TransitionSystem.exec_admissible_iff (I := (logSystem P).Reachable)
    (fun s => s.panicked = some "too big a transaction") Room ?_ ?_ ?_ (.init hinit) ?_ hrun
  · intro s a hbad
    exact LogSys.step_of_panicked hbad a
  · intro s a s' hr h
    exact hr.step h
  · intro s a s' hr h
    exact room_iff (JointInv.reachable hr (LogSys.running_of_step h)).log h
  · rw [hinit.panicked]
    simp

/-- A thread logs ten blocks, one after the other, in the buffers that the cache gives it. -/
def logTen (p : Fin 3) : List (LogAct (Fin 3)) :=
  (List.finRange 10).flatMap (fun n =>
    let k := 10 * p.val + n.val
    let i : BufId := Fin.ofNat 30 (29 - k)
    [.bread p (100 + k), .run p, .run p, .logWrite p i, .brelse p i, .run p])

/-- Three operations fill the log. -/
def fillLog : List (LogAct (Fin 3)) :=
  (List.finRange 3).flatMap (fun p => [.beginOp p, .run p]) ++ (List.finRange 3).flatMap logTen

theorem fillLog_run :
  ∃ s, (logSystem (Fin 3)).exec (LogSys.boot (fun _ _ => 0) 2) fillLog = some s
    ∧ s.panicked = none ∧ s.lh.length = LOGBLOCKS
  := by
  have hrun : ((logSystem (Fin 3)).exec (LogSys.boot (fun _ _ => 0) 2) fillLog).map
      (fun s => (s.panicked, s.lh.length)) = some (none, LOGBLOCKS) := by
    decide +kernel
  obtain ⟨s, hexec, hs⟩ := Option.map_eq_some_iff.mp hrun
  use s, hexec
  simpa using hs

/-- The last of three operations that have filled the log logs a block once more. -/
theorem log_admission_relog :
  ∃ s, (logSystem (Fin 3)).Reachable s ∧ 129 ∈ (s.thread 2).logged
    ∧ (s.thread 2).logged.length = MAXOPBLOCKS ∧ s.panicked = some "too big a transaction"
  := by
  have hrun : ((logSystem (Fin 3)).exec (LogSys.boot (fun _ _ => 0) 2)
      (fillLog ++ [.bread 2 129, .run 2, .run 2, .logWrite 2 0])).map
      (fun s => (decide (129 ∈ (s.thread 2).logged), (s.thread 2).logged.length, s.panicked))
      = some (true, MAXOPBLOCKS, some "too big a transaction") := by
    decide +kernel
  obtain ⟨s, hexec, hs⟩ := Option.map_eq_some_iff.mp hrun
  use s, (TransitionSystem.Reachable.init (LogSys.boot_initial _ _)).exec hexec
  simpa using hs

/-- Filling the log meets the condition at every step. -/
theorem log_admission_fill :
  ∃ s, (logSystem (Fin 3)).exec (LogSys.boot (fun _ _ => 0) 2) fillLog = some s
    ∧ s.lh.length = LOGBLOCKS
    ∧ ∀ bs a cs s₁, fillLog = bs ++ a :: cs →
        (logSystem (Fin 3)).exec (LogSys.boot (fun _ _ => 0) 2) bs = some s₁ → Room s₁ a
  := by
  obtain ⟨s, hexec, hok, hlh⟩ := fillLog_run
  use s, hexec, hlh
  apply (log_admission (LogSys.boot_initial _ _) hexec).mpr
  rw [hok]
  simp

/-! ### The cache -/

section Capacity

variable [Fintype P]

/-- The blocks that are pinned, or that a thread has asked for and not yet released. -/
def LogSys.inUse (s : LogSys P) : Finset ℕ :=
  (s.lh.drop s.unpinned).toFinset ∪
    (Finset.univ.filter (fun i => 0 < s.users i)).image (fun i => (s.buf i).blockno)

/-- The step does not ask for a block that is not cached while `NBUF` others are in use. -/
def Fits (s : LogSys P) (a : LogAct P) : Prop :=
  ∀ b, Asks s a b → (∀ i, ¬ ((s.buf i).dev = ROOTDEV ∧ (s.buf i).blockno = b)) → s.inUse.card < NBUF

omit [DecidableEq P] in
/-- The buffers that are referred to hold distinct blocks, those in use. -/
theorem JointInv.inUse_eq (hI : JointInv s) :
  s.inUse = (Finset.univ.filter (fun i => 0 < (s.buf i).refcnt)).image (fun i => (s.buf i).blockno)
  := by
  ext b
  simp only [LogSys.inUse, ← hI.log.pinned_eq, Finset.mem_union, List.mem_toFinset, Finset.mem_image,
    Finset.mem_filter, Finset.mem_univ, true_and]
  constructor
  · rintro (hb | ⟨i, hi, rfl⟩)
    · obtain ⟨i, hdev, hno, _⟩ := hI.cache.pinned b hb
      use i
      rw [hI.cache.refcnt i, LogSys.pins, if_pos ⟨hdev, by rw [hno]; exact hb⟩]
      exact ⟨Nat.succ_pos _, hno⟩
    · use i
      rw [hI.cache.refcnt i]
      exact ⟨Nat.add_pos_left hi _, rfl⟩
  · rintro ⟨i, hi, rfl⟩
    rw [hI.cache.refcnt i] at hi
    by_cases husers : 0 < s.users i
    · right
      use i
    · left
      by_contra hnot
      rw [LogSys.pins, if_neg (fun h => hnot h.2)] at hi
      omega

omit [DecidableEq P] in
theorem JointInv.dev_of_refcnt (hI : JointInv s) {i : BufId} (hi : 0 < (s.buf i).refcnt) :
  (s.buf i).dev = ROOTDEV
  := by
  by_contra hdev
  rw [hI.cache.refcnt i, LogSys.pins, if_neg (fun h => hdev h.1)] at hi
  obtain ⟨p, hp⟩ := exists_of_tally_pos hi
  exact hdev (hI.cache.dev p i hp)

omit [DecidableEq P] in
/-- Some buffer is free exactly if fewer than `NBUF` blocks are in use. -/
theorem JointInv.free_iff (hI : JointInv s) :
  s.inUse.card < NBUF ↔ ∃ i, (s.buf i).refcnt = 0
  := by
  have hcard : s.inUse.card = (Finset.univ.filter (fun i => 0 < (s.buf i).refcnt)).card := by
    rw [hI.inUse_eq]
    apply Finset.card_image_of_injOn
    intro i hi j hj hij
    simp only [Finset.coe_filter, Finset.mem_univ, true_and, Set.mem_ofPred_eq] at hi hj
    exact hI.cache.unique i j (hI.dev_of_refcnt hi) (hI.dev_of_refcnt hj) hij
  have huniv : (Finset.univ : Finset BufId).card = NBUF := by simp
  rw [hcard]
  constructor
  · intro hlt
    by_contra hnone
    have hall : ∀ i ∈ (Finset.univ : Finset BufId), 0 < (s.buf i).refcnt := by
      intro i _
      apply Nat.pos_of_ne_zero
      intro hi
      apply hnone
      use i
    rw [Finset.filter_true_of_mem hall, huniv] at hlt
    exact Nat.lt_irrefl _ hlt
  · rintro ⟨i, hi⟩
    apply lt_of_lt_of_eq _ huniv
    apply Finset.card_lt_card
    apply Finset.filter_ssubset.mpr
    use i, Finset.mem_univ i
    omega

end Capacity

/-- `bget` when the block is not cached and every buffer is in use. -/
theorem LogSys.bget_panics {ph : Phase}
    (hnone : ∀ i, ¬ ((s.buf i).dev = ROOTDEV ∧ (s.buf i).blockno = b))
    (hfull : ∀ i, (s.buf i).refcnt ≠ 0) :
  s.bget p b ph = s.panic "bget: no buffers"
  := by
  have hfind : s.order.find? (fun i => (s.buf i).dev = ROOTDEV ∧ (s.buf i).blockno = b) = none := by
    rw [List.find?_eq_none]
    intro i _
    simpa using hnone i
  have hfree : s.order.reverse.find? (fun i => (s.buf i).refcnt = 0) = none := by
    rw [List.find?_eq_none]
    intro i _
    simpa using hfull i
  rw [LogSys.bget, hfind]
  simp only [hfree]

/-- A step that asks for a block calls `bget`. -/
theorem Asks.bget (ha : Asks s a b) (h : s.step a = some s') : ∃ p ph, s' = s.bget p b ph := by
  have hok := LogSys.running_of_step h
  simp only [LogSys.step, hok, Option.isSome_none, Bool.false_eq_true, if_false] at h
  cases ha with
  | client p b =>
    simp only at h
    split_ifs at h
    exact ⟨p, _, (Option.some.inj h).symm⟩
  | commit p b ph hm hcommits hcall =>
    use p, ph
    simp only [LogSys.runThread, hm] at h
    generalize (s.thread p).phase = q at hcommits hcall h
    cases hcall with
    | client b q hq =>
      obtain rfl | rfl := hq <;> cases hcommits
    | logBlock tail htail | installLog tail htail =>
      rw [LogSys.advance, if_pos htail] at h
      exact (Option.some.inj h).symm
    | homeBlock tail | installHome tail | head erase =>
      exact (Option.some.inj h).symm

theorem fits_iff [Fintype P] (hI : JointInv s) (h : s.step a = some s') :
  Fits s a ↔ s'.panicked ≠ some "bget: no buffers"
  := by
  have hok := LogSys.running_of_step h
  constructor
  · intro hfits hbad
    obtain ⟨p, he⟩ | hpanic := logStep_cases h
    · rw [he.panicked, hok] at hbad
      cases hbad
    · cases hpanic with
      | noBuffers a b hask hnone hfull =>
        have hlt := hfits b hask (fun i => hnone i (hI.cache.order i))
        obtain ⟨i, hi⟩ := hI.free_iff.mp hlt
        exact hfull i (hI.cache.order i) hi
      | _ => simp [LogSys.panic] at hbad
  · intro hgood b hask hnone
    apply hI.free_iff.mpr
    by_contra hfull
    rw [not_exists] at hfull
    obtain ⟨p, ph, rfl⟩ := hask.bget h
    rw [LogSys.bget_panics hnone hfull] at hgood
    exact hgood rfl

/-- A run reaches the panic exactly if it asks for a block that is not cached while `NBUF`
others are in use. -/
theorem cache_capacity
    [Fintype P] (hinit : LogSys.Initial s₀) (hrun : (logSystem P).exec s₀ as = some s) :
  (∀ bs a cs s₁, as = bs ++ a :: cs → (logSystem P).exec s₀ bs = some s₁ → Fits s₁ a)
    ↔ s.panicked ≠ some "bget: no buffers"
  := by
  refine TransitionSystem.exec_admissible_iff (I := (logSystem P).Reachable)
    (fun s => s.panicked = some "bget: no buffers") Fits ?_ ?_ ?_ (.init hinit) ?_ hrun
  · intro s a hbad
    exact LogSys.step_of_panicked hbad a
  · intro s a s' hr h
    exact hr.step h
  · intro s a s' hr h
    exact fits_iff (JointInv.reachable hr (LogSys.running_of_step h)) h
  · rw [hinit.panicked]
    simp

/-- Three operations that fill the log leave no buffer for the commit. -/
theorem cache_capacity_commit :
  ∃ s, (logSystem (Fin 3)).Reachable s ∧ s.committing = true ∧ s.lh.length = LOGBLOCKS
    ∧ (s.thread 2).phase = .writeLog 0 .readLog ∧ s.panicked = some "bget: no buffers"
  := by
  have hrun : ((logSystem (Fin 3)).exec (LogSys.boot (fun _ _ => 0) 2)
      (fillLog ++ [.endOp 0, .endOp 1, .endOp 2, .run 2, .run 2])).map
      (fun s => (s.committing, s.lh.length, (s.thread 2).phase, s.panicked))
      = some (true, LOGBLOCKS, .writeLog 0 .readLog, some "bget: no buffers") := by
    decide +kernel
  obtain ⟨s, hexec, hs⟩ := Option.map_eq_some_iff.mp hrun
  use s, (TransitionSystem.Reachable.init (LogSys.boot_initial _ _)).exec hexec
  simpa using hs

/-- Filling the log meets the condition at every step. -/
theorem cache_capacity_fill :
  ∃ s, (logSystem (Fin 3)).exec (LogSys.boot (fun _ _ => 0) 2) fillLog = some s
    ∧ s.lh.length = LOGBLOCKS
    ∧ ∀ bs a cs s₁, fillLog = bs ++ a :: cs →
        (logSystem (Fin 3)).exec (LogSys.boot (fun _ _ => 0) 2) bs = some s₁ → Fits s₁ a
  := by
  obtain ⟨s, hexec, hok, hlh⟩ := fillLog_run
  use s, hexec, hlh
  apply (cache_capacity (LogSys.boot_initial _ _) hexec).mpr
  rw [hok]
  simp

end Xv6
