import Mathlib.Data.List.GetD
import Xv6.Lib.Tally
import Xv6.Log.Effect

/-!
# The invariant of the log

Every operation may still log as many blocks as `MAXOPBLOCKS` minus those it has logged;
what is in the log and what the running operations may add to it fit into `LOGBLOCKS`.
While a thread commits no operation runs, so the log it commits does not change.
-/

namespace Xv6

open Function

/-- `1` for a thread inside an operation. -/
def Thread.running (t : Thread) : ℕ := if t.phase = .op then 1 else 0

/-- How many blocks the operation of a thread may still log. -/
def Thread.remaining (t : Thread) : ℕ :=
  if t.phase = .op then MAXOPBLOCKS - t.logged.length else 0

namespace Thread

variable {t : Thread}

theorem running_of_op (h : t.phase = .op) : t.running = 1 := if_pos h

theorem running_of_ne (h : t.phase ≠ .op) : t.running = 0 := if_neg h

theorem remaining_of_op (h : t.phase = .op) : t.remaining = MAXOPBLOCKS - t.logged.length := if_pos h

theorem remaining_of_ne (h : t.phase ≠ .op) : t.remaining = 0 := if_neg h

theorem wake_of_ne (h : t.phase ≠ .asleep) : t.wake = t := if_neg h

theorem wake_ne_asleep (t : Thread) : t.wake.phase ≠ .asleep := by
  unfold wake
  split_ifs with h
  · simp
  · exact h

theorem wake_op : t.wake.phase = .op ↔ t.phase = .op := by
  unfold wake
  split_ifs with h <;> simp [h]

variable (t)

theorem wake_commits : t.wake.phase.commits = t.phase.commits := by
  unfold wake
  split_ifs with h
  · rw [h]
    rfl
  · rfl

theorem wake_eq : t.wake = { t with phase := t.wake.phase } := by
  unfold wake
  split_ifs <;> rfl

theorem wake_logged : t.wake.logged = t.logged := by rw [wake_eq]

theorem wake_epoch : t.wake.epoch = t.epoch := by rw [wake_eq]

theorem wake_held : t.wake.held = t.held := by rw [wake_eq]

theorem wake_micro : t.wake.micro = t.micro := by rw [wake_eq]

theorem wake_dirty : t.wake.dirty = t.dirty := by rw [wake_eq]

theorem wake_asked : t.wake.asked = t.asked := by rw [wake_eq]

theorem wake_running : t.wake.running = t.running := by
  simp only [running, wake_op]

theorem wake_remaining : t.wake.remaining = t.remaining := by
  simp only [remaining, wake_op, wake_logged]

theorem remaining_le : t.remaining ≤ MAXOPBLOCKS * t.running := by
  unfold remaining running
  split_ifs <;> omega

end Thread

section Invariant

variable {P : Type}

/-- `begin_op` would have to wait. -/
def LogSys.full (s : LogSys P) : Prop :=
  s.committing = true ∨ LOGBLOCKS < s.lh.length + (s.outstanding + 1) * MAXOPBLOCKS

/-- What a running operation has logged is in the log. -/
structure OpInv (lh : List ℕ) (commits : ℕ) (t : Thread) : Prop where
  nodup : t.logged.Nodup
  length_le : t.logged.length ≤ MAXOPBLOCKS
  mem : ∀ b ∈ t.logged, b ∈ lh
  epoch : t.epoch = commits

/-- A finished operation: all its blocks were in the log at one commit, or are in the log
that is still to be committed. -/
def Settled (s : LogSys P) (op : ℕ × List ℕ) : Prop :=
  (∃ c, s.commits[op.1]? = some c ∧ ∀ b ∈ op.2, b ∈ c)
    ∨ op.1 = s.commits.length ∧ s.committing = false ∧ ∀ b ∈ op.2, b ∈ s.lh

/-- What holds of a thread at each place. -/
structure LogLocal (s : LogSys P) (t : Thread) : Prop where
  op : t.phase = .op → OpInv s.lh s.commits.length t
  commits : t.phase.commits = true → s.committing = true
  asleep : t.phase = .asleep → s.full
  unpinned : t.phase.commits = true → s.pinned = s.lh.drop t.phase.unpinned
  erased : t.phase.erased = true → s.lh = []
  range : t.phase.inRange s.lh

structure LogInv [Fintype P] (s : LogSys P) : Prop where
  outstanding : s.outstanding = tally Thread.running s.thread
  budget : s.lh.length + tally Thread.remaining s.thread ≤ LOGBLOCKS
  nodup : s.lh.Nodup
  loc : ∀ p, LogLocal s (s.thread p)
  single : ∀ p q, (s.thread p).phase.commits = true → (s.thread q).phase.commits = true → p = q
  exclusive : s.committing = true → s.outstanding = 0
  idle : s.outstanding = 0 → s.committing = false → s.lh = []
  pinned : s.committing = false → s.pinned = s.lh
  busy : s.committing = true → ∃ p, (s.thread p).phase.commits = true
  current : s.committing = true → s.lh = [] ∨ s.commits.getLast? = some s.lh
  finished : ∀ op ∈ s.finished, Settled s op

end Invariant

/-! ### Moves the log does not notice -/

/-- The thread is neither inside an operation nor committing. -/
def Phase.waits : Phase → Bool
  | .out | .begin | .asleep => true
  | _ => false

theorem Phase.commits_of_waits {a : Phase} (h : a.waits = true) : a.commits = false := by
  cases a <;> first | rfl | contradiction

theorem Phase.commits_of_erased {a : Phase} (h : a.erased = true) : a.commits = true := by
  cases a <;> first | rfl | contradiction

theorem Phase.inRange_of_not_commits {a : Phase} (h : a.commits = false) (lh : List ℕ) :
  a.inRange lh
  := by
  cases a <;> trivial

/-- A move that makes no difference to the log. -/
structure Follows {P : Type} (s : LogSys P) (a b : Phase) : Prop where
  eq_or : b = a ∨ a.commits = true ∧ b.commits = true
    ∨ a.waits = true ∧ b.waits = true ∧ (b = .asleep → s.full)
  unpinned : b.unpinned = a.unpinned
  erased : b.erased = true → a.erased = true ∨ s.lh = []
  range : a.inRange s.lh → b.inRange s.lh

open Phase

section Follow

variable {P : Type} {s : LogSys P} {t : Thread} {a b : Phase} {i : BufId}

theorem Follows.refl (s : LogSys P) (a : Phase) : Follows s a a :=
  ⟨Or.inl rfl, rfl, Or.inl, id⟩

/-- A move inside of a commit. -/
theorem Follows.committing
    (ha : a.commits = true) (hb : b.commits = true) (hu : b.unpinned = a.unpinned)
    (he : b.erased = true → a.erased = true ∨ s.lh = []) (hr : a.inRange s.lh → b.inRange s.lh) :
  Follows s a b
  := ⟨Or.inr (Or.inl ⟨ha, hb⟩), hu, he, hr⟩

theorem Follows.commits (h : Follows s a b) : b.commits = a.commits := by
  obtain rfl | ⟨ha, hb⟩ | ⟨ha, hb, _⟩ := h.eq_or
  · rfl
  · rw [ha, hb]
  · rw [commits_of_waits ha, commits_of_waits hb]

theorem Follows.op_iff (h : Follows s a b) : b = .op ↔ a = .op := by
  obtain rfl | ⟨ha, hb⟩ | ⟨ha, hb, _⟩ := h.eq_or
  · rfl
  · constructor
    · rintro rfl
      cases hb
    · rintro rfl
      cases ha
  · constructor
    · rintro rfl
      cases hb
    · rintro rfl
      cases ha

/-- A thread that goes to sleep finds the log full, or was asleep before. -/
theorem Follows.asleep (h : Follows s a b) (hb : b = .asleep) : a = .asleep ∨ s.full := by
  obtain rfl | ⟨_, hb'⟩ | ⟨_, _, hfull⟩ := h.eq_or
  · left
    exact hb
  · rw [hb] at hb'
    cases hb'
  · right
    exact hfull hb

theorem Goes.follows (h : Goes s a b) : Follows s a b := by
  cases h with
  | request | wake => exact ⟨Or.inr (Or.inr ⟨rfl, rfl, by simp⟩), rfl, Or.inl, id⟩
  | sleep hfull => exact ⟨Or.inr (Or.inr ⟨rfl, rfl, fun _ => hfull⟩), rfl, Or.inl, id⟩
  | start => exact Follows.committing rfl rfl rfl Or.inl (fun _ => Nat.zero_le _)
  | skip hnil => exact Follows.committing rfl rfl rfl (fun _ => Or.inr hnil) id
  | head => exact Follows.committing rfl rfl rfl Or.inl (fun _ => trivial)

theorem Calls.follows {n : ℕ} (h : Calls s n a b) : Follows s a b := by
  cases h with
  | client => apply Follows.refl
  | logBlock tail htail | installLog tail htail =>
    exact Follows.committing rfl rfl rfl Or.inl (fun _ => htail)
  | homeBlock tail | installHome tail => exact Follows.committing rfl rfl rfl Or.inl id
  | head erase => cases erase <;> exact Follows.committing rfl rfl rfl Or.inl id

theorem Drops.follows (h : Drops t i b) (s : LogSys P) : Follows s t.phase b := by
  cases h with
  | client => apply Follows.refl
  | writeLogHome tail src rest hph | writeLogLog tail dst rest hph
  | installLog tail dst src rest hph | installHome tail dst rest hph =>
    rw [hph]; exact Follows.committing rfl rfl rfl Or.inl id
  | head erase i rest hph =>
    rw [hph]
    cases erase with
    | true => exact Follows.committing rfl rfl rfl Or.inl id
    | false => exact Follows.committing rfl rfl rfl Or.inl (fun _ => Nat.zero_le _)

theorem Fills.follows {data : Block} (h : Fills s t i data b) : Follows s t.phase b := by
  cases h with
  | stage tail src dst rest hph | install tail dst src rest hph =>
    rw [hph]; exact Follows.committing rfl rfl rfl Or.inl id
  | head erase i rest hph =>
    rw [hph]
    cases erase <;> exact Follows.committing rfl rfl rfl Or.inl id

theorem Writes.follows (h : Writes t i b) (s : LogSys P) : Follows s t.phase b := by
  cases h with
  | stage tail src dst rest hph | install tail dst rest hph =>
    rw [hph]; exact Follows.committing rfl rfl rfl Or.inl id
  | head erase i rest hph =>
    rw [hph]
    cases erase <;> exact Follows.committing rfl rfl rfl Or.inl id

end Follow

/-! ### The invariant is kept -/

namespace LogInv

variable {P : Type} [Fintype P] {s s' : LogSys P} {p : P} {t : Thread}

/-- While a thread commits, no thread is inside an operation. -/
theorem not_op (hI : LogInv s) (hc : s.committing = true) (q : P) : (s.thread q).phase ≠ .op := by
  intro hq
  have hpos := le_tally Thread.running s.thread q
  rw [← hI.outstanding, hI.exclusive hc] at hpos
  simp [Thread.running, hq] at hpos

/-- While a thread is inside an operation, none commits. -/
theorem not_committing (hI : LogInv s) (hp : (s.thread p).phase = .op) : s.committing = false := by
  by_contra hc
  rw [Bool.not_eq_false] at hc
  apply hI.not_op hc p hp

theorem not_commits (hI : LogInv s) (hc : s.committing = false) (q : P) :
  (s.thread q).phase.commits = false
  := by
  by_contra hq
  rw [Bool.not_eq_false] at hq
  rw [(hI.loc q).commits hq] at hc
  cases hc

end LogInv

variable {t : Thread} {P : Type}

section

variable {s s' : LogSys P} (h : LogLocal s t)

include h

/-- A thread's assertion does not depend on the other threads. -/
theorem LogLocal.frame (hlh : s'.lh = s.lh)
    (hcommits : s'.commits = s.commits) (hcommitting : s'.committing = s.committing)
    (hpinned : s'.pinned = s.pinned) (hfull : s.full → s'.full) :
  LogLocal s' t
  := by
  constructor
  · rw [hlh, hcommits]
    exact h.op
  · rw [hcommitting]
    exact h.commits
  · intro ht
    exact hfull (h.asleep ht)
  · rw [hpinned, hlh]
    exact h.unpinned
  · rw [hlh]
    exact h.erased
  · rw [hlh]
    exact h.range

/-- Outside of a commit an assertion survives the growth of the log. -/
theorem LogLocal.grow (ht : t.phase.commits = false)
    (hlh : ∀ b ∈ s.lh, b ∈ s'.lh) (hcommits : s'.commits = s.commits) (hfull : s.full → s'.full) :
  LogLocal s' t
  := by
  constructor
  · intro hph
    obtain ⟨hnodup, hlen, hmem, hepoch⟩ := h.op hph
    rw [hcommits]
    exact ⟨hnodup, hlen, fun b hb => hlh b (hmem b hb), hepoch⟩
  · intro hph
    rw [ht] at hph
    cases hph
  · intro hph
    exact hfull (h.asleep hph)
  · intro hph
    rw [ht] at hph
    cases hph
  · intro hph
    rw [commits_of_erased hph] at ht
    cases ht
  · exact inRange_of_not_commits ht s'.lh

/-- Outside of a commit a thread that has been woken expects nothing of the log. -/
theorem LogLocal.wake (ht : t.phase.commits = false)
    (hlh : s'.lh = s.lh) (hcommits : s'.commits = s.commits) :
  LogLocal s' t.wake
  := by
  have ht' : t.wake.phase.commits = false := by rw [Thread.wake_commits, ht]
  constructor
  · intro hph
    obtain ⟨hnodup, hlen, hmem, hepoch⟩ := h.op (Thread.wake_op.mp hph)
    rw [← Thread.wake_logged] at hnodup hlen hmem
    rw [← Thread.wake_epoch] at hepoch
    rw [hlh, hcommits]
    exact ⟨hnodup, hlen, hmem, hepoch⟩
  · intro hph
    rw [ht'] at hph
    cases hph
  · intro hph
    exact absurd hph (Thread.wake_ne_asleep t)
  · intro hph
    rw [ht'] at hph
    cases hph
  · intro hph
    rw [commits_of_erased hph] at ht'
    cases ht'
  · exact inRange_of_not_commits ht' s'.lh

end

/-- A thread that takes no part while another one commits. -/
theorem LogLocal.bystander
    {s : LogSys P} (hop : t.phase ≠ .op) (ht : t.phase.commits = false)
    (hc : s.committing = true) :
  LogLocal s t
  := by
  constructor
  · intro hph
    contradiction
  · intro _
    exact hc
  · intro _
    exact Or.inl hc
  · intro hph
    exact absurd hph (by rw [Bool.not_eq_true]; exact ht)
  · intro hph
    exact absurd (commits_of_erased hph) (by rw [Bool.not_eq_true]; exact ht)
  · exact inRange_of_not_commits ht s.lh

/-- A thread outside of an operation. -/
theorem LogLocal.of_out (s : LogSys P) (ht : t.phase = .out) :
  LogLocal s t
  := by
  constructor <;> simp [ht, Phase.commits, Phase.erased, Phase.inRange]

namespace LogInv

variable {P : Type} [Fintype P] [DecidableEq P] {s s' : LogSys P} {p : P} {t : Thread}

omit [Fintype P] in
/-- The assertions after the thread of `p` has moved. -/
theorem loc_update (hp : LogLocal s' t) (hq : ∀ q, q ≠ p → LogLocal s' (s.thread q)) (q : P) :
  LogLocal s' (update s.thread p t q)
  := by
  by_cases h : q = p
  · rw [h, update_self]
    exact hp
  · rw [update_of_ne h]
    exact hq q h

/-- The committing threads after the thread of `p` has moved to a place that commits only if
it did so before. -/
theorem single_update (hI : LogInv s) (ht : t.phase.commits = true → (s.thread p).phase.commits = true)
    (q r : P) (hq : (update s.thread p t q).phase.commits = true)
    (hr : (update s.thread p t r).phase.commits = true) :
  q = r
  := by
  have hback : ∀ q, (update s.thread p t q).phase.commits = true →
      (s.thread q).phase.commits = true := by
    intro q hq
    by_cases h : q = p
    · rw [h, update_self] at hq
      rw [h]
      exact ht hq
    · rwa [update_of_ne h] at hq
  exact hI.single q r (hback q hq) (hback r hr)

/-- A step of the thread of `p` to `t` that the log does not notice. -/
structure Unnoticed (s s' : LogSys P) (p : P) (t : Thread) : Prop where
  outstanding : s'.outstanding = s.outstanding
  committing : s'.committing = s.committing
  lh : s'.lh = s.lh
  pinned : s'.pinned = s.pinned
  commits : s'.commits = s.commits
  finished : s'.finished = s.finished
  thread : s'.thread = update s.thread p t
  phase : Follows s (s.thread p).phase t.phase
  logged : t.logged = (s.thread p).logged
  epoch : t.epoch = (s.thread p).epoch

theorem unnoticed (hI : LogInv s) (h : Unnoticed s s' p t) : LogInv s' := by
  have hop := h.phase.op_iff
  have hrunning : t.running = (s.thread p).running := by simp only [Thread.running, hop]
  have hremaining : t.remaining = (s.thread p).remaining := by
    simp only [Thread.remaining, hop, h.logged]
  have hfull : s.full → s'.full := by
    simp only [LogSys.full, h.committing, h.lh, h.outstanding, imp_self]
  have hframe : ∀ t, LogLocal s t → LogLocal s' t := by
    intro t ht
    exact ht.frame h.lh h.commits h.committing h.pinned hfull
  constructor
  · rw [h.outstanding, h.thread, tally_update_of_eq hrunning, hI.outstanding]
  · rw [h.lh, h.thread, tally_update_of_eq hremaining]
    exact hI.budget
  · rw [h.lh]
    exact hI.nodup
  · rw [h.thread]
    apply loc_update
    · apply hframe
      have hp := hI.loc p
      constructor
      · intro hph
        obtain ⟨hnodup, hlen, hmem, hepoch⟩ := hp.op (hop.mp hph)
        rw [← h.logged] at hnodup hlen hmem
        rw [← h.epoch] at hepoch
        exact ⟨hnodup, hlen, hmem, hepoch⟩
      · rw [h.phase.commits]
        exact hp.commits
      · intro hph
        obtain hph' | hfull := h.phase.asleep hph
        · exact hp.asleep hph'
        · exact hfull
      · rw [h.phase.commits, h.phase.unpinned]
        exact hp.unpinned
      · intro hph
        obtain hph' | hnil := h.phase.erased hph
        · exact hp.erased hph'
        · exact hnil
      · exact h.phase.range hp.range
    · intro q _
      exact hframe _ (hI.loc q)
  · rw [h.thread]
    apply hI.single_update
    rw [h.phase.commits]
    exact id
  · rw [h.committing, h.outstanding]
    exact hI.exclusive
  · rw [h.outstanding, h.committing, h.lh]
    exact hI.idle
  · rw [h.committing, h.pinned, h.lh]
    exact hI.pinned
  · intro hc
    rw [h.committing] at hc
    obtain ⟨q, hq⟩ := hI.busy hc
    use q
    rw [h.thread]
    by_cases hqp : q = p
    · rw [hqp] at hq
      rw [hqp, update_self, h.phase.commits, hq]
    · rw [update_of_ne hqp, hq]
  · rw [h.committing, h.lh, h.commits]
    exact hI.current
  · rw [h.finished]
    simp only [Settled, h.commits, h.committing, h.lh]
    exact hI.finished

/-! ### The steps the log notices -/

/-- `begin_op` lets an operation in: its reservation fits into the log. -/
theorem enter
    (hI : LogInv s) (hph : (s.thread p).phase = .begin) (hc : s.committing = false)
    (hroom : s.lh.length + (s.outstanding + 1) * MAXOPBLOCKS ≤ LOGBLOCKS)
    (ht : t.phase = .op) (hlogged : t.logged = []) (hepoch : t.epoch = s.commits.length) :
  LogInv ({ s with outstanding := s.outstanding + 1 }.setThread p t)
  := by
  have hne : (s.thread p).phase ≠ .op := by simp [hph]
  have hrunning := tally_update Thread.running s.thread p t
  have hremaining := tally_update Thread.remaining s.thread p t
  rw [Thread.running_of_ne hne, Thread.running_of_op ht] at hrunning
  rw [Thread.remaining_of_ne hne, Thread.remaining_of_op ht, hlogged, List.length_nil] at hremaining
  have hreserve : tally Thread.remaining s.thread ≤ MAXOPBLOCKS * tally Thread.running s.thread :=
    tally_le_mul (fun q => (s.thread q).remaining_le)
  have hout := hI.outstanding
  constructor
  · change s.outstanding + 1 = tally Thread.running (update s.thread p t)
    omega
  · change s.lh.length + tally Thread.remaining (update s.thread p t) ≤ LOGBLOCKS
    simp only [LOGBLOCKS, MAXOPBLOCKS] at *
    omega
  · exact hI.nodup
  · apply loc_update
    · constructor
      · intro _
        refine ⟨?_, ?_, ?_, hepoch⟩ <;> rw [hlogged] <;> simp
      all_goals simp [ht, Phase.commits, Phase.erased, Phase.inRange]
    · intro q _
      refine (hI.loc q).frame rfl rfl rfl rfl ?_
      apply Or.imp_right
      intro hfull
      change LOGBLOCKS < s.lh.length + (s.outstanding + 1 + 1) * MAXOPBLOCKS
      omega
  · apply hI.single_update
    rw [ht]
    intro hcommits
    cases hcommits
  · intro hc'
    have hc'' : s.committing = true := hc'
    rw [hc] at hc''
    cases hc''
  · intro h0
    cases h0
  · exact hI.pinned
  · intro hc'
    have hc'' : s.committing = true := hc'
    rw [hc] at hc''
    cases hc''
  · exact hI.current
  · exact hI.finished

/-- `log_write` by the operation of `p`: the block is recorded, or was so before. -/
theorem logBlock
    {b : ℕ} (hI : LogInv s) (hph : (s.thread p).phase = .op)
    (hmax : b ∈ (s.thread p).logged ∨ (s.thread p).logged.length < MAXOPBLOCKS)
    (hout : s'.outstanding = s.outstanding) (hcommitting : s'.committing = s.committing)
    (hlh : s'.lh = if b ∈ s.lh then s.lh else s.lh ++ [b])
    (hpinned : s'.pinned = if b ∈ s.lh then s.pinned else s.pinned ++ [b])
    (hcommits : s'.commits = s.commits) (hfinished : s'.finished = s.finished)
    (hthread : s'.thread = update s.thread p t) (ht : t.phase = .op)
    (hepoch : t.epoch = (s.thread p).epoch)
    (hlogged : t.logged = if b ∈ (s.thread p).logged then (s.thread p).logged
      else (s.thread p).logged ++ [b]) :
  LogInv s'
  := by
  have hc := hI.not_committing hph
  obtain ⟨hnodup, hlen, hmem, hep⟩ := (hI.loc p).op hph
  have hsub : ∀ c ∈ s.lh, c ∈ s'.lh := by
    intro c hcl
    rw [hlh]
    split_ifs
    · exact hcl
    · exact List.mem_append_left _ hcl
  have hb : b ∈ s'.lh := by
    rw [hlh]
    split_ifs with hbl
    · exact hbl
    · simp
  have hgrow : s.lh.length ≤ s'.lh.length := by
    rw [hlh]
    split_ifs <;> simp
  have hfull : s.full → s'.full := by
    unfold LogSys.full
    rw [hcommitting, hout]
    apply Or.imp_right
    omega
  have hrunning : t.running = (s.thread p).running := by
    rw [Thread.running_of_op ht, Thread.running_of_op hph]
  have hbudget : s'.lh.length + t.remaining ≤ s.lh.length + (s.thread p).remaining := by
    rw [Thread.remaining_of_op ht, Thread.remaining_of_op hph, hlogged, hlh]
    split_ifs with hbl hbt hbt
    · exact Nat.le_refl _
    · simp only [List.length_append, List.length_singleton]
      omega
    · exact absurd (hmem b hbt) hbl
    · have := hmax.resolve_left hbt
      simp only [List.length_append, List.length_singleton]
      omega
  have hnot : ∀ q, (s'.thread q).phase.commits = false := by
    rw [hthread, Function.forall_update_iff s.thread (p := fun _ t => t.phase.commits = false)]
    exact ⟨by rw [ht]; rfl, fun q _ => hI.not_commits hc q⟩
  have hpos : 0 < s.outstanding := by
    have := le_tally Thread.running s.thread p
    rw [Thread.running_of_op hph, ← hI.outstanding] at this
    exact this
  constructor
  · rw [hout, hthread, tally_update_of_eq hrunning, hI.outstanding]
  · have hremaining := tally_update Thread.remaining s.thread p t
    have hbound := hI.budget
    rw [hthread]
    omega
  · rw [hlh]
    split_ifs with hbl
    · exact hI.nodup
    · rw [List.nodup_append]
      refine ⟨hI.nodup, List.nodup_singleton b, ?_⟩
      rintro c hcl d hd rfl
      rw [List.mem_singleton] at hd
      exact hbl (hd ▸ hcl)
  · rw [hthread]
    apply loc_update
    · constructor
      · intro _
        rw [hcommits]
        refine ⟨?_, ?_, ?_, hepoch.trans hep⟩
        · rw [hlogged]
          split_ifs with hbt
          · exact hnodup
          · rw [List.nodup_append]
            refine ⟨hnodup, List.nodup_singleton b, ?_⟩
            rintro c hcl d hd rfl
            rw [List.mem_singleton] at hd
            exact hbt (hd ▸ hcl)
        · rw [hlogged]
          split_ifs with hbt
          · exact hlen
          · rw [List.length_append, List.length_singleton]
            exact hmax.resolve_left hbt
        · intro c hcl
          rw [hlogged] at hcl
          split_ifs at hcl
          · exact hsub c (hmem c hcl)
          · obtain hcl | hcl := List.mem_append.mp hcl
            · exact hsub c (hmem c hcl)
            · rw [List.mem_singleton.mp hcl]
              exact hb
      all_goals simp [ht, Phase.commits, Phase.erased, Phase.inRange]
    · intro q _
      exact (hI.loc q).grow (hI.not_commits hc q) hsub hcommits hfull
  · intro q _ hq
    rw [hnot q] at hq
    cases hq
  · rw [hcommitting, hc]
    intro h
    cases h
  · rw [hout]
    omega
  · intro _
    rw [hpinned, hlh, hI.pinned hc]
  · rw [hcommitting, hc]
    intro h
    cases h
  · rw [hcommitting, hc]
    intro h
    cases h
  · intro op hop
    rw [hfinished] at hop
    apply (hI.finished op hop).imp
    · rw [hcommits]
      exact id
    · rintro ⟨he, _, hl⟩
      rw [hcommits, hcommitting]
      exact ⟨he, hc, fun c hcl => hsub c (hl c hcl)⟩

omit [DecidableEq P] in
/-- Waking the sleepers makes no difference to what is counted. -/
theorem tally_wake (f : Thread → ℕ) (hf : ∀ t : Thread, f t.wake = f t) (th : P → Thread) :
  tally f (fun q => (th q).wake) = tally f th
  := tally_congr (fun q => hf (th q))

omit [Fintype P] in
/-- The assertions after all sleepers are woken and the thread of `p` has gone out. -/
theorem loc_wake
    (hp : ∀ q, q ≠ p → (s.thread q).phase.commits = false ∧ LogLocal s (s.thread q))
    (hlh : s'.lh = s.lh) (hcommits : s'.commits = s.commits) (ht : t.phase = .out) (q : P) :
  LogLocal s' (update (fun q => (s.thread q).wake) p t q)
  := by
  by_cases hq : q = p
  · rw [hq, update_self]
    exact LogLocal.of_out s' ht
  · rw [update_of_ne hq]
    exact (hp q hq).2.wake (hp q hq).1 hlh hcommits

omit [Fintype P] in
theorem commits_update
    (hp : ∀ q, q ≠ p → (s.thread q).phase.commits = false) (ht : t.phase.commits = false) (q : P) :
  (update s.thread p t q).phase.commits = false
  := by
  by_cases hq : q = p
  · rw [hq, update_self, ht]
  · rw [update_of_ne hq]
    exact hp q hq

omit [Fintype P] in
theorem commits_wake
    (hp : ∀ q, q ≠ p → (s.thread q).phase.commits = false) (ht : t.phase = .out) (q : P) :
  (update (fun q => (s.thread q).wake) p t q).phase.commits = false
  := by
  by_cases hq : q = p
  · rw [hq, update_self, ht]
    rfl
  · rw [update_of_ne hq, Thread.wake_commits]
    exact hp q hq

/-- `end_op` by an operation that is not the last one. -/
theorem leave
    (hI : LogInv s) (hph : (s.thread p).phase = .op) (hmore : s.outstanding - 1 ≠ 0)
    (ht : t.phase = .out) :
  LogInv ({ s with
      outstanding := s.outstanding - 1
      finished := s.finished ++ [((s.thread p).epoch, (s.thread p).logged)] }.wakeup.setThread p t)
  := by
  have hc := hI.not_committing hph
  have hop := (hI.loc p).op hph
  have hwake : (s.thread p).wake = s.thread p := Thread.wake_of_ne (by simp [hph])
  have hne : t.phase ≠ .op := by simp [ht]
  have hrunning := tally_update Thread.running (fun q => (s.thread q).wake) p t
  have hremaining := tally_update Thread.remaining (fun q => (s.thread q).wake) p t
  simp only [hwake] at hrunning hremaining
  rw [tally_wake _ Thread.wake_running, Thread.running_of_op hph, Thread.running_of_ne hne] at hrunning
  rw [tally_wake _ Thread.wake_remaining, Thread.remaining_of_ne hne] at hremaining
  have hout := hI.outstanding
  have hbudget := hI.budget
  have hothers : ∀ q, q ≠ p → (s.thread q).phase.commits = false ∧ LogLocal s (s.thread q) :=
    fun q _ => ⟨hI.not_commits hc q, hI.loc q⟩
  constructor
  · change s.outstanding - 1 = tally Thread.running (update (fun q => (s.thread q).wake) p t)
    omega
  · change s.lh.length + tally Thread.remaining (update (fun q => (s.thread q).wake) p t)
      ≤ LOGBLOCKS
    omega
  · exact hI.nodup
  · intro q
    refine loc_wake hothers ?_ ?_ ht q <;> rfl
  · intro q _ hq
    exact absurd hq (by rw [Bool.not_eq_true]; exact commits_wake (fun q hq => (hothers q hq).1) ht q)
  · intro hc'
    have hc'' : s.committing = true := hc'
    rw [hc] at hc''
    cases hc''
  · intro h0
    exact absurd h0 hmore
  · exact hI.pinned
  · intro hc'
    have hc'' : s.committing = true := hc'
    rw [hc] at hc''
    cases hc''
  · exact hI.current
  · intro op hop'
    obtain hop' | hop' := List.mem_append.mp hop'
    · exact hI.finished op hop'
    · right
      rw [List.mem_singleton.mp hop']
      exact ⟨hop.epoch, hc, hop.mem⟩

/-- `end_op` by the last operation, which will commit. -/
theorem last
    (hI : LogInv s) (hph : (s.thread p).phase = .op) (hlast : s.outstanding - 1 = 0)
    (ht : t.phase = .commit) :
  LogInv ({ s with
      outstanding := s.outstanding - 1
      finished := s.finished ++ [((s.thread p).epoch, (s.thread p).logged)]
      committing := true
      commits := s.commits ++ [s.lh] }.setThread p t)
  := by
  have hc := hI.not_committing hph
  have hop := (hI.loc p).op hph
  have hne : t.phase ≠ .op := by simp [ht]
  have hrunning := tally_update Thread.running s.thread p t
  have hremaining := tally_update Thread.remaining s.thread p t
  rw [Thread.running_of_op hph, Thread.running_of_ne hne] at hrunning
  rw [Thread.remaining_of_ne hne] at hremaining
  have hout := hI.outstanding
  have hbudget := hI.budget
  have hzero : tally Thread.running (update s.thread p t) = 0 := by omega
  have hcommitted : ∀ op, Settled s op →
      ∃ c, (s.commits ++ [s.lh])[op.1]? = some c ∧ ∀ b ∈ op.2, b ∈ c := by
    rintro op (⟨c, hc, hsub⟩ | ⟨he, _, hsub⟩)
    · use c
      rw [List.getElem?_append_left (List.getElem?_eq_some_iff.mp hc).1]
      exact ⟨hc, hsub⟩
    · use s.lh
      rw [he]
      simp only [List.getElem?_concat_length, true_and]
      exact hsub
  constructor
  · change s.outstanding - 1 = tally Thread.running (update s.thread p t)
    omega
  · change s.lh.length + tally Thread.remaining (update s.thread p t) ≤ LOGBLOCKS
    omega
  · exact hI.nodup
  · apply loc_update
    · constructor
      · intro hop'
        exact absurd hop' hne
      · intro _
        rfl
      · intro _
        exact Or.inl rfl
      · intro _
        change s.pinned = s.lh.drop t.phase.unpinned
        rw [hI.pinned hc, ht]
        rfl
      · rw [ht]
        intro he
        cases he
      · rw [ht]
        trivial
    · intro q hq
      have hq0 := tally_eq_zero.mp hzero q
      rw [update_of_ne hq] at hq0
      refine LogLocal.bystander ?_ (hI.not_commits hc q) rfl
      intro hop'
      have hop'' : (s.thread q).phase = .op := hop'
      rw [Thread.running_of_op hop''] at hq0
      cases hq0
  · have honly : ∀ q, (update s.thread p t q).phase.commits = true → q = p := by
      intro q hq
      by_contra hne
      rw [update_of_ne hne, hI.not_commits hc q] at hq
      cases hq
    intro q r hq hr
    rw [honly q hq, honly r hr]
  · intro _
    exact hlast
  · intro _ hc'
    cases hc'
  · intro hc'
    cases hc'
  · intro _
    use p
    change (update s.thread p t p).phase.commits = true
    rw [update_self, ht]
    rfl
  · intro _
    right
    exact List.getLast?_concat
  · intro op hop'
    left
    apply hcommitted
    obtain hop' | hop' := List.mem_append.mp hop'
    · exact hI.finished op hop'
    · right
      rw [List.mem_singleton.mp hop']
      exact ⟨hop.epoch, hc, hop.mem⟩

omit [DecidableEq P] in
/-- While the thread of `p` commits, the others take no part. -/
theorem others_of_commits (hI : LogInv s) (hp : (s.thread p).phase.commits = true) {q : P} (hq : q ≠ p) :
  (s.thread q).phase ≠ .op ∧ (s.thread q).phase.commits = false
  := by
  refine ⟨hI.not_op ((hI.loc p).commits hp) q, ?_⟩
  by_contra hq'
  rw [Bool.not_eq_false] at hq'
  exact hq (hI.single q p hq' hp)

/-- A step of the committing thread that may change the pins and empty the log. -/
theorem commitStep
    (hI : LogInv s) (hp : (s.thread p).phase.commits = true) (hout : s'.outstanding = s.outstanding)
    (hcommitting : s'.committing = s.committing) (hlh : s'.lh = s.lh ∨ s'.lh = [])
    (hcommits : s'.commits = s.commits) (hfinished : s'.finished = s.finished)
    (hthread : s'.thread = update s.thread p t) (ht : t.phase.commits = true)
    (hunpinned : s'.pinned = s'.lh.drop t.phase.unpinned)
    (herased : t.phase.erased = true → s'.lh = []) (hrange : t.phase.inRange s'.lh) :
  LogInv s'
  := by
  have hc := (hI.loc p).commits hp
  have hc' : s'.committing = true := by rw [hcommitting, hc]
  have hop : (s.thread p).phase ≠ .op := hI.not_op hc p
  have hop' : t.phase ≠ .op := by
    intro h
    rw [h] at ht
    cases ht
  have hlen : s'.lh.length ≤ s.lh.length := by
    obtain h | h := hlh <;> rw [h]
    simp
  have hrunning : t.running = (s.thread p).running := by
    rw [Thread.running_of_ne hop, Thread.running_of_ne hop']
  have hremaining : t.remaining = (s.thread p).remaining := by
    rw [Thread.remaining_of_ne hop, Thread.remaining_of_ne hop']
  constructor
  · rw [hout, hthread, tally_update_of_eq hrunning, hI.outstanding]
  · rw [hthread, tally_update_of_eq hremaining]
    exact Nat.le_trans (Nat.add_le_add_right hlen _) hI.budget
  · obtain h | h := hlh <;> rw [h]
    · exact hI.nodup
    · exact List.nodup_nil
  · rw [hthread]
    apply loc_update
    · refine ⟨fun h => absurd h hop', fun _ => hc', fun _ => Or.inl hc', fun _ => hunpinned, herased,
        hrange⟩
    · intro q hq
      obtain ⟨hqop, hqc⟩ := hI.others_of_commits hp hq
      exact LogLocal.bystander hqop hqc hc'
  · rw [hthread]
    apply hI.single_update
    intro _
    exact hp
  · rw [hcommitting, hout]
    exact hI.exclusive
  · intro _ h
    rw [hc'] at h
    cases h
  · intro h
    rw [hc'] at h
    cases h
  · intro _
    use p
    rw [hthread, update_self, ht]
  · intro _
    rw [hcommits]
    obtain h | h := hlh <;> rw [h]
    · exact hI.current hc
    · exact Or.inl rfl
  · intro op hop
    rw [hfinished] at hop
    obtain h | ⟨_, h, _⟩ := hI.finished op hop
    · left
      rw [hcommits]
      exact h
    · rw [hc] at h
      cases h

/-- The end of a commit. -/
theorem finish
    (hI : LogInv s) (hph : (s.thread p).phase = .finish) (ht : t.phase = .out) :
  LogInv ({ s with committing := false }.wakeup.setThread p t)
  := by
  have hp : (s.thread p).phase.commits = true := by rw [hph]; rfl
  have hc := (hI.loc p).commits hp
  have hnil : s.lh = [] := (hI.loc p).erased (by rw [hph]; rfl)
  have hwake : (s.thread p).wake = s.thread p := Thread.wake_of_ne (by simp [hph])
  have hop : (s.thread p).phase ≠ .op := hI.not_op hc p
  have hne : t.phase ≠ .op := by simp [ht]
  have hrunning : tally Thread.running (update (fun q => (s.thread q).wake) p t)
      = tally Thread.running s.thread := by
    rw [tally_update_of_eq, tally_wake _ Thread.wake_running]
    rw [hwake, Thread.running_of_ne hne, Thread.running_of_ne hop]
  have hremaining : tally Thread.remaining (update (fun q => (s.thread q).wake) p t)
      = tally Thread.remaining s.thread := by
    rw [tally_update_of_eq, tally_wake _ Thread.wake_remaining]
    rw [hwake, Thread.remaining_of_ne hne, Thread.remaining_of_ne hop]
  have hothers : ∀ q, q ≠ p → (s.thread q).phase.commits = false ∧ LogLocal s (s.thread q) :=
    fun q hq => ⟨(hI.others_of_commits hp hq).2, hI.loc q⟩
  constructor
  · exact hI.outstanding.trans hrunning.symm
  · exact (congrArg (s.lh.length + ·) hremaining).trans_le hI.budget
  · exact hI.nodup
  · intro q
    refine loc_wake hothers ?_ ?_ ht q <;> rfl
  · intro q _ hq
    exact absurd hq (by rw [Bool.not_eq_true]; exact commits_wake (fun q hq => (hothers q hq).1) ht q)
  · intro h
    cases h
  · intro _ _
    exact hnil
  · intro _
    have hpinned := (hI.loc p).unpinned hp
    rw [hnil, List.drop_nil] at hpinned
    exact hpinned.trans hnil.symm
  · intro h
    cases h
  · intro h
    cases h
  · intro op hop
    obtain h | ⟨_, h, _⟩ := hI.finished op hop
    · left
      exact h
    · rw [hc] at h
      cases h

/-! ### Every step -/

omit [Fintype P] in
/-- What `log_write` does when it does not panic. -/
theorem logWrite_eq
    {i : BufId} (hroom : s.lh.length < LOGBLOCKS) (hopen : 0 < s.outstanding) :
  s.logWrite p i = if (s.buf i).blockno ∈ s.lh then
      { s with spec := update s.spec (s.buf i).blockno (s.buf i).data }.setThread p
        ((s.thread p).record i (s.buf i).blockno)
    else
      { s.setBuf i { s.buf i with refcnt := (s.buf i).refcnt + 1 } with
        spec := update s.spec (s.buf i).blockno (s.buf i).data
        lh := s.lh ++ [(s.buf i).blockno]
        pinned := s.pinned ++ [(s.buf i).blockno] }.setThread p
        ((s.thread p).record i (s.buf i).blockno)
  := by
  unfold LogSys.logWrite
  simp only [Nat.not_le.mpr hroom, if_false, Nat.not_lt.mpr hopen]
  rfl

omit [Fintype P] in
theorem endOp_leave (hc : s.committing = false) (hmore : s.outstanding - 1 ≠ 0) :
  s.endOp p = { s with
      outstanding := s.outstanding - 1
      finished := s.finished ++ [((s.thread p).epoch, (s.thread p).logged)] }.wakeup.setThread p
        { s.thread p with phase := .out, logged := [] }
  := by
  simp [LogSys.endOp, hc, hmore]

omit [Fintype P] in
theorem endOp_last (hc : s.committing = false) (hlast : s.outstanding - 1 = 0) :
  s.endOp p = { s with
      outstanding := s.outstanding - 1
      finished := s.finished ++ [((s.thread p).epoch, (s.thread p).logged)]
      committing := true
      commits := s.commits ++ [s.lh] }.setThread p
        { s.thread p with phase := .commit, logged := [] }
  := by
  simp [LogSys.endOp, hc, hlast]

/-- Every step keeps the invariant of the log, provided the block that `install_trans` unpins
is the one it has installed. -/
theorem effect
    (hI : LogInv s) (he : LogEffect s p s')
    (hunpin : ∀ tail i rest, (s.thread p).micro = .none → (s.thread p).phase = .install tail .unpin →
      (s.thread p).held = i :: rest → (s.buf i).blockno = s.lh.getD tail 0) :
  LogInv s'
  := by
  cases he with
  | move ph hgo => exact hI.unnoticed ⟨rfl, rfl, rfl, rfl, rfl, rfl, rfl, hgo.follows, rfl, rfl⟩
  | enter hph hc hroom => exact hI.enter hph hc hroom rfl rfl rfl
  | hit b ph i hm hcall | recycle b ph i hm hcall =>
    exact hI.unnoticed ⟨rfl, rfl, rfl, rfl, rfl, rfl, rfl, hcall.follows, rfl, rfl⟩
  | lock i | load i | unref i | modify i data =>
    exact hI.unnoticed ⟨rfl, rfl, rfl, rfl, rfl, rfl, rfl, Follows.refl s _, rfl, rfl⟩
  | drop i ph hm hdrop =>
    exact hI.unnoticed ⟨rfl, rfl, rfl, rfl, rfl, rfl, rfl, hdrop.follows s, rfl, rfl⟩
  | fill i data ph hm hfill =>
    exact hI.unnoticed ⟨rfl, rfl, rfl, rfl, rfl, rfl, rfl, hfill.follows, rfl, rfl⟩
  | write i ph hm hwrite =>
    exact hI.unnoticed ⟨rfl, rfl, rfl, rfl, rfl, rfl, rfl, hwrite.follows s, rfl, rfl⟩
  | unpin tail i rest hm hph hheld =>
    have hp : (s.thread p).phase.commits = true := by rw [hph]; rfl
    have hrange : tail < s.lh.length := by
      have := (hI.loc p).range
      rwa [hph] at this
    have hpinned := (hI.loc p).unpinned hp
    rw [hph] at hpinned
    refine hI.commitStep hp rfl rfl (Or.inl rfl) rfl rfl rfl rfl ?_ ?_ hrange
    · change s.pinned.erase (s.buf i).blockno = s.lh.drop (tail + 1)
      rw [hunpin tail i rest hm hph hheld, hpinned]
      change (s.lh.drop tail).erase _ = _
      rw [List.drop_eq_getElem_cons hrange, List.getD_eq_getElem _ _ hrange, List.erase_cons_head]
    · intro h
      cases h
  | log i hm hph hheld hout hmax hroom hopen =>
    rw [logWrite_eq hroom hopen]
    split_ifs with hb
    · exact hI.logBlock hph hmax rfl rfl (if_pos hb).symm (if_pos hb).symm rfl rfl rfl hph rfl rfl
    · exact hI.logBlock hph hmax rfl rfl (if_neg hb).symm (if_neg hb).symm rfl rfl rfl hph rfl rfl
  | leave hm hph hdirty hc hmore =>
    rw [endOp_leave hc hmore]
    exact hI.leave hph hmore rfl
  | last hm hph hdirty hc hlast =>
    rw [endOp_last hc hlast]
    exact hI.last hph hlast rfl
  | clear tail hm hph htail =>
    have hp : (s.thread p).phase.commits = true := by rw [hph]; rfl
    have hpinned := (hI.loc p).unpinned hp
    rw [hph] at hpinned
    refine hI.commitStep hp rfl rfl (Or.inr rfl) rfl rfl rfl rfl ?_ (fun _ => rfl) trivial
    change s.pinned = [].drop 0
    rw [hpinned]
    exact List.drop_eq_nil_of_le htail
  | finish hm hph => exact hI.finish hph rfl

end LogInv

end Xv6
