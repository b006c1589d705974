import Xv6.Pipe.Stream

/-!
# Wakeups of a pipe

A process that sleeps on a channel of a pipe waits for something that has not happened, or is
going to be woken by the process that holds `pi->lock`.  The exits from `pipewrite` that come
before its `wakeup` break this: the one for a closed read end is harmless, since nobody is
left to read, but a process that finds itself killed after it has stored bytes leaves the
readers asleep beside them.
-/

namespace Xv6

open RingBuffer Function

/-- A process is asleep on the channel, or about to be. -/
def PipeSys.Waits (s : PipeSys) (q : Slot) (chan : PipeChan) : Prop :=
  (s.proc q).state = .sleeping ∧ (s.proc q).chan = some chan ∨ (s.pc q).falls = some chan

/-- What a process waits for on the channel has not happened. -/
def PipeSys.Blocked (s : PipeSys) : PipeChan → Prop
  | .nread => s.ring.Empty ∧ s.writeopen = true
  | .nwrite => s.ring.Full PIPESIZE (2 ^ 32) ∧ s.readopen = true

/-- The process that stands there is going to wake `q` on the channel. -/
def PipePc.Owes (q : Slot) : PipeChan → PipePc → Prop
  | .nread, .writeTest w | .nread, .writeKilled w | .nread, .writeStore w => w.dirty = true
  | .nread, .writeFull _ j | .nread, .writeWakeup _ j => j ≤ q
  | .nwrite, .readCopy r => 0 < r.i
  | .nwrite, .readWakeup _ _ j => j ≤ q
  | chan, .closeWakeup writable j => chan = (if writable then .nread else .nwrite) ∧ j ≤ q
  | _, _ => False

variable {chan : PipeChan} {q : Slot} {pr : PipeProc} {s : PipeSys}

theorem PipePc.Owes.holds {pc : PipePc} (h : pc.Owes q chan) :
  pc.holds
  := by
  cases chan <;> cases pc <;> first | exact True.intro | exact h.elim

/-- Every process that waits has a reason to, or is going to be woken. -/
def PipeSys.Owed (s : PipeSys) : Prop :=
  ∀ q chan, s.Waits q chan → s.Blocked chan ∨ ∃ p, (s.pc p).Owes q chan

/-- The process has stored bytes, has woken nobody for them, and asks whether it is killed. -/
def PipePc.unannounced : PipePc → Bool
  | .writeKilled w => w.dirty
  | _ => false

/-- A process that finds itself killed in `pipewrite` has stored nothing since it acquired
`pi->lock`. -/
def PipeAct.Prompt (s : PipeSys) (a : PipeAct) : Prop :=
  ∀ p, a.mover = some p → (s.proc p).killed = true → (s.pc p).unannounced = false

instance (s : PipeSys) (a : PipeAct) : Decidable (a.Prompt s) :=
  inferInstanceAs (Decidable (∀ _ : Slot, _ → _ → _))

section Sleepers

variable {s s' : PipeSys} {p : Slot} {pc : PipePc}

/-! ### Where the sleepers stand -/

/-- A process that sleeps is in one of the two loops. -/
def PipeSys.Asleep (s : PipeSys) : Prop :=
  ∀ q, (s.proc q).state = .sleeping →
    (∃ w, s.pc q = .writeEnter w ∧ (s.proc q).chan = some .nwrite)
      ∨ ∃ n, s.pc q = .readEnter n ∧ (s.proc q).chan = some .nread

/-- A process that does not sleep moves. -/
theorem PipeSys.Asleep.goto (h : s.Asleep) (hrun : (s.proc p).state = .running) :
  (s.goto p pc).Asleep
  := by
  intro q hq
  by_cases hqp : q = p
  · subst hqp
    cases hrun.symm.trans hq
  · rw [s.goto_of_ne hqp]
    exact h q hq

theorem PipeSys.Asleep.setProc (h : s.Asleep)
    (hpr : pr.state = .sleeping → pr.state = (s.proc q).state ∧ pr.chan = (s.proc q).chan) :
  (s.setProc q pr).Asleep
  := by
  intro r hr
  by_cases hrq : r = q
  · subst hrq
    simp only [PipeSys.setProc, update_self] at hr ⊢
    obtain ⟨hstate, hchan⟩ := hpr hr
    rw [hchan]
    exact h r (hstate.symm.trans hr)
  · simp only [PipeSys.setProc, update_of_ne hrq] at hr ⊢
    exact h r hr

/-- A wakeup puts nobody to sleep. -/
theorem PipeProc.wakeup_sleeping (h : (pr.wakeup chan).state = .sleeping) :
  pr.wakeup chan = pr ∧ ¬ (pr.state = .sleeping ∧ pr.chan = some chan)
  := by
  unfold PipeProc.wakeup at h ⊢
  split_ifs at h ⊢ with hsleep
  exact ⟨rfl, hsleep⟩

theorem ThreadEffect.asleep (he : ThreadEffect s p s') (hrun : (s.proc p).state = .running)
    (h : s.Asleep) :
  s'.Asleep
  := by
  cases he with
  | shut writable _ _ =>
    have hshut : (s.shut writable).Asleep ∧ (s.shut writable).proc = s.proc := by
      unfold PipeSys.shut
      split_ifs <;> exact ⟨h, rfl⟩
    apply PipeSys.Asleep.goto (s := (s.shut writable).setLock (some p)) hshut.1
    exact (congrArg PipeProc.state (congrFun hshut.2 p)).trans hrun
  | wake j chan pc _ hj _ =>
    have hwake : (s.setProc j ((s.proc j).wakeup chan)).Asleep := by
      apply h.setProc
      intro hsleep
      rw [(PipeProc.wakeup_sleeping hsleep).1]
      exact ⟨rfl, rfl⟩
    apply hwake.goto
    simp only [PipeSys.setProc, update_of_ne hj.symm]
    exact hrun
  | sleep chan pc hpc =>
    intro q hq
    by_cases hqp : q = p
    · subst hqp
      rw [PipeSys.goto_self]
      simp only [PipeSys.goto, PipeSys.setProc, update_self]
      generalize s.pc q = pc₀ at hpc
      cases hpc with
      | write w => exact Or.inl ⟨w, rfl, rfl⟩
      | read n => exact Or.inr ⟨n, rfl, rfl⟩
    · rw [PipeSys.goto_of_ne _ hqp]
      simp only [PipeSys.goto, PipeSys.setProc, update_of_ne hqp] at hq ⊢
      exact h q hq
  | _ => exact h.goto (p := p) hrun

/-- A process that waits on `&pi->nread` is reading. -/
theorem PipeSys.Asleep.reading (h : s.Asleep) (hq : s.Waits q .nread) :
  (s.pc q).reading ≠ none
  := by
  rcases hq with ⟨hstate, hchan⟩ | hfalls
  · rcases h q hstate with ⟨w, _, hwrite⟩ | ⟨n, hpc, _⟩
    · cases hwrite.symm.trans hchan
    · rw [hpc]
      exact Option.some_ne_none n
  · cases hpc : s.pc q <;> rw [hpc] at hfalls <;> first | exact Option.some_ne_none _ | cases hfalls

/-! ### Nobody reads from a closed end -/

/-- Nobody is reading when the read end is closed, or being closed. -/
def PipeSys.Deserted (s : PipeSys) : Prop :=
  (s.readopen = false ∨ ∃ q, (s.pc q).closes false = true) → ∀ q, (s.pc q).reading = none

/-- The process does not begin to read or to close the read end. -/
structure SameEnd (pc pc' : PipePc) : Prop where
  reading : pc'.reading = none ∨ pc'.reading = pc.reading
  closes : pc'.closes false = true → pc.closes false = true

theorem PipeMoves.sameEnd (h : PipeMoves s p (s.pc p) pc) : SameEnd (s.pc p) pc := by
  generalize s.pc p = pc₀ at h
  cases h <;> exact ⟨by first | exact Or.inl rfl | exact Or.inr rfl, by rintro ⟨⟩⟩

variable {pc₀ : PipePc} {j : ℕ}

theorem PipeWakes.sameEnd (h : PipeWakes chan j pc₀ pc) : SameEnd pc₀ pc := by
  cases h <;> exact ⟨by first | exact Or.inl rfl | exact Or.inr rfl, id⟩

theorem PipeEnters.sameEnd (h : PipeEnters pc₀ pc) : SameEnd pc₀ pc := by
  cases h <;> exact ⟨by first | exact Or.inl rfl | exact Or.inr rfl, by rintro ⟨⟩⟩

theorem PipeFalls.sameEnd (h : PipeFalls pc₀ pc) : SameEnd pc₀ pc := by
  cases h <;> exact ⟨by first | exact Or.inl rfl | exact Or.inr rfl, by rintro ⟨⟩⟩

theorem PipeSleeps.sameEnd (h : PipeSleeps chan pc₀ pc) :
  SameEnd pc₀ pc
  := by
  cases h <;> exact ⟨by first | exact Or.inl rfl | exact Or.inr rfl, by rintro ⟨⟩⟩

theorem PipeSys.Deserted.goto (h : s.Deserted) (hsame : SameEnd (s.pc p) pc) :
  (s.goto p pc).Deserted
  := by
  intro hclosed q
  have hnone : ∀ q, (s.pc q).reading = none := by
    apply h
    rcases hclosed with hopen | ⟨r, hr⟩
    · exact Or.inl hopen
    · by_cases hrp : r = p
      · subst hrp
        rw [s.goto_self] at hr
        exact Or.inr ⟨r, hsame.closes hr⟩
      · rw [s.goto_of_ne hrp] at hr
        exact Or.inr ⟨r, hr⟩
  by_cases hqp : q = p
  · subst hqp
    rw [s.goto_self]
    rcases hsame.reading with hread | hread
    · exact hread
    · rw [hread, hnone]
  · rw [s.goto_of_ne hqp, hnone]

theorem PipePc.reading_of_uses (h : pc.uses false = false) : pc.reading = none := by
  cases pc <;> first | rfl | cases h

theorem ThreadEffect.deserted (he : ThreadEffect s p s') (h : s.Deserted) : s'.Deserted := by
  cases he with
  | call buf n r _ _ | store w hpc _ | leave ret hpc =>
    exact h.goto (p := p) ⟨Or.inl rfl, by rintro ⟨⟩⟩
  | read n r hpc href =>
    rintro (hopen | ⟨q, hq⟩)
    · cases href.1.symm.trans hopen
    · by_cases hqp : q = p
      · subst hqp
        rw [s.goto_self] at hq
        cases hq
      · rw [s.goto_of_ne hqp, href.2 q] at hq
        cases hq
  | close writable r hpc huses =>
    cases writable with
    | true => exact h.goto ⟨Or.inl rfl, by rintro ⟨⟩⟩
    | false =>
      intro _ q
      by_cases hqp : q = p
      · subst hqp
        rw [s.goto_self]
        rfl
      · rw [s.goto_of_ne hqp]
        exact PipePc.reading_of_uses (huses q)
  | enter pc _ hpc | wake j chan pc hpc _ _ | fall pc hpc | sleep chan pc hpc =>
    exact h.goto (p := p) hpc.sameEnd
  | shut writable _ hpc =>
    -- a process that closes the read end has found nobody reading
    have hshut : ((s.shut writable).setLock (some p)).Deserted := by
      cases writable with
      | true => exact h
      | false =>
        intro _
        apply h
        exact Or.inr ⟨p, congrArg (PipePc.closes · false) hpc⟩
    have hsame : ((s.shut writable).setLock (some p)).pc p = .closeEnter writable := by
      unfold PipeSys.shut PipeSys.setLock
      split_ifs <;> exact hpc
    apply hshut.goto
    rw [hsame]
    exact ⟨Or.inl rfl, id⟩
  | move pc hpc => exact h.goto hpc.sameEnd
  | skip chan pc hpc => exact h.goto hpc.sameEnd
  | take r hpc _ =>
    have hsame : SameEnd (s.pc p) (.readCopy { r with i := r.i + 1 }) := by
      rw [hpc]
      exact ⟨Or.inr rfl, by rintro ⟨⟩⟩
    exact h.goto (p := p) hsame

/-! ### Wakeups that are owed -/

/-- A process that does not fall asleep waits if it did before it moved. -/
theorem PipeSys.Waits.of_goto (h : (s.goto p pc).Waits q chan)
    (hfalls : pc.falls = none) :
  s.Waits q chan
  := by
  rcases h with hsleep | hfall
  · exact Or.inl hsleep
  · by_cases hqp : q = p
    · subst hqp
      rw [s.goto_self, hfalls] at hfall
      cases hfall
    · rw [s.goto_of_ne hqp] at hfall
      exact Or.inr hfall

/-- A process moves and forgets nobody who still waits, unless with a reason. -/
theorem PipeSys.Owed.of_waits (h : s.Owed) (hpc : s'.pc = update s.pc p pc)
    (hblocked : ∀ chan, s.Blocked chan → s'.Blocked chan)
    (hwaits : ∀ q chan, s'.Waits q chan →
      s'.Blocked chan ∨ s.Waits q chan ∧ ((s.pc p).Owes q chan → pc.Owes q chan)) :
  s'.Owed
  := by
  intro q chan hq
  rcases hwaits q chan hq with hreason | ⟨hbefore, howes⟩
  · exact Or.inl hreason
  rcases h q chan hbefore with hreason | ⟨r, hr⟩
  · exact Or.inl (hblocked chan hreason)
  · refine Or.inr ⟨r, ?_⟩
    rw [hpc]
    by_cases hrp : r = p
    · subst hrp
      rw [update_self]
      exact howes hr
    · rw [update_of_ne hrp]
      exact hr

/-- A process moves without forgetting anybody. -/
theorem PipeSys.Owed.goto (h : s.Owed) (hfalls : pc.falls = none)
    (howes : ∀ q chan, (s.pc p).Owes q chan → pc.Owes q chan) :
  (s.goto p pc).Owed
  := by
  refine h.of_waits rfl ?_ ?_
  · exact fun _ => id
  intro q chan hwaits
  exact Or.inr ⟨hwaits.of_goto hfalls, howes q chan⟩

theorem PipeSys.Owed.goto_of_not_holds (h : s.Owed) (hfalls : pc.falls = none)
    (hholds : ¬ (s.pc p).holds) :
  (s.goto p pc).Owed
  := h.goto hfalls (fun _ _ howes => absurd howes.holds hholds)

/-- Nobody waits on a channel without a reason when the holder of `pi->lock` owes nothing. -/
theorem PipeSys.Owed.blocked (h : s.Owed) (hmutex : Guards s.lock PipePc.holds s.pc)
    (hp : (s.pc p).holds) (hwaits : s.Waits q chan)
    (howes : ¬ (s.pc p).Owes q chan) :
  s.Blocked chan
  := by
  rcases h q chan hwaits with hblocked | ⟨r, hr⟩
  · exact hblocked
  · rw [hmutex.eq hr.holds hp] at hr
    contradiction

theorem PipeMoves.owes (h : PipeMoves s p (s.pc p) pc) (q : Slot) (chan : PipeChan)
    (howes : (s.pc p).Owes q chan) :
  pc.Owes q chan
  := by
  generalize s.pc p = pc₀ at h howes
  cases h with
  | drowsy w j hj =>
    cases chan with
    | nread => exact absurd (Nat.lt_of_le_of_lt (Nat.le_trans hj howes) q.isLt) (Nat.lt_irrefl _)
    | nwrite => exact howes
  | finish w | full w _ | fault w | drained r _ _ | refused r ret _ | enough r _ =>
    cases chan <;> first | exact Nat.zero_le _ | exact howes
  | start n _ => cases chan <;> exact howes.elim
  | _ => cases chan <;> exact howes

/-- An iteration of `wakeup` wakes one process on one channel. -/
theorem PipeWakes.owes {chan chan' : PipeChan} (h : PipeWakes chan j pc₀ pc)
    (howes : pc₀.Owes q chan') (hq : chan' = chan → j ≠ q) :
  pc.Owes q chan'
  := by
  cases h with
  | full w j | write w j =>
    cases chan' with
    | nread => exact Nat.lt_of_le_of_ne howes (hq rfl)
    | nwrite => exact howes
  | read n ret j =>
    cases chan' with
    | nread => exact howes
    | nwrite => exact Nat.lt_of_le_of_ne howes (hq rfl)
  | close writable j =>
    cases chan' <;> exact ⟨howes.1, Nat.lt_of_le_of_ne howes.2 (hq howes.1)⟩

theorem PipeWakes.falls (h : PipeWakes chan j pc₀ pc) : pc₀.falls = none ∧ pc.falls = none := by
  cases h <;> exact ⟨rfl, rfl⟩

/-- The process that leaves has woken everybody it had to. -/
theorem PipeLeaves.paid {ret : ℤ} (h : PipeLeaves s p (s.pc p) ret) (hasleep : s.Asleep)
    (hdeserted : s.Deserted) (hprompt : (s.proc p).killed = true → (s.pc p).unannounced = false)
    (hwaits : s.Waits q chan) :
  ¬ (s.pc p).Owes q chan
  := by
  intro howes
  have hlast : ∀ j : ℕ, NPROC ≤ j → ¬ j ≤ q := by
    intro j hj hjq
    exact absurd (Nat.lt_of_le_of_lt (Nat.le_trans hj hjq) q.isLt) (Nat.lt_irrefl _)
  generalize s.pc p = pc₀ at h hprompt howes
  cases h with
  | closed w _ hopen =>
    cases chan with
    | nread => exact hasleep.reading hwaits (hdeserted (Or.inl hopen) q)
    | nwrite => exact howes
  | writeKilled w hkilled =>
    cases chan with
    | nread => cases (hprompt hkilled).symm.trans howes
    | nwrite => exact howes
  | write w j hj =>
    cases chan with
    | nread => exact hlast j hj howes
    | nwrite => exact howes
  | readKilled n => cases chan <;> exact howes
  | read n ret j hj =>
    cases chan with
    | nread => exact howes
    | nwrite => exact hlast j hj howes
  | close writable j hj => cases chan <;> exact hlast j hj howes.2

theorem ThreadEffect.owed (he : ThreadEffect s p s') (hrun : (s.proc p).state = .running)
    (hinv : PipeInvariant s) (hasleep : s.Asleep) (hdeserted : s.Deserted)
    (hprompt : (s.proc p).killed = true → (s.pc p).unannounced = false) (h : s.Owed) :
  s'.Owed
  := by
  cases he with
  | call buf n r hpc _ => exact h.goto_of_not_holds (p := p) rfl (by rw [hpc]; exact id)
  | read n r hpc _ | close writable r hpc _ =>
    exact h.goto_of_not_holds rfl (by rw [hpc]; exact id)
  | enter pc hlock hpc =>
    apply PipeSys.Owed.goto_of_not_holds (s := s.setLock (some p)) h
    · generalize s.pc p = pc₀ at hpc
      cases hpc <;> rfl
    · intro hholds
      cases ((hinv.mutex p).mpr hholds).symm.trans hlock
  | shut writable hlock hpc =>
    have hshut : (s.shut writable).proc = s.proc ∧ (s.shut writable).pc = s.pc := by
      unfold PipeSys.shut
      split_ifs <;> exact ⟨rfl, rfl⟩
    intro q chan hwaits
    by_cases hchan : chan = if writable then .nread else .nwrite
    · refine Or.inr ⟨p, ?_⟩
      rw [PipeSys.goto_self]
      cases chan <;> exact ⟨hchan, Nat.zero_le _⟩
    · left
      -- nobody holds the lock, so the sleepers on the other channel have a reason
      have hbefore : s.Waits q chan := by
        have := hwaits.of_goto rfl
        simpa only [PipeSys.Waits, PipeSys.setLock, hshut] using this
      rcases h q chan hbefore with hblocked | ⟨r, hr⟩
      · cases chan <;> cases writable <;> first | exact hblocked | exact absurd rfl hchan
      · cases ((hinv.mutex r).mpr hr.holds).symm.trans hlock
  | move pc hpc =>
    apply h.goto _ hpc.owes
    generalize s.pc p = pc₀ at hpc
    cases hpc <;> rfl
  | store w hpc hfull =>
    intro q chan hwaits
    cases chan with
    | nread =>
      refine Or.inr ⟨p, ?_⟩
      rw [PipeSys.goto_self]
      rfl
    | nwrite =>
      have hblocked := h.blocked hinv.mutex (p := p) (by rw [hpc]; trivial)
        (hwaits.of_goto rfl) (by rw [hpc]; exact id)
      exact absurd hblocked.1 hfull
  | take r hpc hempty =>
    intro q chan hwaits
    cases chan with
    | nread =>
      have hblocked := h.blocked hinv.mutex (p := p) (by rw [hpc]; trivial)
        (hwaits.of_goto rfl) (by rw [hpc]; exact id)
      exact absurd hblocked.1 hempty
    | nwrite =>
      refine Or.inr ⟨p, ?_⟩
      rw [PipeSys.goto_self]
      exact Nat.succ_pos _
  | wake j chan pc hpc hj hfalls =>
    refine h.of_waits rfl ?_ ?_
    · exact fun _ => id
    intro q chan' hwaits
    right
    rcases hwaits.of_goto hpc.falls.2 with hsleep | hfall
    · by_cases hqj : q = j
      · subst hqj
        simp only [PipeSys.setProc, update_self] at hsleep
        obtain ⟨hsame, hnot⟩ := PipeProc.wakeup_sleeping hsleep.1
        rw [hsame] at hsleep
        refine ⟨Or.inl hsleep, fun howes => hpc.owes howes ?_⟩
        rintro rfl
        exact absurd hsleep hnot
      · simp only [PipeSys.setProc, update_of_ne hqj] at hsleep
        refine ⟨Or.inl hsleep, fun howes => hpc.owes howes ?_⟩
        rintro - hval
        exact hqj (Fin.ext hval.symm)
    · refine ⟨Or.inr hfall, fun howes => hpc.owes howes ?_⟩
      rintro - hval
      obtain rfl := Fin.ext hval
      cases hfalls.symm.trans hfall
  | skip chan pc hpc =>
    -- the process that calls `wakeup` does not wait itself
    refine h.of_waits rfl ?_ ?_
    · exact fun _ => id
    intro q chan' hwaits
    have hbefore := hwaits.of_goto hpc.falls.2
    refine Or.inr ⟨hbefore, fun howes => hpc.owes howes ?_⟩
    rintro - hval
    obtain rfl := Fin.ext hval
    rcases hbefore with ⟨hsleep, _⟩ | hfall
    · cases hrun.symm.trans hsleep
    · cases hpc.falls.1.symm.trans hfall
  | leave ret hpc =>
    refine h.of_waits rfl ?_ ?_
    · exact fun _ => id
    intro q chan hwaits
    have hbefore : s.Waits q chan := PipeSys.Waits.of_goto (s := s.setLock none) hwaits rfl
    exact Or.inr ⟨hbefore, fun howes =>
      absurd howes (hpc.paid hasleep hdeserted hprompt hbefore)⟩
  | fall pc hpc =>
    -- the process has tested, with the lock, what it is going to wait for
    have hknows := hinv.known p
    refine h.of_waits rfl ?_ ?_
    · exact fun _ => id
    intro q chan hwaits
    generalize hpc₀ : s.pc p = pc₀ at hpc hknows
    rcases hwaits with hsleep | hfall
    · refine Or.inr ⟨Or.inl hsleep, ?_⟩
      cases hpc <;> cases chan <;> exact id
    · by_cases hqp : q = p
      · subst hqp
        rw [PipeSys.goto_self] at hfall
        left
        cases hpc <;> cases hfall <;> exact hknows
      · rw [PipeSys.goto_of_ne _ hqp] at hfall
        refine Or.inr ⟨Or.inr hfall, ?_⟩
        cases hpc <;> cases chan <;> exact id
  | sleep chan pc hpc =>
    refine h.of_waits rfl ?_ ?_
    · exact fun _ => id
    intro q chan' hwaits
    right
    generalize hpc₀ : s.pc p = pc₀ at hpc
    refine ⟨?_, by cases hpc <;> cases chan' <;> exact id⟩
    rcases hwaits.of_goto (by cases hpc <;> rfl) with hsleep | hfall
    · by_cases hqp : q = p
      · subst hqp
        simp only [PipeSys.setProc, update_self] at hsleep
        right
        rw [hpc₀, ← hsleep.2]
        cases hpc <;> rfl
      · simp only [PipeSys.setProc, update_of_ne hqp] at hsleep
        exact Or.inl hsleep
    · exact Or.inr hfall

end Sleepers

/-! ### Runs -/

/-- What holds in the states of a run in which nobody leaves `pipewrite` killed with bytes
that nobody was woken for. -/
structure Wakeful (s : PipeSys) : Prop where
  pipe : PipeInvariant s
  asleep : s.Asleep
  deserted : s.Deserted
  owed : s.Owed

theorem PipeSys.Fresh.wakeful (h : s.Fresh) : Wakeful s := by
  have hrunning : ∀ q, (s.proc q).state ≠ .sleeping := by
    intro q hq
    cases (h.1 q).1.symm.trans hq
  have hidle : ∀ q, (s.pc q).falls = none ∧ (s.pc q).reading = none := by
    intro q
    obtain ⟨r, hr⟩ := h.2.1 q
    rw [hr]
    exact ⟨rfl, rfl⟩
  refine ⟨h.invariant, fun q hq => absurd hq (hrunning q), fun _ q => (hidle q).2, ?_⟩
  rintro q chan (⟨hsleep, _⟩ | hfall)
  · exact absurd hsleep (hrunning q)
  · cases (hidle q).1.symm.trans hfall

theorem Wakeful.resched (h : Wakeful s) (hpr : Rescheduled s q pr) : Wakeful (s.setProc q pr) := by
  refine ⟨⟨h.pipe.mutex, h.pipe.known, h.pipe.streaming.congr _ rfl rfl rfl rfl rfl rfl⟩,
    h.asleep.setProc hpr.awake, h.deserted, ?_⟩
  intro r chan hwaits
  apply h.owed r chan
  rcases hwaits with hsleep | hfall
  · by_cases hrq : r = q
    · subst hrq
      simp only [PipeSys.setProc, update_self] at hsleep
      obtain ⟨hstate, hchan⟩ := hpr.awake hsleep.1
      rw [hstate, hchan] at hsleep
      exact Or.inl hsleep
    · simp only [PipeSys.setProc, update_of_ne hrq] at hsleep
      exact Or.inl hsleep
  · exact Or.inr hfall

/-- A step keeps the invariant, unless a killed process forgets a wakeup. -/
theorem Wakeful.step {s s' : PipeSys} {a : PipeAct} (h : Wakeful s) (hprompt : a.Prompt s)
    (hstep : s.step a = some s') :
  Wakeful s'
  := by
  have he := PipeSys.step_effect hstep
  unfold PipeAct.Prompt at hprompt
  generalize a.mover = mover at he hprompt
  cases he with
  | thread p s' hrun he =>
    obtain ⟨⟨hmutex, hknown, hstreaming⟩, hasleep, hdeserted, howed⟩ := id h
    exact ⟨⟨he.mutex hmutex, he.known hmutex hknown, he.streaming hstreaming⟩,
      he.asleep hrun hasleep, he.deserted hdeserted,
      he.owed hrun h.pipe hasleep hdeserted (hprompt p rfl) howed⟩
  | resched q pr hpr => exact h.resched hpr

/-- In every run in which no process that finds itself killed in `pipewrite` has stored a byte
since it acquired `pi->lock`: while `pi->lock` is free, the processes that sleep on
`&pi->nread` find the pipe empty and the write end open, and those that sleep on
`&pi->nwrite` find it full and the read end open. -/
theorem pipe_wakeups {s₀ s : PipeSys} {as : List PipeAct} (hinit : s₀.Fresh)
    (hrun : pipeSystem.exec s₀ as = some s)
    (hprompt : pipeSystem.Admissible (fun s a => a.Prompt s) s₀ as) (hlock : s.lock = none) (q : Slot)
    (hsleep : (s.proc q).state = .sleeping) :
  ((s.proc q).chan = some .nread → s.ring.nread = s.ring.nwrite ∧ s.writeopen = true)
    ∧ ((s.proc q).chan = some .nwrite →
        s.ring.nwrite = (s.ring.nread + PIPESIZE) % 2 ^ 32 ∧ s.readopen = true)
  := by
  have hwakeful : Wakeful s := by
    apply TransitionSystem.exec_invariant (I := Wakeful) _ hinit.wakeful hrun hprompt
    intro s a s' h hok hstep
    exact h.step hok hstep
  have hblocked : ∀ chan, (s.proc q).chan = some chan → s.Blocked chan := by
    intro chan hchan
    rcases hwakeful.owed q chan (Or.inl ⟨hsleep, hchan⟩) with hblocked | ⟨p, hp⟩
    · exact hblocked
    · cases ((hwakeful.pipe.mutex p).mpr hp.holds).symm.trans hlock
  exact ⟨hblocked .nread, hblocked .nwrite⟩

/-- A process reads from an empty pipe. -/
def readAndSleep : List PipeAct := .read 1 1 :: List.replicate 5 (.run 1 true)

theorem pipe_wakeups_empty :
  ∃ s, pipeSystem.exec newPipe readAndSleep = some s ∧ (s.proc 1).state = .sleeping
    ∧ s.ring.nread = s.ring.nwrite ∧ s.writeopen = true
  := by
  have hrun : (pipeSystem.exec newPipe readAndSleep).map
      (fun s => (s.lock, (s.proc 1).state, (s.proc 1).chan))
        = some (none, .sleeping, some .nread) := by
    decide
  obtain ⟨s, hs, hfinal⟩ := Option.map_eq_some_iff.mp hrun
  simp only [Prod.mk.injEq] at hfinal
  obtain ⟨hlock, hsleep, hchan⟩ := hfinal
  have hprompt : pipeSystem.Admissible (fun s a => a.Prompt s) newPipe readAndSleep := by
    decide
  exact ⟨s, hs, hsleep, (pipe_wakeups newPipe_fresh hs hprompt hlock 1 hsleep).1 hchan⟩

/-- A process sleeps on an empty pipe; another one stores a byte of two and is killed. -/
def killedWriter : List PipeAct :=
  readAndSleep ++ .write 0 (fun _ => 7) 2 :: List.replicate 5 (.run 0 true)
    ++ [.kill 0, .run 0 true]

/-- The reader sleeps, with a byte in the pipe and `pi->lock` free. -/
theorem pipe_wakeup_lost :
  ∃ s, pipeSystem.Reachable s ∧ s.lock = none ∧ (s.proc 1).state = .sleeping
    ∧ (s.proc 1).chan = some .nread ∧ s.ring.nread ≠ s.ring.nwrite
  := by
  have hrun : (pipeSystem.exec newPipe killedWriter).map
      (fun s => (s.lock, (s.proc 1).state, (s.proc 1).chan, s.ring.nread, s.ring.nwrite))
        = some (none, .sleeping, some .nread, 0, 1) := by
    decide
  obtain ⟨s, hs, hfinal⟩ := Option.map_eq_some_iff.mp hrun
  simp only [Prod.mk.injEq] at hfinal
  obtain ⟨hlock, hsleep, hchan, hnread, hnwrite⟩ := hfinal
  refine ⟨s, (TransitionSystem.Reachable.init newPipe_fresh).exec hs, hlock, hsleep, hchan, ?_⟩
  rw [hnread, hnwrite]
  exact Nat.zero_ne_one

end Xv6
