import Xv6.Sleeplock.System

/-!
# Sleep-locks exclude each other and lose no wakeup

A sleep-lock is locked exactly while a process has it, with the pid of that process, and a
process that sleeps on it waits for a lock that is locked, or is going to be woken: the process
that has unlocked the lock holds `lk->lk` until its `wakeup` has passed the sleeper.  A process
that falls asleep holds its own lock, and `wakeup` waits for that.
-/

namespace Xv6

open Function

section

variable {P L : Type} [DecidableEq P] [DecidableEq L] {f : P → Finset L} {p q : P} {l m : L}

theorem mem_update_insert :
  m ∈ update f p (insert l (f p)) q ↔ m ∈ f q ∨ q = p ∧ m = l
  := by
  by_cases hq : q = p
  · subst hq
    simp [or_comm]
  · simp [hq]

theorem mem_update_erase :
  m ∈ update f p ((f p).erase l) q ↔ m ∈ f q ∧ ¬ (q = p ∧ m = l)
  := by
  by_cases hq : q = p
  · subst hq
    simp [and_comm]
  · simp [hq]

end

namespace SleepProc

variable {L : Type} [DecidableEq L] {l : L} {p : SleepProc L}

theorem wakeup_pid (p : SleepProc L) :
  (p.wakeup l).pid = p.pid
  := by
  unfold wakeup
  split_ifs <;> rfl

/-- A process that `wakeup` leaves asleep sleeps on something else. -/
theorem wakeup_sleeping (h : (p.wakeup l).state = .sleeping) :
  p.wakeup l = p ∧ p.chan ≠ some l
  := by
  by_cases hp : p.state = .sleeping ∧ p.chan = some l
  · rw [wakeup, if_pos hp] at h
    cases h
  · rw [wakeup, if_neg hp] at h ⊢
    exact ⟨rfl, fun hchan => hp ⟨h, hchan⟩⟩

omit [DecidableEq L] in
theorem kill_awake (p : SleepProc L) :
  p.kill.state ≠ .sleeping
  := by
  simp only [kill]
  split_ifs with hp
  · simp
  · exact hp

end SleepProc

namespace SleepSys

section

variable {n j : ℕ} {L : Type}

/-- A process is asleep on a lock, or about to be. -/
def Waits (s : SleepSys n L) (p : Fin n) (l : L) : Prop :=
  (s.proc p).state = .sleeping ∧ (s.proc p).chan = some l ∨ (s.pc p).falls = some l

/-- Somebody is going to wake the process on the lock. -/
def Woken (s : SleepSys n L) (p : Fin n) (l : L) : Prop :=
  ∃ q j, s.pc q = .wake l j ∧ j ≤ p.val

structure Inv (s : SleepSys n L) : Prop where
  guard : ∀ l, Guards (s.spin l) (SleepPc.spins l) s.pc
  owned : ∀ p, ∀ l ∈ s.owns p, s.lk l = ⟨true, (s.proc p).pid⟩
  unique : ∀ p q l, l ∈ s.owns p → l ∈ s.owns q → p = q
  owner : ∀ l, (s.lk l).locked = true → ∃ p, l ∈ s.owns p
  releasing : ∀ p l, s.pc p = .release l → l ∈ s.owns p
  blocked : ∀ p l, s.pc p = .sleep l → (s.lk l).locked = true
  owed : ∀ p l, s.Waits p l → (s.lk l).locked = true ∨ s.Woken p l

variable {s s' : SleepSys n L} {p q : Fin n} {l : L} {pc : SleepPc L}

theorem of_guard {c : Prop} [Decidable c] {o : SleepSys n L} (h : (if c then some o else none) = some s') :
  c ∧ o = s'
  := by
  simpa using h

/-! ### Other processes -/

theorem goto_pc_self (s : SleepSys n L) (p : Fin n) (pc : SleepPc L) :
  (s.goto p pc).pc p = pc
  := update_self _ _ _

theorem goto_pc_of_ne (s : SleepSys n L) (pc : SleepPc L) (hq : q ≠ p) :
  (s.goto p pc).pc q = s.pc q
  := update_of_ne hq _ _

/-- Whoever is going to wake a process does so when another one moves. -/
theorem Woken.of_pc (h : s.Woken q l) (hpc : ∀ r, r ≠ p → s'.pc r = s.pc r)
    (hp : ∀ j, s.pc p ≠ .wake l j) :
  s'.Woken q l
  := by
  obtain ⟨r, j, hr, hj⟩ := h
  refine ⟨r, j, ?_, hj⟩
  rw [hpc r, hr]
  rintro rfl
  exact hp j hr

/-- Nobody waits by moving, unless they fall asleep. -/
theorem Waits.of_goto (h : (s.goto p pc).Waits q l) (hfall : pc.falls ≠ some l) :
  s.Waits q l
  := by
  refine h.imp id fun hf => ?_
  by_cases hqp : q = p
  · subst hqp
    rw [goto_pc_self] at hf
    exact absurd hf hfall
  · rwa [goto_pc_of_ne s pc hqp] at hf

/-- A process that runs does not sleep. -/
theorem not_waits (hrun : (s.proc p).state = .running) (hfall : (s.pc p).falls = none) :
  ¬ s.Waits p l
  := by
  rintro (⟨hsleep, -⟩ | hf)
  · rw [hrun] at hsleep
    cases hsleep
  · rw [hfall] at hf
    cases hf

/-- A lock that is taken leaves the others locked. -/
theorem locked_of_locked [DecidableEq L] {pid : ℤ} {owns : Finset L} {m : L}
    (h : (s.lk m).locked = true) :
  ((s.setLock l ⟨true, pid⟩ p owns).lk m).locked = true
  := by
  by_cases hm : m = l
  · subst hm
    simp [setLock]
  · simpa [setLock, hm] using h

/-- A lock that is given up leaves the others locked. -/
theorem locked_setLock_iff [DecidableEq L] (s : SleepSys n L) (p : Fin n) (owns : Finset L)
    {l m : L} :
  ((s.setLock l ⟨false, 0⟩ p owns).lk m).locked = true ↔ m ≠ l ∧ (s.lk m).locked = true
  := by
  by_cases hm : m = l
  · subst hm
    simp [setLock]
  · simp [setLock, hm]

/-! ### What the steps preserve -/

namespace Inv

/-- A process moves, and perhaps acquires or releases `lk->lk`. -/
theorem goto (h : s.Inv) {spin : L → Option (Fin n)}
    (hguard : ∀ l, Guards (spin l) (SleepPc.spins l) (update s.pc p pc))
    (hrelease : ∀ l, pc = .release l → l ∈ s.owns p)
    (hblocked : ∀ l, pc = .sleep l → (s.lk l).locked = true)
    (howed : ∀ q l, (s.goto p pc).Waits q l → (s.lk l).locked = true ∨ (s.goto p pc).Woken q l) :
  ({ s with spin }.goto p pc).Inv
  := by
  refine ⟨hguard, h.owned, h.unique, h.owner, ?_, ?_, howed⟩
  · intro q l hq
    by_cases hqp : q = p
    · subst hqp
      rw [goto_pc_self] at hq
      exact hrelease l hq
    · rw [goto_pc_of_ne _ pc hqp] at hq
      exact h.releasing q l hq
  · intro q l hq
    by_cases hqp : q = p
    · subst hqp
      rw [goto_pc_self] at hq
      exact hblocked l hq
    · rw [goto_pc_of_ne _ pc hqp] at hq
      exact h.blocked q l hq

/-- Whoever waits is still cared for when a process moves that wakes nobody. -/
theorem owed_goto (h : s.Inv) (hold : ∀ j, s.pc p ≠ .wake l j) (hfall : pc.falls ≠ some l)
    (hq : (s.goto p pc).Waits q l) :
  (s.lk l).locked = true ∨ (s.goto p pc).Woken q l
  := by
  refine (h.owed q l (hq.of_goto hfall)).imp id fun hw => ?_
  exact hw.of_pc (fun r hr => goto_pc_of_ne s pc hr) hold

/-- A process moves between places without a spinlock. -/
theorem move (h : s.Inv) (hold : ∀ l, ¬ (s.pc p).spins l) (hspin : ∀ l, ¬ pc.spins l)
    (hfall : ∀ l, pc.falls ≠ some l) (hrelease : ∀ l, pc = .release l → l ∈ s.owns p) :
  (s.goto p pc).Inv
  := by
  apply h.goto _ hrelease
  · rintro l rfl
    exact absurd rfl (hspin l)
  · intro q l
    apply h.owed_goto _ (hfall l)
    intro j hj
    exact hold l (by rw [hj]; rfl)
  · intro l
    apply (h.guard l).keep
    exact iff_of_false (hspin l) (hold l)

/-- The fields of a process change, and it sleeps only if it was going to. -/
theorem setProc (h : s.Inv) {pr : SleepProc L}
    (hpid : pr.pid = (s.proc q).pid ∨ s.owns q = ∅)
    (hwaits : ∀ l, pr.state = .sleeping → pr.chan = some l → s.Waits q l) :
  (s.setProc q pr).Inv
  := by
  refine ⟨h.guard, ?_, h.unique, h.owner, h.releasing, h.blocked, ?_⟩
  · intro p l hl
    by_cases hp : p = q
    · subst hp
      obtain hpid | hempty := hpid
      · have howned := h.owned p l hl
        rw [← hpid] at howned
        simpa [SleepSys.setProc] using howned
      · rw [SleepSys.setProc, hempty] at hl
        exact absurd hl (Finset.notMem_empty l)
    · have howned := h.owned p l hl
      simpa [SleepSys.setProc, hp] using howned
  · intro p l hp
    apply h.owed p l
    obtain ⟨hstate, hchan⟩ | hf := hp
    · by_cases hpq : p = q
      · subst hpq
        simp only [SleepSys.setProc, update_self] at hstate hchan
        exact hwaits l hstate hchan
      · simp only [SleepSys.setProc, update_of_ne hpq] at hstate hchan
        exact Or.inl ⟨hstate, hchan⟩
    · exact Or.inr hf

variable [DecidableEq L]

variable (h : s.Inv)

include h

/-- `acquiresleep` finds the lock taken. -/
theorem block (hpc : s.pc p = .acquire l) (hspin : s.spin l = none)
    (hlocked : (s.lk l).locked = true) :
  ((s.setSpin l (some p)).goto p (.sleep l)).Inv
  := by
  apply h.goto
  · apply Guards.acquire_at h.guard hspin
    · intro m hm
      rw [hpc]
      exact iff_of_false (Ne.symm hm) id
    · exact rfl
  · simp
  · intro m hm
    cases hm
    exact hlocked
  · intro q m
    apply h.owed_goto
    · simp [hpc]
    · simp [SleepPc.falls]

/-- `sleep` has `p->lock` and gives up `lk->lk`. -/
theorem fall (hpc : s.pc p = .sleep l) : ((s.setSpin l none).goto p (.fall l)).Inv := by
  apply h.goto
  · apply Guards.release_at h.guard (by rw [hpc]; rfl)
    · intro m hm
      rw [hpc]
      exact iff_of_false id (Ne.symm hm)
    · exact id
  · simp
  · simp
  · intro q m hq
    by_cases hm : m = l
    · subst hm
      exact Or.inl (h.blocked p m hpc)
    · apply h.owed_goto _ _ hq
      · simp [hpc]
      · simpa [SleepPc.falls] using Ne.symm hm

omit [DecidableEq L] in
/-- `sleep` marks the process. -/
theorem drowse (hpc : s.pc p = .fall l) :
  ((s.setProc p { s.proc p with chan := some l, state := .sleeping }).goto p (.acquire l)).Inv
  := by
  have hproc : (s.setProc p { s.proc p with chan := some l, state := .sleeping }).Inv := by
    refine h.setProc (Or.inl rfl) ?_
    rintro m - hm
    cases hm
    exact Or.inr (by rw [hpc]; rfl)
  apply hproc.move
  · intro m
    simp [SleepSys.setProc, hpc, SleepPc.spins]
  · simp [SleepPc.spins]
  · simp [SleepPc.falls]
  · simp

/-- `acquiresleep` gets the lock. -/
theorem take (hpc : s.pc p = .acquire l) (hfree : (s.lk l).locked = false) :
  ((s.setLock l ⟨true, (s.proc p).pid⟩ p (insert l (s.owns p))).goto p (.idle none)).Inv
  := by
  have hnobody : ∀ q, l ∉ s.owns q := by
    intro q hq
    rw [h.owned q l hq] at hfree
    cases hfree
  have howns : ∀ q m, m ∈ (s.setLock l ⟨true, (s.proc p).pid⟩ p (insert l (s.owns p))).owns q ↔
      m ∈ s.owns q ∨ q = p ∧ m = l := fun _ _ => mem_update_insert
  have hlocked : (s.setLock l ⟨true, (s.proc p).pid⟩ p (insert l (s.owns p))).Inv := by
    refine ⟨h.guard, ?_, ?_, ?_, ?_, ?_, ?_⟩
    · intro q m hm
      obtain hm | ⟨rfl, rfl⟩ := (howns q m).mp hm
      · have hne : m ≠ l := fun heq => hnobody q (heq ▸ hm)
        exact (update_of_ne hne _ _).trans (h.owned q m hm)
      · exact update_self _ _ _
    · intro q r m hq hr
      obtain hq | ⟨rfl, rfl⟩ := (howns q m).mp hq
      · obtain hr | ⟨rfl, rfl⟩ := (howns r m).mp hr
        · exact h.unique q r m hq hr
        · exact absurd (by assumption) (hnobody q)
      · obtain hr | ⟨rfl, -⟩ := (howns r m).mp hr
        · exact absurd hr (hnobody r)
        · rfl
    · intro m hm
      by_cases hml : m = l
      · exact ⟨p, (howns p m).mpr (Or.inr ⟨rfl, hml⟩)⟩
      · simp only [setLock, update_of_ne hml] at hm
        obtain ⟨q, hq⟩ := h.owner m hm
        exact ⟨q, (howns q m).mpr (Or.inl hq)⟩
    · intro q m hq
      exact (howns q m).mpr (Or.inl (h.releasing q m hq))
    · intro q m hq
      exact locked_of_locked (h.blocked q m hq)
    · intro q m hq
      exact (h.owed q m hq).imp locked_of_locked id
  apply hlocked.move
  · intro m
    simp [setLock, hpc, SleepPc.spins]
  · simp [SleepPc.spins]
  · simp [SleepPc.falls]
  · simp

/-- `releasesleep` unlocks and calls `wakeup`. -/
theorem unlock (hpc : s.pc p = .release l) (hspin : s.spin l = none) :
  (((s.setLock l ⟨false, 0⟩ p ((s.owns p).erase l)).setSpin l (some p)).goto p (.wake l 0)).Inv
  := by
  have howns : ∀ q m, m ∈ (s.setLock l ⟨false, 0⟩ p ((s.owns p).erase l)).owns q ↔
      m ∈ s.owns q ∧ m ≠ l := by
    intro q m
    refine mem_update_erase.trans (and_congr_right fun hm => ?_)
    have hq : m = l → q = p := fun hml => h.unique q p m hm (hml ▸ h.releasing p l hpc)
    tauto
  refine ⟨?_, ?_, ?_, ?_, ?_, ?_, ?_⟩
  · apply Guards.acquire_at h.guard hspin
    · intro m hm
      rw [hpc]
      exact iff_of_false (Ne.symm hm) id
    · exact rfl
  · intro q m hm
    obtain ⟨hm, hne⟩ := (howns q m).mp hm
    exact (update_of_ne hne _ _).trans (h.owned q m hm)
  · intro q r m hq hr
    exact h.unique q r m ((howns q m).mp hq).1 ((howns r m).mp hr).1
  · intro m hm
    obtain ⟨hne, hm⟩ := (locked_setLock_iff s p ((s.owns p).erase l)).mp hm
    obtain ⟨q, hq⟩ := h.owner m hm
    exact ⟨q, (howns q m).mpr ⟨hq, hne⟩⟩
  · intro q m hq
    by_cases hqp : q = p
    · subst hqp
      rw [goto_pc_self] at hq
      cases hq
    · rw [goto_pc_of_ne _ _ hqp] at hq
      have hqm := h.releasing q m hq
      refine (howns q m).mpr ⟨hqm, ?_⟩
      rintro rfl
      exact hqp (h.unique q p m hqm (h.releasing p m hpc))
  · intro q m hq
    by_cases hqp : q = p
    · subst hqp
      rw [goto_pc_self] at hq
      cases hq
    · rw [goto_pc_of_ne _ _ hqp] at hq
      have hq' : s.pc q = .sleep m := hq
      refine (locked_setLock_iff s p ((s.owns p).erase l)).mpr ⟨?_, h.blocked q m hq'⟩
      rintro rfl
      have hinside := (h.guard m q).mpr (by rw [hq']; rfl)
      rw [hspin] at hinside
      cases hinside
  · intro q m hq
    by_cases hm : m = l
    · subst hm
      exact Or.inr ⟨p, 0, goto_pc_self _ _ _, Nat.zero_le _⟩
    · have hq' : (s.goto p (.wake l 0)).Waits q m := hq
      refine (h.owed_goto ?_ ?_ hq').imp (fun hl => ?_) id
      · simp [hpc]
      · simp [SleepPc.falls]
      · exact (locked_setLock_iff s p ((s.owns p).erase l)).mpr ⟨hm, hl⟩

omit [DecidableEq L] in
/-- `wakeup` leaves a process behind that does not sleep on the lock. -/
theorem wake (hpc : s.pc p = .wake l j) (hj : ∀ q : Fin n, q.val = j → ¬ s.Waits q l) :
  (s.goto p (.wake l (j + 1))).Inv
  := by
  apply h.goto
  · intro m
    apply (h.guard m).keep
    rw [hpc]
    rfl
  · simp
  · simp
  · intro q m hq
    have hq' := hq.of_goto (by simp [SleepPc.falls])
    obtain hlocked | ⟨r, i, hr, hi⟩ := h.owed q m hq'
    · exact Or.inl hlocked
    · right
      by_cases hrp : r = p
      · subst hrp
        rw [hpc] at hr
        cases hr
        refine ⟨r, j + 1, goto_pc_self s r _, ?_⟩
        have hne : q.val ≠ j := fun hqj => hj q hqj hq'
        omega
      · exact ⟨r, i, by rw [goto_pc_of_ne s _ hrp, hr], hi⟩

/-- `wakeup` is through, and `releasesleep` returns. -/
theorem finish (hpc : s.pc p = .wake l j) (hj : n ≤ j) :
  ((s.setSpin l none).goto p (.idle none)).Inv
  := by
  apply h.goto
  · apply Guards.release_at h.guard (by rw [hpc]; rfl)
    · intro m hm
      rw [hpc]
      exact iff_of_false id (Ne.symm hm)
    · exact id
  · simp
  · simp
  · intro q m hq
    obtain hlocked | ⟨r, i, hr, hi⟩ := h.owed q m (hq.of_goto (by simp [SleepPc.falls]))
    · exact Or.inl hlocked
    · right
      refine ⟨r, i, ?_, hi⟩
      rw [goto_pc_of_ne s _, hr]
      rintro rfl
      rw [hpc] at hr
      cases hr
      omega

theorem advance (hrun : (s.proc p).state = .running)
    (hs : s.advance p (s.pc p) = some s') :
  s'.Inv
  := by
  cases hpc : s.pc p with simp only [hpc, SleepSys.advance] at hs
  | idle r => cases hs
  | acquire l =>
    split_ifs at hs with hspin hlocked
    · cases hs
      exact h.block hpc hspin hlocked
    · cases hs
      exact h.take hpc (by simpa using hlocked)
  | sleep l =>
    cases hs
    exact h.fall hpc
  | fall l =>
    cases hs
    exact h.drowse hpc
  | release l =>
    split_ifs at hs with hspin
    cases hs
    exact h.unlock hpc hspin
  | wake l j =>
    split_ifs at hs with hj hself hfalls
    · cases hs
      apply h.wake hpc
      rintro q rfl
      cases hself
      exact not_waits hrun (by rw [hpc]; rfl)
    · cases hs
      have hproc : (s.setProc ⟨j, hj⟩ ((s.proc ⟨j, hj⟩).wakeup l)).Inv := by
        refine h.setProc (Or.inl (SleepProc.wakeup_pid _)) fun m hstate hchan => ?_
        obtain ⟨heq, -⟩ := SleepProc.wakeup_sleeping hstate
        rw [heq] at hstate hchan
        exact Or.inl ⟨hstate, hchan⟩
      apply hproc.wake hpc
      rintro q rfl (⟨hstate, hchan⟩ | hf)
      · simp only [SleepSys.setProc, update_self] at hstate hchan
        obtain ⟨heq, hne⟩ := SleepProc.wakeup_sleeping hstate
        exact hne (heq ▸ hchan)
      · have hnone : (s.pc q).falls = none := hfalls
        have hsome : (s.pc q).falls = some l := hf
        rw [hnone] at hsome
        cases hsome
    · cases hs
      exact h.finish hpc (not_lt.mp hj)
  | holding l =>
    split_ifs at hs
    cases hs
    apply h.move <;> simp [hpc, SleepPc.spins, SleepPc.falls]
  | kill pid k =>
    split_ifs at hs with hk hfalls hpid
    · cases hs
      have hproc : (s.setProc ⟨k, hk⟩ (s.proc ⟨k, hk⟩).kill).Inv :=
        h.setProc (Or.inl rfl) fun m hstate => absurd hstate (SleepProc.kill_awake _)
      apply hproc.move <;> simp [SleepSys.setProc, hpc, SleepPc.spins, SleepPc.falls]
    · cases hs
      apply h.move <;> simp [hpc, SleepPc.spins, SleepPc.falls]
    · cases hs
      apply h.move <;> simp [hpc, SleepPc.spins, SleepPc.falls]

theorem step {a : SleepAct n L} (hs : s.step a = some s') : s'.Inv := by
  have hidle : ∀ {p l}, s.Ready p → ¬ (s.pc p).spins l := by
    intro p l hp
    cases hpc : s.pc p <;> simp_all [Ready, SleepPc.isIdle, SleepPc.spins]
  cases a with
  | acquire p l | holding p l | kill p pid =>
    obtain ⟨hp, rfl⟩ := SleepSys.of_guard hs
    apply h.move (fun _ => hidle hp) <;> simp [SleepPc.spins, SleepPc.falls]
  | release p l =>
    obtain ⟨⟨hp, hl⟩, rfl⟩ := SleepSys.of_guard hs
    apply h.move (fun _ => hidle hp) <;> simp [SleepPc.spins, SleepPc.falls, hl]
  | run p =>
    obtain ⟨hp, hs⟩ := Option.ite_none_right_eq_some.mp hs
    exact h.advance hp hs
  | yield p | dispatch p =>
    obtain ⟨-, rfl⟩ := SleepSys.of_guard hs
    exact h.setProc (Or.inl rfl) (by simp)
  | replace p pid =>
    obtain ⟨⟨-, hempty⟩, rfl⟩ := SleepSys.of_guard hs
    exact h.setProc (Or.inr hempty) (by simp)

end Inv

theorem Fresh.inv [DecidableEq L] (h : s.Fresh) : s.Inv := by
  obtain ⟨hlk, hspin, hproc, howns⟩ := h
  refine ⟨?_, ?_, ?_, ?_, ?_, ?_, ?_⟩
  · intro l p
    obtain ⟨-, r, hr⟩ := hproc p
    rw [hspin, hr]
    simp [SleepPc.spins]
  · simp [howns]
  · simp [howns]
  · simp [hlk]
  · intro p l hp
    obtain ⟨-, r, hr⟩ := hproc p
    rw [hr] at hp
    cases hp
  · intro p l hp
    obtain ⟨-, r, hr⟩ := hproc p
    rw [hr] at hp
    cases hp
  · rintro p l (⟨hstate, -⟩ | hf)
    · exact absurd hstate (hproc p).1
    · obtain ⟨-, r, hr⟩ := hproc p
      rw [hr] at hf
      cases hf

/-! ### Who gets the lock -/

variable [DecidableEq L] {a : SleepAct n L}

/-- The lock changes hands only when a process comes out of `acquiresleep` with a lock that was
unlocked, or unlocks it in `releasesleep`. -/
theorem owns_step (hs : s.step a = some s') :
  s'.owns = s.owns
    ∨ ∃ p l, a = .run p
      ∧ (s.pc p = .acquire l ∧ (s.lk l).locked = false
          ∧ s'.owns = update s.owns p (insert l (s.owns p))
        ∨ s.pc p = .release l ∧ s'.owns = update s.owns p ((s.owns p).erase l))
  := by
  cases a with
  | run p =>
    obtain ⟨-, hs⟩ := Option.ite_none_right_eq_some.mp hs
    cases hpc : s.pc p with
    | acquire l =>
      simp only [hpc, advance] at hs
      split_ifs at hs with hspin hlocked
      · cases hs
        exact Or.inl rfl
      · cases hs
        exact Or.inr ⟨p, l, rfl, Or.inl ⟨hpc, by simpa using hlocked, rfl⟩⟩
    | release l =>
      simp only [hpc, advance] at hs
      split_ifs at hs
      cases hs
      exact Or.inr ⟨p, l, rfl, Or.inr ⟨hpc, rfl⟩⟩
    | _ =>
      left
      simp only [hpc, advance] at hs
      (try split_ifs at hs) <;> cases hs <;> rfl
  | _ =>
    left
    obtain ⟨-, rfl⟩ := of_guard hs
    rfl

theorem pc_advance_of_ne {k : SleepPc L} (hs : s.advance p k = some s') (hq : q ≠ p) :
  s'.pc q = s.pc q
  := by
  cases k <;> simp only [advance] at hs <;> (try split_ifs at hs) <;> cases hs
    <;> exact update_of_ne hq _ _

/-- A process comes out of `acquiresleep` with the lock. -/
theorem owns_of_acquire {r : Option Bool} (hs : s.step a = some s') (hpc : s.pc p = .acquire l)
    (hpc' : s'.pc p = .idle r) :
  (s.lk l).locked = false ∧ l ∈ s'.owns p
  := by
  -- Any other step leaves the process where it is.
  have hmoved : s'.pc p ≠ s.pc p := by
    rw [hpc, hpc']
    simp
  have hcalls : ∀ {q pc}, s.Ready q → (s.goto q pc).pc p = s.pc p := by
    intro q pc hq
    apply goto_pc_of_ne
    rintro rfl
    have hidle := hq.2
    rw [hpc] at hidle
    cases hidle
  cases a with
  | run q =>
    obtain ⟨-, hs⟩ := Option.ite_none_right_eq_some.mp hs
    by_cases hqp : p = q
    · subst hqp
      simp only [hpc, advance] at hs
      split_ifs at hs with hspin hlocked
      · cases hs
        rw [goto_pc_self] at hpc'
        cases hpc'
      · cases hs
        refine ⟨by simpa using hlocked, ?_⟩
        simp [setLock, goto]
    · exact absurd (pc_advance_of_ne hs hqp) hmoved
  | acquire q m | holding q m | kill q pid =>
    obtain ⟨hq, rfl⟩ := of_guard hs
    exact absurd (hcalls hq) hmoved
  | release q m =>
    obtain ⟨⟨hq, -⟩, rfl⟩ := of_guard hs
    exact absurd (hcalls hq) hmoved
  | _ =>
    obtain ⟨-, rfl⟩ := of_guard hs
    exact absurd rfl hmoved

end

/-- Sleep-locks exclude each other and lose no wakeup. -/
theorem acquiresleep_excludes {n : ℕ} {L : Type} [DecidableEq L] {s : SleepSys n L}
    (h : (sleeplockSystem n L).Reachable s) :
  (∀ p q l, l ∈ s.owns p → l ∈ s.owns q → p = q)
    ∧ (∀ l, (s.lk l).locked = true ↔ ∃ p, l ∈ s.owns p)
    ∧ (∀ p, ∀ l ∈ s.owns p, (s.lk l).pid = (s.proc p).pid)
    ∧ (∀ a s' p l r, s.step a = some s' → s.pc p = .acquire l → s'.pc p = .idle r →
        (s.lk l).locked = false ∧ l ∈ s'.owns p)
    ∧ (∀ a s' p l, s.step a = some s' → l ∈ s'.owns p → l ∉ s.owns p →
        a = .run p ∧ s.pc p = .acquire l ∧ (s.lk l).locked = false)
    ∧ (∀ a s' p l, s.step a = some s' → l ∈ s.owns p → l ∉ s'.owns p →
        a = .run p ∧ s.pc p = .release l)
    ∧ ∀ p l, s.spin l = none → (s.proc p).state = .sleeping → (s.proc p).chan = some l →
        (s.lk l).locked = true
  := by
  have hinv : s.Inv := by
    apply h.invariant (I := Inv)
    · intro s hs
      exact Fresh.inv hs
    · intro s a s' hs hstep
      exact Inv.step hs hstep
  refine ⟨hinv.unique, ?_, ?_, ?_, ?_, ?_, ?_⟩
  · intro l
    refine ⟨hinv.owner l, ?_⟩
    rintro ⟨p, hp⟩
    rw [hinv.owned p l hp]
  · intro p l hp
    rw [hinv.owned p l hp]
  · intro a s' p l r hs
    exact owns_of_acquire hs
  · intro a s' p l hs hnew hold
    obtain heq | ⟨q, m, rfl, ⟨hpc, hfree, heq⟩ | ⟨hpc, heq⟩⟩ := owns_step hs
    · exact absurd (heq ▸ hnew) hold
    · rw [heq, mem_update_insert] at hnew
      obtain ⟨rfl, rfl⟩ := hnew.resolve_left hold
      exact ⟨rfl, hpc, hfree⟩
    · rw [heq, mem_update_erase] at hnew
      exact absurd hnew.1 hold
  · intro a s' p l hs hold hnew
    obtain heq | ⟨q, m, rfl, ⟨hpc, hfree, heq⟩ | ⟨hpc, heq⟩⟩ := owns_step hs
    · exact absurd (heq ▸ hold) hnew
    · rw [heq, mem_update_insert] at hnew
      exact absurd (Or.inl hold) hnew
    · rw [heq, mem_update_erase] at hnew
      obtain ⟨rfl, rfl⟩ : p = q ∧ l = m := by tauto
      exact ⟨rfl, hpc⟩
  · intro p l hspin hstate hchan
    refine (hinv.owed p l (Or.inl ⟨hstate, hchan⟩)).resolve_right ?_
    rintro ⟨q, j, hq, -⟩
    have hinside := (hinv.guard l q).mpr (by rw [hq]; rfl)
    rw [hspin] at hinside
    cases hinside

/-- Processes that run and have not used the locks. -/
def started (n : ℕ) (L : Type) : SleepSys n L where
  lk _ := ⟨false, 0⟩
  spin _ := none
  proc p := ⟨.running, none, false, p.val + 1⟩
  pc _ := .idle none
  owns _ := ∅

theorem started_fresh (n : ℕ) (L : Type) : (started n L).Fresh := by
  simp [Fresh, started]

/-- Two processes want the lock, and one of them sleeps until the other has released it. -/
theorem acquiresleep_excludes_waiter :
  ∃ s : SleepSys 2 Unit, (sleeplockSystem 2 Unit).Reachable s ∧ (s.proc 1).state = .sleeping
    ∧ (s.proc 1).chan = some () ∧ (s.lk ()).locked = true
  := by
  have hrun : ((sleeplockSystem 2 Unit).exec (started 2 Unit)
      [.acquire 0 (), .acquire 1 (), .run 0, .run 1, .run 1, .run 1]).map
      (fun s => (s.spin (), s.proc 1)) = some (none, ⟨.sleeping, some (), false, 2⟩) := by
    decide
  obtain ⟨s, hexec, hs⟩ := Option.map_eq_some_iff.mp hrun
  obtain ⟨hspin, hproc⟩ := Prod.mk.inj hs
  have hreach : (sleeplockSystem 2 Unit).Reachable s :=
    (TransitionSystem.Reachable.init (started_fresh 2 Unit)).exec hexec
  obtain ⟨-, -, -, -, -, -, hwaits⟩ := acquiresleep_excludes hreach
  have hstate : (s.proc 1).state = .sleeping := by rw [hproc]
  have hchan : (s.proc 1).chan = some () := by rw [hproc]
  exact ⟨s, hreach, hstate, hchan, hwaits 1 () hspin hstate hchan⟩

end SleepSys

end Xv6
