import Xv6.Sched.Kill

/-!
# The process that a kill reaches

`kkill(pid)` marks the first slot whose field `pid` has the value.  That slot holds a process,
unless the value is `0`: then it may be a slot that is not in use, and as `allocproc` does not
clear the mark, the next child starts out killed.  In the runs in which this does not happen,
a process that is killed was named by a call of `kkill`, or by `setkilled`, after it was
allocated.
-/

namespace Xv6

open Function

variable {C : Type}

/-! ### One call -/

/-- The slot that `kkill(pid)` finds. -/
def killTarget (proc : Slot → Proc) (pid : ℤ) : Option Slot :=
  Fin.find? (fun q => (proc q).pid = pid)

/-- `kkill(pid)` on a table that nobody else changes meanwhile: the result, and the table. -/
def kkill (proc : Slot → Proc) (pid : ℤ) : ℤ × (Slot → Proc) :=
  match killTarget proc pid with
  | some q => (0, update proc q (proc q).kill)
  | none => (-1, proc)

/-- `kkill(pid)` returns `0` exactly when a process has the pid, and changes nothing but the
fields `killed` and `state` of such a process; otherwise it returns `-1` and changes nothing. -/
structure KillSpec (proc : Slot → Proc) (pid : ℤ) (r : ℤ × (Slot → Proc)) : Prop where
  result : r.1 = 0 ↔ ∃ p, (proc p).state ≠ .unused ∧ (proc p).pid = pid
  found : r.1 = 0 → ∃ p, (proc p).state ≠ .unused ∧ (proc p).pid = pid
    ∧ r.2 = update proc p { proc p with killed := (r.2 p).killed, state := (r.2 p).state }
  missing : r.1 ≠ 0 → r = (-1, proc)

/-- The slot that `kkill(pid)` finds holds a process.  Or it is marked already, and another slot
holds a process with the pid. -/
def KillsProcess (proc : Slot → Proc) (pid : ℤ) : Prop :=
  ∀ q, killTarget proc pid = some q → (proc q).state ≠ .unused
    ∨ (proc q).killed = true ∧ ∃ p, (proc p).state ≠ .unused ∧ (proc p).pid = pid

variable {proc : Slot → Proc} {pr : Proc} {q : Slot}

theorem killTarget_eq_some {pid : ℤ} :
  killTarget proc pid = some q ↔ (proc q).pid = pid ∧ ∀ p < q, (proc p).pid ≠ pid
  := by
  unfold killTarget
  rw [Fin.find?_eq_some_iff]
  simp

theorem killTarget_eq_none {pid : ℤ} :
  killTarget proc pid = none ↔ ∀ q, (proc q).pid ≠ pid
  := by
  unfold killTarget
  rw [Fin.find?_eq_none_iff]
  simp

theorem Proc.kill_of_killed (hkilled : pr.killed = true) (hstate : pr.state = .unused) :
  pr.kill = pr
  := by
  unfold Proc.kill
  rw [hstate, if_neg (by rintro ⟨⟩), ← hkilled, ← hstate]

theorem killSpec_iff {pid : ℤ} :
  KillSpec proc pid (kkill proc pid) ↔ KillsProcess proc pid
  := by
  unfold kkill
  cases htarget : killTarget proc pid with
  | none =>
    have hnone := killTarget_eq_none.mp htarget
    constructor
    · intro _ q hq
      cases htarget.symm.trans hq
    · intro _
      refine ⟨⟨nofun, ?_⟩, nofun, fun _ => rfl⟩
      rintro ⟨p, _, hp⟩
      exact absurd hp (hnone p)
  | some q =>
    have hpid := (killTarget_eq_some.mp htarget).1
    constructor
    · rintro ⟨_, hfound, _⟩ q' hq'
      obtain rfl := Option.some.inj (htarget.symm.trans hq')
      obtain ⟨p, hp, hppid, htable⟩ := hfound rfl
      by_cases hqp : q = p
      · subst hqp
        exact Or.inl hp
      · -- the slot is not changed, so it is marked already
        right
        have hsame := congrFun htable q
        dsimp only at hsame
        rw [update_self, update_of_ne hqp] at hsame
        exact ⟨congrArg Proc.killed hsame.symm, p, hp, hppid⟩
    · intro hprocess
      dsimp only
      by_cases hstate : (proc q).state = .unused
      · obtain ⟨hkilled, p, hp, hppid⟩ := (hprocess q htarget).resolve_left (absurd hstate)
        rw [Proc.kill_of_killed hkilled hstate, update_eq_self]
        refine ⟨⟨fun _ => ⟨p, hp, hppid⟩, fun _ => rfl⟩, ?_, fun h => absurd rfl h⟩
        intro _
        exact ⟨p, hp, hppid, (update_eq_self p proc).symm⟩
      · refine ⟨⟨fun _ => ⟨q, hstate, hpid⟩, fun _ => rfl⟩, ?_, fun h => absurd rfl h⟩
        intro _
        refine ⟨q, hstate, hpid, ?_⟩
        dsimp only
        rw [update_self]
        rfl

/-! ### The call as a run of steps -/

section KillScan

variable [DecidableEq C] {s : SchedSys C} {c : C} {t : Slot} {pid : ℤ} {k : ℕ}

/-- The thread of `t` is in the loop of `kkill` on the CPU `c`, and no process is locked. -/
structure KillScanning (s : SchedSys C) (c : C) (t : Slot) (pid : ℤ) (k : ℕ) : Prop where
  cpu : s.cpu c = { proc := some t, pc := .thread t }
  thread : s.thread t = { pc := .killScan pid k, trap := .none }
  unlocked : ∀ q, s.lock q = none

theorem KillScanning.step (h : KillScanning s c t pid k) :
  s.step (.run c true) = s.advance c t t true (.killScan pid k)
  := by
  have hon : s.onCpu c = some (t, t) := by
    unfold SchedSys.onCpu
    rw [h.cpu]
  unfold SchedSys.step SchedSys.runThread
  dsimp only
  rw [hon]
  dsimp only
  rw [h.thread]

/-- When nobody else takes a step, the loop of `kkill` does what `kkill` says. -/
theorem KillScanning.run (n : ℕ) (hn : k + n = NPROC) (h : KillScanning s c t pid k)
    (hbefore : ∀ q : Slot, q.val < k → (s.proc q).pid ≠ pid) :
  ∃ m s', (schedSystem C).exec s (List.replicate m (.run c true)) = some s'
    ∧ s'.proc = (kkill s.proc pid).2
    ∧ (s'.thread t).pc = .user (some (.kill (kkill s.proc pid).1))
  := by
  induction n generalizing s k with
  | zero =>
    have htarget : killTarget s.proc pid = none := by
      apply killTarget_eq_none.mpr
      intro q
      apply hbefore
      have := q.isLt
      omega
    have hstep : s.step (.run c true) = some (s.goto t (.user (some (.kill (-1))))) := by
      rw [h.step, SchedSys.advance, dif_neg (by omega)]
    unfold kkill
    rw [htarget]
    refine ⟨1, _, TransitionSystem.exec_cons_iff.mpr ⟨_, hstep, rfl⟩, rfl, ?_⟩
    simp only [SchedSys.goto, SchedSys.setThread, update_self]
  | succ n ih =>
    have hk : k < NPROC := by omega
    by_cases hpid : (s.proc ⟨k, hk⟩).pid = pid
    · have htarget : killTarget s.proc pid = some ⟨k, hk⟩ :=
        killTarget_eq_some.mpr ⟨hpid, fun p hp => hbefore p hp⟩
      have hstep : s.step (.run c true) = some ((s.setProc ⟨k, hk⟩ (s.proc ⟨k, hk⟩).kill).goto t
          (.user (some (.kill 0)))) := by
        rw [h.step, SchedSys.advance, dif_pos hk]
        dsimp only
        rw [if_pos (h.unlocked _), if_pos hpid]
      unfold kkill
      rw [htarget]
      refine ⟨1, _, TransitionSystem.exec_cons_iff.mpr ⟨_, hstep, rfl⟩, rfl, ?_⟩
      simp only [SchedSys.goto, SchedSys.setThread, update_self]
    · have hstep : s.step (.run c true) = some (s.goto t (.killScan pid (k + 1))) := by
        rw [h.step, SchedSys.advance, dif_pos hk]
        dsimp only
        rw [if_pos (h.unlocked _), if_neg hpid]
      have hnext : KillScanning (s.goto t (.killScan pid (k + 1))) c t pid (k + 1) := by
        refine ⟨h.cpu, ?_, h.unlocked⟩
        simp only [SchedSys.goto, SchedSys.setThread, update_self]
      obtain ⟨m, s', hexec, hproc, hpc⟩ := ih (by omega) hnext (by
        intro q hq
        by_cases hqk : q.val = k
        · have : q = ⟨k, hk⟩ := Fin.ext hqk
          rw [this]
          exact hpid
        · exact hbefore q (by omega))
      exact ⟨m + 1, s', TransitionSystem.exec_cons_iff.mpr ⟨_, hstep, hexec⟩, hproc, hpc⟩

end KillScan

/-! ### What a step does to a process -/

/-- What a step with the event `e` makes of the process in the slot `q`. -/
inductive ProcStep (s : SchedSys C) (e : SchedEvent) (q : Slot) (pr : Proc) : Prop where
  | steady : pr.killed = (s.proc q).killed → pr.pid = (s.proc q).pid →
      (pr.state = .unused → (s.proc q).state = .unused) → ProcStep s e q pr
  | freed : pr = (s.proc q).freeproc → ProcStep s e q pr
  | used : pr.killed = (s.proc q).killed → pr.state = .used → ProcStep s e q pr
  | kill : e = .kill q (s.proc q).pid → s.lock q = none → pr = (s.proc q).kill → ProcStep s e q pr
  | setkilled : e = .setkilled q → (s.proc q).state = .running → pr.state = .running →
      ProcStep s e q pr

theorem ProcStep.refl (s : SchedSys C) (e : SchedEvent) (q : Slot) : ProcStep s e q (s.proc q) :=
  .steady rfl rfl id

/-- A step changes one process. -/
theorem ProcStep.update {s : SchedSys C} {e : SchedEvent} (h : ProcStep s e q pr) (p : Slot) :
  ProcStep s e p (update s.proc q pr p)
  := by
  by_cases hp : p = q
  · subst hp
    rw [update_self]
    exact h
  · rw [update_of_ne hp]
    exact .refl s e p

theorem ProcStep.wakeup (s : SchedSys C) (e : SchedEvent) (q : Slot) (chan : Option Chan) :
  ProcStep s e q ((s.proc q).wakeup chan)
  := by
  unfold Proc.wakeup
  split_ifs with hsleep
  · exact .steady rfl rfl nofun
  · exact .refl s e q

section Steps

variable [DecidableEq C] {s s' : SchedSys C} {e : SchedEvent} {t t₀ np : Slot} {pc : Kpc}

theorem SchedEffect.procStep (he : SchedEffect s e s') (hplaced : Placed s) (q : Slot) :
  ProcStep s e q (s'.proc q)
  := by
  cases he with
  | pick c p k hcpu hlock hstate =>
    have hstep : ProcStep s .other p { s.proc p with state := .running } := .steady rfl rfl nofun
    exact hstep.update q
  | giveUp c t th pr w l hcpu hlock hgives =>
    have hstep : ProcStep s .other t pr := by
      apply ProcStep.steady hgives.killed hgives.pid
      intro hunused
      rcases hgives.state with hst | hst | hst <;> cases hunused.symm.trans hst
    exact hstep.update q
  | resume c t pc pr hcpu hres =>
    have hstep : ProcStep s .other t pr := by
      apply ProcStep.steady hres.killed hres.pid
      rw [hres.state]
      exact id
    exact hstep.update q
  | used c t np pid pid' hcpu htrap hpc =>
    have hstep : ProcStep s .other np { s.proc np with pid, state := .used } := .used rfl rfl
    exact hstep.update q
  | abandon c t np hcpu htrap hbuilds hholds hpc
  | reap c t q' pc w hcpu htrap hquiet hlock hstate => exact ProcStep.update (.freed rfl) q
  | publish c t np name pid hcpu htrap hpc =>
    have hstep : ProcStep s .other np { s.proc np with name } := .steady rfl rfl id
    exact hstep.update q
  | adopt c t q' parent pc hcpu htrap hquiet =>
    have hstep : ProcStep s .other q' { s.proc q' with parent } := .steady rfl rfl id
    exact hstep.update q
  | ready c t np pid hcpu htrap hpc hlock =>
    have hstep : ProcStep s .other np { s.proc np with state := .runnable } :=
      .steady rfl rfl nofun
    exact hstep.update q
  | wakeup c t q' chan pc hcpu htrap hquiet hlock | wake q' chan hlock =>
    exact (ProcStep.wakeup s _ q' chan).update q
  | kill c t q' pid hcpu htrap hquiet hlock hpid =>
    exact ProcStep.update (.kill (by rw [hpid]) hlock rfl) q
  | setkilled c t hcpu htrap hpc hlock =>
    have hrun := (hplaced.running t).mpr ⟨c, hcpu⟩
    have hstep : ProcStep s (.setkilled t) t { s.proc t with killed := true } :=
      .setkilled rfl hrun hrun
    exact hstep.update q
  | _ => exact .refl s _ q

/-- The thread of `t` is setting up the slot `np`, with its lock. -/
def SchedSys.Constructs (s : SchedSys C) (t np : Slot) : Prop :=
  (s.thread t).pc.builds = some np ∧ (s.thread t).pc.holds t np

omit [DecidableEq C] in
theorem SchedSys.Constructs.of_setThread {th : KThread} (h : (s.setThread t₀ th).Constructs t np) :
  t = t₀ ∧ th.pc.builds = some np ∧ th.pc.holds t np ∨ s.Constructs t np
  := by
  unfold Constructs at h
  simp only [setThread] at h
  by_cases ht : t = t₀
  · subst ht
    rw [update_self] at h
    exact Or.inl ⟨rfl, h⟩
  · rw [update_of_ne ht] at h
    exact Or.inr h

omit [DecidableEq C] in
theorem SchedSys.Constructs.of_goto (h : (s.goto t₀ pc).Constructs t np) :
  t = t₀ ∧ pc.builds = some np ∧ pc.holds t np ∨ s.Constructs t np
  := SchedSys.Constructs.of_setThread h

omit [DecidableEq C] in
theorem SchedSys.Constructs.of_quiet
    (h : (s.goto t₀ pc).Constructs t np) (hquiet : Quiet s t₀ (s.thread t₀).pc pc) :
  s.Constructs t np
  := by
  rcases h.of_goto with ⟨rfl, hbuilds, hholds⟩ | h
  · exact ⟨hquiet.builds.symm.trans hbuilds, hquiet.holds np hholds⟩
  · exact h

/-- A thread that sets up a slot after the step has done so before, or has found it. -/
theorem SchedEffect.constructs (he : SchedEffect s e s') {t np : Slot} (h : s'.Constructs t np) :
  s.Constructs t np ∨ e = .other ∧ (s.proc np).state = .unused
  := by
  cases he with
  | interrupt c t₀ hcpu htrap hint =>
    left
    rcases h.of_setThread with ⟨rfl, hbuilds, hholds⟩ | h
    · exact ⟨hbuilds, hholds⟩
    · exact h
  | quiet c t₀ pc w l hcpu htrap hquiet | adopt c t₀ q parent pc hcpu htrap hquiet
  | wakeup c t₀ q chan pc hcpu htrap hquiet hlock
  | reap c t₀ q pc w hcpu htrap hquiet hlock hstate
  | kill c t₀ q pid hcpu htrap hquiet hlock hpid =>
    exact Or.inl (SchedSys.Constructs.of_quiet (s := s) h hquiet)
  | giveUp c t₀ th pr w l hcpu hlock hgives =>
    left
    rcases SchedSys.Constructs.of_setThread (s := s) h with ⟨rfl, hbuilds, hholds⟩ | h
    · rcases hgives.parked with hpark | hpark | hpark | ⟨addr, hpark⟩ | ⟨l, hpark⟩
      · have hpc := (hgives.interruptible (by rw [hpark]; rintro ⟨⟩)).2
        rw [hpc] at hbuilds hholds
        exact ⟨hbuilds, hholds⟩
      all_goals
        rw [hpark] at hbuilds
        cases hbuilds
    · exact h
  | resume c t₀ pc pr hcpu hres =>
    left
    rcases SchedSys.Constructs.of_goto (s := s) h with ⟨rfl, _, hholds⟩ | h
    · exact absurd hholds (hres.released np)
    · exact h
  | alloc c t₀ np₀ k hcpu htrap hpc hlock hstate =>
    rcases SchedSys.Constructs.of_goto (s := s) h with ⟨rfl, ⟨⟩, _⟩ | h
    · exact Or.inr ⟨rfl, hstate⟩
    · exact Or.inl h
  | used c t₀ np₀ pid pid' hcpu htrap hpc =>
    left
    rcases SchedSys.Constructs.of_goto (s := s) h with ⟨rfl, ⟨⟩, _⟩ | h
    · unfold SchedSys.Constructs
      rw [hpc]
      exact ⟨rfl, rfl⟩
    · exact h
  | context c t₀ np₀ hcpu htrap hpc =>
    left
    rcases h.of_goto with ⟨rfl, ⟨⟩, _⟩ | h
    · unfold SchedSys.Constructs
      rw [hpc]
      exact ⟨rfl, rfl⟩
    · rcases h.of_goto with ⟨_, ⟨⟩, _⟩ | h
      exact h
  | abandon c t₀ np₀ hcpu htrap hbuilds hholds hpc | ready c t₀ np₀ pid hcpu htrap hpc hlock
  | setkilled c t₀ hcpu htrap hpc hlock =>
    rcases SchedSys.Constructs.of_goto (s := s) h with ⟨_, ⟨⟩, _⟩ | h
    exact Or.inl h
  | publish c t₀ np₀ name pid hcpu htrap hpc =>
    rcases SchedSys.Constructs.of_goto (s := s) h with ⟨_, _, hholds⟩ | h
    · exact hholds.elim
    · exact Or.inl h
  | _ => exact Or.inl h

end Steps

/-! ### Runs -/

/-- `kkill` does not reach a slot that is not in use. -/
def SchedEvent.NotFree (s : SchedSys C) : SchedEvent → Prop
  | kill q _ => (s.proc q).state ≠ .unused
  | _ => True

instance (s : SchedSys C) : (e : SchedEvent) → Decidable (e.NotFree s)
  | .kill _ _ => inferInstanceAs (Decidable (_ ≠ _))
  | .setkilled _ => .isTrue trivial
  | .other => .isTrue trivial

/-- Slots that are not in use, or hold a process that nobody else has seen, are not marked. -/
structure Innocent (s : SchedSys C) : Prop where
  free : ∀ q, (s.proc q).state = .unused → (s.proc q).killed = false
  child : ∀ t np, s.Constructs t np → (s.proc np).killed = false

section Runs

variable [DecidableEq C] {s s' : SchedSys C} {e : SchedEvent} {as : List (SchedAct C)}

theorem Proc.kill_unused (h : pr.kill.state = .unused) : pr.state = .unused := by
  unfold Proc.kill at h
  dsimp only at h
  split_ifs at h
  exact h

theorem SchedEffect.innocent (he : SchedEffect s e s') (hplaced : Placed s) (hfree : e.NotFree s)
    (h : Innocent s) :
  Innocent s'
  := by
  refine ⟨?_, ?_⟩
  · intro q hq
    cases he.procStep hplaced q with
    | steady hkilled _ hstate => exact hkilled.trans (h.free q (hstate hq))
    | freed hpr =>
      rw [hpr]
      rfl
    | used _ hstate | setkilled _ _ hstate => cases hstate.symm.trans hq
    | kill hevent _ hpr =>
      subst hevent
      rw [hpr] at hq
      exact absurd (Proc.kill_unused hq) hfree
  · intro t np hconstructs
    have hbefore : (s.proc np).killed = false := by
      rcases he.constructs hconstructs with hconstructs | ⟨_, hunused⟩
      · exact h.child t np hconstructs
      · exact h.free np hunused
    cases he.procStep hplaced np with
    | steady hkilled _ _ | used hkilled _ => exact hkilled.trans hbefore
    | freed hpr =>
      rw [hpr]
      rfl
    | kill hevent hlock hpr =>
      -- the thread that sets up the slot has its lock
      rcases he.constructs hconstructs with ⟨hbuilds, hholds⟩ | ⟨hother, _⟩
      · obtain ⟨c, _, hheld⟩ := hplaced.on_cpu_of_builds hbuilds hholds
        cases hheld.symm.trans hlock
      · cases hother.symm.trans hevent
    | setkilled hevent hrun _ =>
      rcases he.constructs hconstructs with ⟨hbuilds, _⟩ | ⟨hother, _⟩
      · exact absurd hrun (hplaced.not_running_of_builds hbuilds)
      · cases hother.symm.trans hevent

/-- A slot that is not in use has the pid `0`. -/
theorem pid_of_unused (hs : (schedSystem C).Reachable s) (q : Slot)
    (hq : (s.proc q).state = .unused) :
  (s.proc q).pid = 0
  := by
  have hinv : Placed s ∧ ∀ q, (s.proc q).state = .unused → (s.proc q).pid = 0 := by
    apply hs.invariant (I := fun s => Placed s ∧ ∀ q, (s.proc q).state = .unused → (s.proc q).pid = 0)
    · rintro s rfl
      refine ⟨Placed.of_boot, ?_⟩
      intro q hq
      by_cases hzero : q = 0
      · subst hzero
        cases hq
      · simp only [SchedSys.boot, update_of_ne hzero]
        rfl
    · rintro s a s' ⟨hplaced, hpid⟩ hstep
      have he := hplaced.step_effect hstep
      refine ⟨he.placed hplaced, ?_⟩
      intro q hq
      cases he.procStep hplaced q with
      | steady _ hsame hstate => exact hsame.trans (hpid q (hstate hq))
      | freed hpr =>
        rw [hpr]
        rfl
      | used _ hstate | setkilled _ _ hstate => cases hstate.symm.trans hq
      | kill _ _ hpr =>
        rw [hpr] at hq ⊢
        exact hpid q (Proc.kill_unused hq)
  exact hinv.2 q hq

omit [DecidableEq C] in
theorem Innocent.of_boot : Innocent (SchedSys.boot (C := C)) := by
  refine ⟨?_, fun t np h => nomatch h.1⟩
  intro q hq
  by_cases hzero : q = 0
  · subst hzero
    cases hq
  · simp only [SchedSys.boot, update_of_ne hzero]
    rfl

theorem innocent_of_exec (hrun : (schedSystem C).exec .boot as = some s)
    (hfree : (schedSystem C).Admissible (fun s a => (a.event s).NotFree s) .boot as) :
  Placed s ∧ Innocent s
  := by
  apply TransitionSystem.exec_invariant (I := fun s => Placed s ∧ Innocent s) _ _ hrun hfree
  · rintro s a s' ⟨hplaced, hinnocent⟩ hok hstep
    have he := hplaced.step_effect hstep
    exact ⟨he.placed hplaced, he.innocent hplaced hok hinnocent⟩
  · exact ⟨Placed.of_boot, Innocent.of_boot⟩

/-- In the run, the process that is in the slot `q` in the end was named by a call of `kkill`
with its pid or by `setkilled`, when it was already allocated. -/
def NamedIn (as : List (SchedAct C)) (q : Slot) : Prop :=
  ∃ bs a cs s₁, as = bs ++ a :: cs ∧ (schedSystem C).exec .boot bs = some s₁
    ∧ (a.event s₁ = .kill q (s₁.proc q).pid ∨ a.event s₁ = .setkilled q)
    ∧ (s₁.proc q).state ≠ .unused
    ∧ ∀ ds es s₂, cs = ds ++ es → (schedSystem C).exec .boot (bs ++ a :: ds) = some s₂ →
        (s₂.proc q).state ≠ .unused

theorem namedIn_of_killed (hrun : (schedSystem C).exec .boot as = some s)
    (hfree : (schedSystem C).Admissible (fun s a => (a.event s).NotFree s) .boot as)
    (hkilled : (s.proc q).killed = true) :
  NamedIn as q
  := by
  have hboot : ¬ ((SchedSys.boot (C := C)).proc q).killed = true := by
    by_cases hzero : q = 0
    · subst hzero
      rintro ⟨⟩
    · simp only [SchedSys.boot, update_of_ne hzero]
      rintro ⟨⟩
  -- the step at which the mark was set that has stayed since
  obtain ⟨bs, a, cs, s₁, rfl, hbs, hnot, hsince⟩ := TransitionSystem.exec_since
    (P := fun s : SchedSys C => (s.proc q).killed = true) hboot hrun hkilled
  have hok := hfree.ok_of_append hbs
  obtain ⟨hplaced, hinnocent⟩ := innocent_of_exec hbs hfree.append_left
  have hafter : ∀ ds es s₂, cs = ds ++ es → (schedSystem C).exec .boot (bs ++ a :: ds) = some s₂ →
      (s₂.proc q).state ≠ .unused := by
    intro ds es s₂ hsplit hds hunused
    have hpart : (schedSystem C).Admissible (fun s a => (a.event s).NotFree s) .boot
        (bs ++ a :: ds) := by
      rw [hsplit, ← List.cons_append, ← List.append_assoc] at hfree
      exact hfree.append_left
    have hclean := (innocent_of_exec hds hpart).2.free q hunused
    cases hclean.symm.trans (hsince ds es s₂ hsplit hds)
  obtain ⟨s₂, hstep⟩ : ∃ s₂, s₁.step a = some s₂ := by
    rw [TransitionSystem.exec_append, hbs] at hrun
    obtain ⟨s₂, hstep, _⟩ := TransitionSystem.exec_cons_iff.mp hrun
    exact ⟨s₂, hstep⟩
  have hmarked : (s₂.proc q).killed = true := by
    apply hsince [] cs s₂ rfl
    rw [TransitionSystem.exec_append, hbs]
    exact TransitionSystem.exec_cons_iff.mpr ⟨s₂, hstep, rfl⟩
  refine ⟨bs, a, cs, s₁, rfl, hbs, ?_⟩
  cases (hplaced.step_effect hstep).procStep hplaced q with
  | steady hsame _ _ | used hsame _ => exact absurd (hsame.symm.trans hmarked) hnot
  | freed hpr =>
    rw [hpr] at hmarked
    cases hmarked
  | kill hevent _ _ =>
    rw [hevent] at hok
    exact ⟨Or.inl hevent, hok, hafter⟩
  | setkilled hevent hstate _ =>
    refine ⟨Or.inr hevent, ?_, hafter⟩
    rw [hstate]
    rintro ⟨⟩

/-- On every table that is reached, `kkill(pid)` does what it should exactly when the slot it
finds holds a process, as it always does when `pid` is not `0`; and the loop of `kkill` computes
this when nobody interferes.  In every run in which `kkill` never reaches a slot that is not in
use, a process that is killed was named by `kkill` or `setkilled` after it was allocated, and
the child that `kfork` sets up is not killed when `kfork` first releases its lock. -/
theorem kill_reaches_target :
  (∀ (s : SchedSys C) pid, (schedSystem C).Reachable s →
      (KillSpec s.proc pid (kkill s.proc pid) ↔ KillsProcess s.proc pid)
        ∧ (pid ≠ 0 → KillsProcess s.proc pid))
    ∧ (∀ (s : SchedSys C) c t pid, KillScanning s c t pid 0 → ∃ m s',
        (schedSystem C).exec s (List.replicate m (.run c true)) = some s'
          ∧ s'.proc = (kkill s.proc pid).2
          ∧ (s'.thread t).pc = .user (some (.kill (kkill s.proc pid).1)))
    ∧ ∀ as (s : SchedSys C), (schedSystem C).exec .boot as = some s →
        (schedSystem C).Admissible (fun s a => (a.event s).NotFree s) .boot as →
        (∀ q, (s.proc q).killed = true → NamedIn as q)
          ∧ ∀ t np, (s.thread t).pc = .forkDup np → (s.proc np).killed = false
  := by
  refine ⟨?_, ?_, ?_⟩
  · intro s pid hs
    refine ⟨killSpec_iff, ?_⟩
    intro hpid q hq
    left
    intro hunused
    have hzero := pid_of_unused hs q hunused
    rw [(killTarget_eq_some.mp hq).1] at hzero
    contradiction
  · intro s c t pid h
    exact h.run NPROC (Nat.zero_add _) (fun q hq => absurd hq (Nat.not_lt_zero _))
  · intro as s hrun hfree
    refine ⟨fun q => namedIn_of_killed hrun hfree, ?_⟩
    intro t np hpc
    apply (innocent_of_exec hrun hfree).2.child t np
    unfold SchedSys.Constructs
    rw [hpc]
    exact ⟨rfl, rfl⟩

end Runs

/-- The first process kills itself. -/
def killSelf : List (SchedAct Unit) :=
  [.sched (), .run () true, .call () (.kill 1), .run () true]

theorem kill_reaches_target_self :
  ∃ s, (schedSystem Unit).exec .boot killSelf = some s ∧ (s.proc 0).killed = true
    ∧ NamedIn killSelf 0
  := by
  have hrun : ((schedSystem Unit).exec .boot killSelf).map (fun s => (s.proc 0).killed)
      = some true := by
    decide
  obtain ⟨s, hs, hkilled⟩ := Option.map_eq_some_iff.mp hrun
  have hfree : (schedSystem Unit).Admissible (fun s a => (a.event s).NotFree s) .boot killSelf := by
    decide
  exact ⟨s, hs, hkilled, (kill_reaches_target.2.2 killSelf s hs hfree).1 0 hkilled⟩

/-- The first process calls `kkill(0)`, and then forks. -/
def killFreeSlot : List (SchedAct Unit) :=
  [.sched (), .run () true, .call () (.kill 0), .run () true, .run () true, .call () .fork]
    ++ List.replicate 9 (.run () true)

/-- `kkill(0)` marks a slot that is not in use, and the child that comes to be there is killed
from the start. -/
theorem free_slot_killed :
  ¬ KillSpec (SchedSys.boot (C := Unit)).proc 0 (kkill (SchedSys.boot (C := Unit)).proc 0)
    ∧ ∃ s, (schedSystem Unit).exec .boot killFreeSlot = some s ∧ (s.proc 1).state = .runnable
      ∧ (s.proc 1).pid = 2 ∧ (s.proc 1).killed = true
  := by
  constructor
  · rw [killSpec_iff]
    intro h
    have htarget : killTarget (SchedSys.boot (C := Unit)).proc 0 = some 1 := by decide
    rcases h 1 htarget with hstate | ⟨hkilled, _⟩
    · exact hstate rfl
    · cases hkilled
  · have hrun : ((schedSystem Unit).exec .boot killFreeSlot).map
        (fun s => ((s.proc 1).state, (s.proc 1).pid, (s.proc 1).killed))
          = some (.runnable, 2, true) := by
      decide
    obtain ⟨s, hs, hfinal⟩ := Option.map_eq_some_iff.mp hrun
    simp only [Prod.mk.injEq] at hfinal
    exact ⟨s, hs, hfinal⟩

end Xv6
