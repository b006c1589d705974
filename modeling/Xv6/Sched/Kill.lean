import Xv6.Sched.Placement

/-!
# Kills and sleeping processes

`kkill` wakes a process that sleeps, and the loops of `kwait`, `piperead`, `pipewrite`,
`consoleread` and `sys_pause` ask `killed` before they sleep.  As `killed` releases `p->lock`
before `sleep` acquires it again, a kill that comes in between is slept through.  If no kill
comes at such a moment, none is.
-/

namespace Xv6

open Function

variable {C : Type}

/-! ### Kills that are slept through -/

/-- A process that is killed does not sleep in one of the loops that ask for it, and is not
about to. -/
def Alert (s : SchedSys C) : Prop :=
  ∀ p, (s.proc p).killed = true →
    (s.thread p).pc.drowsy = false ∧ ((s.proc p).state = .sleeping → (s.thread p).pc.asleep = false)

namespace Alert

variable {s : SchedSys C} {t q : Slot} {th : KThread} {pr : Proc} {pc : Kpc}

variable (h : Alert s)

include h

theorem setProc (hq : pr.killed = true → (s.thread q).pc.drowsy = false
    ∧ (pr.state = .sleeping → (s.thread q).pc.asleep = false)) :
  Alert (s.setProc q pr)
  := by
  intro p hp
  by_cases hpq : p = q
  · subst hpq
    simp only [SchedSys.setProc, update_self] at hp ⊢
    exact hq hp
  · simp only [SchedSys.setProc, update_of_ne hpq] at hp ⊢
    exact h p hp

/-- A process changes, and is not put to sleep or killed by it. -/
theorem setProc_of_imp (hkilled : pr.killed = true → (s.proc q).killed = true)
    (hstate : pr.state = .sleeping → (s.proc q).state = .sleeping) :
  Alert (s.setProc q pr)
  := by
  apply h.setProc
  intro hpr
  obtain ⟨hdrowsy, hasleep⟩ := h q (hkilled hpr)
  exact ⟨hdrowsy, fun hs => hasleep (hstate hs)⟩

theorem setThread (ht : (s.proc t).killed = true →
    th.pc.drowsy = false ∧ ((s.proc t).state = .sleeping → th.pc.asleep = false)) :
  Alert (s.setThread t th)
  := by
  intro p hp
  by_cases hpt : p = t
  · subst hpt
    simp only [SchedSys.setThread, update_self]
    exact ht hp
  · simp only [SchedSys.setThread, update_of_ne hpt]
    exact h p hp

/-- A thread moves, and is not about to sleep then unless it was before. -/
theorem goto (hrun : (s.proc t).state = .running)
    (hdrowsy : pc.drowsy = true → (s.thread t).pc.drowsy = true ∨ (s.proc t).killed = false) :
  Alert (s.goto t pc)
  := by
  apply h.setThread
  intro hkilled
  refine ⟨?_, fun hs => by cases hrun.symm.trans hs⟩
  by_contra hd
  rcases hdrowsy (Bool.eq_true_of_not_eq_false hd) with hwas | halive
  · cases (h t hkilled).1.symm.trans hwas
  · cases hkilled.symm.trans halive

/-- A thread moves to where it is not about to sleep. -/
theorem walk (hrun : (s.proc t).state = .running) (hpc : pc.drowsy = false) :
  Alert (s.goto t pc) :=
  h.goto hrun fun hdrowsy => by cases hpc.symm.trans hdrowsy

theorem wakeup (chan : Option Chan) : Alert (s.setProc q ((s.proc q).wakeup chan)) := by
  apply h.setProc_of_imp <;> unfold Proc.wakeup <;> split_ifs with hs
  · exact id
  · exact id
  · rintro ⟨⟩
  · exact id

end Alert

/-- `kkill` does not reach a process between its question and `sleep`. -/
def SchedEvent.Timely (s : SchedSys C) : SchedEvent → Prop
  | kill q _ => (s.thread q).pc.drowsy = false
  | _ => True

instance (s : SchedSys C) : (e : SchedEvent) → Decidable (e.Timely s)
  | .kill _ _ => inferInstanceAs (Decidable (_ = _))
  | .setkilled _ => .isTrue trivial
  | .other => .isTrue trivial

variable [DecidableEq C]

theorem SchedEffect.alert {s s' : SchedSys C} {e : SchedEvent} (he : SchedEffect s e s')
    (hplaced : Placed s) (htimely : e.Timely s) (h : Alert s) :
  Alert s'
  := by
  have hrun : ∀ {c : C} {t : Slot}, (s.cpu c).pc = .thread t → (s.proc t).state = .running :=
    fun hcpu => (hplaced.running _).mpr ⟨_, hcpu⟩
  cases he with
  | pick c p k hcpu hlock hstate =>
    have hset : Alert (s.setProc p { s.proc p with state := .running }) :=
      h.setProc_of_imp (by exact id) (by simp)
    exact hset
  | scan c k k' hcpu => exact h
  | back c p k hcpu => exact h
  | interrupt c t hcpu htrap hint => exact h.setThread (h t)
  | quiet c t pc w l hcpu htrap hquiet => exact h.goto (hrun hcpu) hquiet.drowsy
  | giveUp c t th pr w l hcpu hlock hgives =>
    intro p hp
    by_cases hpt : p = t
    · subst hpt
      simp only [SchedSys.sched, SchedSys.setCpu, SchedSys.setThread, SchedSys.setProc,
        update_self] at hp ⊢
      rw [hgives.killed] at hp
      have hdrowsy := (h p hp).1
      constructor
      · by_contra hd
        cases hdrowsy.symm.trans (hgives.drowsy (Bool.eq_true_of_not_eq_false hd))
      · intro hsleep
        by_contra hd
        cases hdrowsy.symm.trans (hgives.asleep hsleep (Bool.eq_true_of_not_eq_false hd))
    · simp only [SchedSys.sched, SchedSys.setCpu, SchedSys.setThread, SchedSys.setProc,
        update_of_ne hpt] at hp ⊢
      exact h p hp
  | resume c t pc pr hcpu hres =>
    have hset : Alert (s.setProc t pr) := by
      apply h.setProc_of_imp
      · rw [hres.killed]
        exact id
      · rw [hres.state]
        exact id
    apply hset.goto (t := t)
    · simp only [SchedSys.setProc, update_self]
      exact hres.state.trans (hrun hcpu)
    · intro hd
      exact Or.inl (hres.drowsy hd)
  | alloc c t np k hcpu htrap hpc hlock hstate => exact h.walk (hrun hcpu) rfl
  | used c t np pid pid' hcpu htrap hpc =>
    have hgoto : Alert (s.goto t (.allocTrapframe np)) := h.walk (hrun hcpu) rfl
    exact hgoto.setProc_of_imp (by exact id) (by simp)
  | context c t np hcpu htrap hpc =>
    have hnew : Alert (s.goto np .forkret) := h.setThread (fun _ => ⟨rfl, fun _ => rfl⟩)
    exact hnew.walk (hrun hcpu) rfl
  | abandon c t np hcpu htrap hbuilds hholds hpc =>
    have hgoto : Alert (s.goto t (.user (some (.fork (-1))))) := h.walk (hrun hcpu) rfl
    exact hgoto.setProc_of_imp (by rintro ⟨⟩) (by rintro ⟨⟩)
  | publish c t np name pid hcpu htrap hpc =>
    have hgoto : Alert (s.goto t (.forkParent np pid)) := h.walk (hrun hcpu) rfl
    exact hgoto.setProc_of_imp (by exact id) (by exact id)
  | adopt c t q parent pc hcpu htrap hquiet =>
    have hgoto : Alert (s.goto t pc) := h.goto (hrun hcpu) hquiet.drowsy
    exact hgoto.setProc_of_imp (by exact id) (by exact id)
  | ready c t np pid hcpu htrap hpc hlock =>
    have hgoto : Alert (s.goto t (.user (some (.fork pid)))) := h.walk (hrun hcpu) rfl
    exact hgoto.setProc_of_imp (by exact id) (by simp)
  | wakeup c t q chan pc hcpu htrap hquiet hlock =>
    have hgoto : Alert (s.goto t pc) := h.goto (hrun hcpu) hquiet.drowsy
    exact hgoto.wakeup chan
  | wake q chan hlock => exact h.wakeup chan
  | skip => exact h
  | reap c t q pc w hcpu htrap hquiet hlock hstate =>
    have hgoto : Alert (s.goto t pc) := h.goto (hrun hcpu) hquiet.drowsy
    exact hgoto.setProc_of_imp (by rintro ⟨⟩) (by rintro ⟨⟩)
  | kill c t q pid hcpu htrap hquiet hlock hpid =>
    have hkill : Alert (s.setProc q (s.proc q).kill) := by
      apply h.setProc
      intro _
      refine ⟨htimely, ?_⟩
      -- a sleeping process is woken
      unfold Proc.kill
      dsimp only
      split_ifs with hsleep
      · rintro ⟨⟩
      · intro hs
        contradiction
    apply hkill.setThread
    intro _
    exact ⟨rfl, fun _ => rfl⟩
  | setkilled c t hcpu htrap hpc hlock =>
    have hgoto : Alert (s.goto t (.user none)) := h.walk (hrun hcpu) rfl
    apply hgoto.setProc
    intro _
    simp only [SchedSys.goto, SchedSys.setThread, update_self]
    exact ⟨rfl, fun _ => rfl⟩

/-- In every run in which `kkill` never reaches a process between its question whether it is
killed and `sleep`, no process sleeps in one of the loops of `kwait`, `piperead`,
`pipewrite`, `consoleread` and `sys_pause` while it is killed. -/
theorem kill_wakes {s : SchedSys C} {as : List (SchedAct C)}
    (hrun : (schedSystem C).exec .boot as = some s)
    (htimely : (schedSystem C).Admissible (fun s a => (a.event s).Timely s) .boot as) (p : Slot)
    (hsleep : (s.proc p).state = .sleeping) (hloop : (s.thread p).pc.asleep = true) :
  (s.proc p).killed = false
  := by
  have hinv : Placed s ∧ Alert s := by
    apply TransitionSystem.exec_invariant (I := fun s => Placed s ∧ Alert s) _ _ hrun htimely
    · rintro s a s' ⟨hplaced, halert⟩ hok hstep
      have he := hplaced.step_effect hstep
      exact ⟨he.placed hplaced, he.alert hplaced hok halert⟩
    · exact ⟨Placed.of_boot, fun p _ => ⟨rfl, fun _ => rfl⟩⟩
  by_contra hkilled
  cases hloop.symm.trans ((hinv.2 p (Bool.eq_true_of_not_eq_false hkilled)).2 hsleep)

/-- The first process calls `sys_pause`. -/
def pauseAndSleep : List (SchedAct Unit) :=
  [.sched (), .run () true, .call () (.loop .pause)] ++ List.replicate 4 (.run () true)

theorem kill_wakes_pause :
  ∃ s, (schedSystem Unit).exec .boot pauseAndSleep = some s ∧ (s.proc 0).state = .sleeping
    ∧ (s.thread 0).pc.asleep = true ∧ (s.proc 0).killed = false
  := by
  have hrun : ((schedSystem Unit).exec .boot pauseAndSleep).map
      (fun s => ((s.proc 0).state, (s.thread 0).pc.asleep)) = some (.sleeping, true) := by
    decide
  obtain ⟨s, hs, hfinal⟩ := Option.map_eq_some_iff.mp hrun
  obtain ⟨hsleep, hloop⟩ := Prod.mk.inj hfinal
  have htimely : (schedSystem Unit).Admissible (fun s a => (a.event s).Timely s) .boot
      pauseAndSleep := by
    decide
  exact ⟨s, hs, hsleep, hloop, kill_wakes hs htimely 0 hsleep hloop⟩

/-- The first process forks and waits for its child; the child, on another CPU, kills it when
it has found that it is not killed. -/
def killBeforeSleep : List (SchedAct Bool) :=
  [.sched true, .run true true, .call true .fork] ++ List.replicate 9 (.run true true)
    ++ [.sched false, .sched false, .run false true, .call true (.wait 0)]
    ++ List.replicate 67 (.run true true)
    ++ [.call false (.kill 1), .run false true, .run true true, .sched true]

/-- The process sleeps in `kwait`, is killed, and its lock is free. -/
theorem kill_slept_through :
  ∃ s, (schedSystem Bool).Reachable s ∧ s.lock 0 = none ∧ (s.proc 0).state = .sleeping
    ∧ (s.thread 0).pc = .waitSlept 0 ∧ (s.proc 0).killed = true
  := by
  have hrun : ((schedSystem Bool).exec .boot killBeforeSleep).map
      (fun s => (s.lock 0, (s.proc 0).state, (s.thread 0).pc, (s.proc 0).killed))
        = some (none, .sleeping, .waitSlept 0, true) := by
    decide +kernel
  obtain ⟨s, hs, hfinal⟩ := Option.map_eq_some_iff.mp hrun
  simp only [Prod.mk.injEq] at hfinal
  exact ⟨s, (TransitionSystem.Reachable.init rfl).exec hs, hfinal⟩

end Xv6
