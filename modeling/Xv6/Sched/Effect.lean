import Xv6.Sched.System

/-!
# The effect of a step on CPUs and threads

Most steps of a thread only move it: `Quiet` says what such a move keeps.  The other steps
switch between the scheduler and a thread, set up the slot of a child, or change a process
whose lock is free.  `SchedSys.step_effect` lists them, and `SchedAct.event` tells the steps
by which a process is killed.
-/

namespace Xv6

open Function

variable {C : Type} [DecidableEq C] {pc : Kpc}

namespace Kpc

/-- The slot the thread is setting up for a child. -/
def builds : Kpc → Option Slot
  | allocPid np | allocTrapframe np | allocPagetable np | forkCopy np | forkDup np => some np
  | forkParent np _ | forkReady np _ => some np
  | _ => none

/-- The thread of `t` has the lock of the slot `q`. -/
def holds (t q : Slot) : Kpc → Prop
  | allocPid np | allocTrapframe np | allocPagetable np | forkCopy np | forkDup np => q = np
  | forkret | waitSlept _ | loopSlept _ => q = t
  | _ => False

/-- The thread has asked whether its process is killed, and is going to sleep. -/
def drowsy : Kpc → Bool
  | waitSleep _ => true
  | loopFull l | loopWakeup l _ | loopSleep l => l.asks
  | _ => false

/-- The thread sleeps in one of the loops that ask whether its process is killed. -/
def asleep : Kpc → Bool
  | waitSlept _ => true
  | loopSlept l => l.asks
  | _ => false

end Kpc

/-- The thread of `t` has the lock of the slot `q`. -/
def KThread.holds (t q : Slot) (th : KThread) : Prop :=
  if th.trap = .yielded then q = t else th.pc.holds t q

/-- The thread has switched to the scheduler, or is new. -/
def KThread.parked (th : KThread) : Prop :=
  th.trap = .yielded ∨ th.pc = .forkret ∨ th.pc = .exited ∨ (∃ addr, th.pc = .waitSlept addr)
    ∨ ∃ l, th.pc = .loopSlept l

theorem KThread.parked.holds {th : KThread} (h : th.parked) {p q : Slot} (hq : th.holds p q) :
  q = p
  := by
  unfold KThread.holds at hq
  split_ifs at hq with htrap
  · exact hq
  · rcases h with h | h | h | ⟨addr, h⟩ | ⟨l, h⟩
    · contradiction
    all_goals
      rw [h] at hq
      first | exact hq | exact hq.elim

theorem Kpc.not_holds_of_interruptible (h : pc.interruptible = true) (t q : Slot) :
  ¬ pc.holds t q
  := by
  cases pc <;> first | exact id | cases h

/-- How a process is killed. -/
inductive SchedEvent where
  /-- `kkill(pid)` finds the slot `q`. -/
  | kill (q : Slot) (pid : ℤ)
  /-- `setkilled` is called on the process in the slot `q`. -/
  | setkilled (q : Slot)
  | other
  deriving DecidableEq

/-- Whether the next step of a thread kills a process, with `myproc()` being `p`. -/
def Kpc.event (s : SchedSys C) (p : Slot) : Kpc → SchedEvent
  | killScan pid k =>
    if h : k < NPROC then
      if (s.proc ⟨k, h⟩).pid = pid then .kill ⟨k, h⟩ pid else .other
    else .other
  | setkilled => .setkilled p
  | _ => .other

/-- Whether a step kills a process. -/
def SchedAct.event (s : SchedSys C) : SchedAct C → SchedEvent
  | .run c _ =>
    match s.onCpu c with
    | some (t, p) => if (s.thread t).trap = .none then (s.thread t).pc.event s p else .other
    | none => .other
  | _ => .other

/-- A move of the thread of `t` that keeps what it sets up, acquires no lock of a process, and
does not go to sleep without asking. -/
structure Quiet (s : SchedSys C) (t : Slot) (pc pc' : Kpc) : Prop where
  start : ∀ np, pc ≠ .allocPid np
  builds : pc'.builds = pc.builds
  holds : ∀ q, pc'.holds t q → pc.holds t q
  drowsy : pc'.drowsy = true → pc.drowsy = true ∨ (s.proc t).killed = false

/-- What a thread leaves behind when it switches to the scheduler. -/
structure GivesUp (s : SchedSys C) (t : Slot) (th : KThread) (pr : Proc) : Prop where
  state : pr.state = .runnable ∨ pr.state = .sleeping ∨ pr.state = .zombie
  killed : pr.killed = (s.proc t).killed
  pid : pr.pid = (s.proc t).pid
  builds : th.pc.builds = (s.thread t).pc.builds
  parked : th.parked
  interruptible : th.trap ≠ .none → (s.thread t).trap ≠ .none ∧ th.pc = (s.thread t).pc
  drowsy : th.pc.drowsy = true → (s.thread t).pc.drowsy = true
  asleep : pr.state = .sleeping → th.pc.asleep = true → (s.thread t).pc.drowsy = true

/-- What a thread finds that was switched to. -/
structure Resumes (s : SchedSys C) (t : Slot) (pc : Kpc) (pr : Proc) : Prop where
  state : pr.state = (s.proc t).state
  killed : pr.killed = (s.proc t).killed
  pid : pr.pid = (s.proc t).pid
  start : ∀ np, (s.thread t).pc ≠ .allocPid np
  holds : (s.thread t).holds t t
  builds : pc.builds = (s.thread t).pc.builds
  released : ∀ q, ¬ pc.holds t q
  drowsy : pc.drowsy = true → (s.thread t).pc.drowsy = true

namespace SchedSys

/-- Locks other than those of the processes, and the next pid. -/
def setOuter (s : SchedSys C) (w : Option C) (l : CondLock → Option C) (pid : ℤ) : SchedSys C :=
  { s with waitLock := w, condLock := l, nextpid := pid }

end SchedSys

/-- What the steps do. -/
inductive SchedEffect (s : SchedSys C) : SchedEvent → SchedSys C → Prop where
  /-- `scheduler` switches to a thread. -/
  | pick (c : C) (p : Slot) (k : ℕ) : (s.cpu c).pc = .scan k → s.lock p = none →
      (s.proc p).state = .runnable → SchedEffect s .other
        (((s.setProc p { s.proc p with state := .running }).setLock p (some c)).setCpu c
          { proc := some p, pc := .thread p })
  | scan (c : C) (k k' : ℕ) : (s.cpu c).pc = .scan k →
      SchedEffect s .other (s.setCpu c { s.cpu c with pc := .scan k' })
  | back (c : C) (p : Slot) (k : ℕ) : (s.cpu c).pc = .back p →
      SchedEffect s .other ((s.setLock p none).setCpu c { proc := none, pc := .scan k })
  | interrupt (c : C) (t : Slot) : (s.cpu c).pc = .thread t → (s.thread t).trap = .none →
      (s.thread t).pc.interruptible = true →
      SchedEffect s .other (s.setThread t { s.thread t with trap := .yield })
  | quiet (c : C) (t : Slot) (pc : Kpc) (w : Option C) (l : CondLock → Option C) :
      (s.cpu c).pc = .thread t → (s.thread t).trap = .none → Quiet s t (s.thread t).pc pc →
      SchedEffect s .other ((s.setOuter w l s.nextpid).goto t pc)
  | giveUp (c : C) (t : Slot) (th : KThread) (pr : Proc) (w : Option C) (l : CondLock → Option C) :
      (s.cpu c).pc = .thread t → s.lock t = none → GivesUp s t th pr → SchedEffect s .other
        ((((s.setOuter w l s.nextpid).setLock t (some c)).setProc t pr).sched c t th)
  | resume (c : C) (t : Slot) (pc : Kpc) (pr : Proc) : (s.cpu c).pc = .thread t →
      Resumes s t pc pr → SchedEffect s .other (((s.setProc t pr).setLock t none).goto t pc)
  /-- `allocproc` finds a slot. -/
  | alloc (c : C) (t np : Slot) (k : ℕ) : (s.cpu c).pc = .thread t → (s.thread t).trap = .none →
      (s.thread t).pc = .allocScan k → s.lock np = none → (s.proc np).state = .unused →
      SchedEffect s .other ((s.setLock np (some c)).goto t (.allocPid np))
  | used (c : C) (t np : Slot) (pid pid' : ℤ) : (s.cpu c).pc = .thread t →
      (s.thread t).trap = .none → (s.thread t).pc = .allocPid np →
      SchedEffect s .other (((s.setOuter s.waitLock s.condLock pid').setProc np
        { s.proc np with pid, state := .used }).goto t (.allocTrapframe np))
  | context (c : C) (t np : Slot) : (s.cpu c).pc = .thread t → (s.thread t).trap = .none →
      (s.thread t).pc = .allocPagetable np →
      SchedEffect s .other ((s.goto np .forkret).goto t (.forkCopy np))
  | abandon (c : C) (t np : Slot) : (s.cpu c).pc = .thread t → (s.thread t).trap = .none →
      (s.thread t).pc.builds = some np → (s.thread t).pc.holds t np → (s.thread t).pc ≠ .allocPid np →
      SchedEffect s .other (s.abandon t np)
  | publish (c : C) (t np : Slot) (name : List UInt8) (pid : ℤ) : (s.cpu c).pc = .thread t →
      (s.thread t).trap = .none → (s.thread t).pc = .forkDup np → SchedEffect s .other
        (((s.setProc np { s.proc np with name }).setLock np none).goto t (.forkParent np pid))
  | adopt (c : C) (t q : Slot) (parent : Option Slot) (pc : Kpc) : (s.cpu c).pc = .thread t →
      (s.thread t).trap = .none → Quiet s t (s.thread t).pc pc →
      SchedEffect s .other ((s.setProc q { s.proc q with parent }).goto t pc)
  | ready (c : C) (t np : Slot) (pid : ℤ) : (s.cpu c).pc = .thread t →
      (s.thread t).trap = .none → (s.thread t).pc = .forkReady np pid → s.lock np = none →
      SchedEffect s .other ((s.setProc np { s.proc np with state := .runnable }).goto t
        (.user (some (.fork pid))))
  | wakeup (c : C) (t q : Slot) (chan : Option Chan) (pc : Kpc) : (s.cpu c).pc = .thread t →
      (s.thread t).trap = .none → Quiet s t (s.thread t).pc pc → s.lock q = none →
      SchedEffect s .other ((s.setProc q ((s.proc q).wakeup chan)).goto t pc)
  /-- An iteration of `wakeup` in another part of the kernel. -/
  | wake (q : Slot) (chan : Option Chan) : s.lock q = none →
      SchedEffect s .other (s.setProc q ((s.proc q).wakeup chan))
  | skip : SchedEffect s .other s
  | reap (c : C) (t q : Slot) (pc : Kpc) (w : Option C) : (s.cpu c).pc = .thread t →
      (s.thread t).trap = .none → Quiet s t (s.thread t).pc pc → s.lock q = none →
      (s.proc q).state = .zombie → SchedEffect s .other
        (((s.setOuter w s.condLock s.nextpid).setProc q (s.proc q).freeproc).goto t pc)
  | kill (c : C) (t q : Slot) (pid : ℤ) : (s.cpu c).pc = .thread t → (s.thread t).trap = .none →
      Quiet s t (s.thread t).pc (.user (some (.kill 0))) → s.lock q = none →
      (s.proc q).pid = pid → SchedEffect s (.kill q pid)
        ((s.setProc q (s.proc q).kill).goto t (.user (some (.kill 0))))
  | setkilled (c : C) (t : Slot) : (s.cpu c).pc = .thread t → (s.thread t).trap = .none →
      (s.thread t).pc = .setkilled → s.lock t = none → SchedEffect s (.setkilled t)
        ((s.setProc t { s.proc t with killed := true }).goto t (.user none))

namespace SchedSys

variable {s s' : SchedSys C} {c : C} {t p : Slot} {l : CondLock → Option C} {ok : Bool}
  {chan : Option Chan} {w : Option C}

/-- The scheduler's steps. -/
theorem scheduler_effect (h : s.scheduler c = some s') : SchedEffect s .other s' := by
  unfold scheduler at h
  split at h
  next k hpc =>
      dsimp only at h
      split_ifs at h with hk hlock hstate
      · cases h
        exact .pick c _ k hpc hlock hstate
      · cases h
        exact .scan c k _ hpc
      · cases h
        exact .scan c k _ hpc
  next p hpc =>
      cases h
      exact .back c p _ hpc
  next => cases h

omit [DecidableEq C] in
theorem setProc_self (s : SchedSys C) (p : Slot) : s.setProc p (s.proc p) = s := by
  unfold setProc
  rw [update_eq_self]

omit [DecidableEq C] in
/-- A move between places that build nothing, hold no lock, and do not go to sleep. -/
theorem quiet_of_idle {pc pc' : Kpc} (hbuilds : pc.builds = none) (hbuilds' : pc'.builds = none)
    (hholds : ∀ q, ¬ pc'.holds t q) (hdrowsy : pc'.drowsy = false) :
  Quiet s t pc pc'
  := by
  refine ⟨?_, hbuilds'.trans hbuilds.symm, fun q hq => absurd hq (hholds q), ?_⟩
  · rintro np rfl
    cases hbuilds
  · intro h
    cases hdrowsy.symm.trans h

/-- A move of a thread that changes no process. -/
theorem quiet_effect (hcpu : (s.cpu c).pc = .thread t) (htrap : (s.thread t).trap = .none)
    (hquiet : Quiet s t (s.thread t).pc pc) (h : some ((s.setOuter w l s.nextpid).goto t pc) = some s') :
  SchedEffect s .other s'
  := by
  cases h
  exact .quiet c t pc w l hcpu htrap hquiet

/-- A move of a thread that takes and releases no lock. -/
theorem stay_effect (hcpu : (s.cpu c).pc = .thread t) (htrap : (s.thread t).trap = .none)
    (hquiet : Quiet s t (s.thread t).pc pc) (h : some (s.goto t pc) = some s') :
  SchedEffect s .other s'
  := quiet_effect (w := s.waitLock) (l := s.condLock) hcpu htrap hquiet h

theorem wakeupLoop_effect {j : ℕ} {next done : Kpc}
    (hcpu : (s.cpu c).pc = .thread t) (htrap : (s.thread t).trap = .none)
    (hnext : Quiet s t (s.thread t).pc next) (hdone : Quiet s t (s.thread t).pc done)
    (h : s.wakeupLoop c t chan j next done = some s') :
  SchedEffect s .other s'
  := by
  unfold wakeupLoop at h
  split_ifs at h with hj
  · obtain ⟨s₁, hs₁, rfl⟩ := Option.map_eq_some_iff.mp h
    unfold wakeupAt at hs₁
    split_ifs at hs₁ with hself hlock
    · cases hs₁
      exact .quiet c t next s.waitLock s.condLock hcpu htrap hnext
    · cases hs₁
      exact .wakeup c t _ chan next hcpu htrap hnext hlock
  · exact stay_effect hcpu htrap hdone h

/-- `sleep` gives up the CPU. -/
theorem sleep_effect {chan : Chan}
    (hcpu : (s.cpu c).pc = .thread t) (hbuilds : pc.builds = (s.thread t).pc.builds)
    (hparked : { pc, trap := .none : KThread }.parked) (hdrowsy : pc.drowsy = false)
    (hasleep : pc.asleep = true → (s.thread t).pc.drowsy = true)
    (h : (s.setOuter w l s.nextpid).sleep c t t chan pc = some s') :
  SchedEffect s .other s'
  := by
  unfold sleep at h
  split_ifs at h with hlock
  cases h
  refine .giveUp c t _ _ w l hcpu hlock
    ⟨Or.inr (Or.inl rfl), rfl, rfl, hbuilds, hparked, nofun, ?_, fun _ => hasleep⟩
  intro hd
  cases hdrowsy.symm.trans hd

/-- A thread that was switched to releases the lock of its process. -/
theorem resume_effect (hcpu : (s.cpu c).pc = .thread t)
    (hstart : ∀ np, (s.thread t).pc ≠ .allocPid np) (hholds : (s.thread t).holds t t)
    (hbuilds : pc.builds = (s.thread t).pc.builds) (hreleased : ∀ q, ¬ pc.holds t q)
    (hdrowsy : pc.drowsy = true → (s.thread t).pc.drowsy = true)
    (h : some (((s.setProc t { s.proc t with chan }).setLock t none).goto t pc) = some s') :
  SchedEffect s .other s'
  := by
  cases h
  exact .resume c t pc _ hcpu ⟨rfl, rfl, rfl, hstart, hholds, hbuilds, hreleased, hdrowsy⟩

omit [DecidableEq C] in
theorem holds_of_pc (htrap : (s.thread t).trap = .none) {q : Slot} (h : (s.thread t).pc.holds t q) :
  (s.thread t).holds t q
  := by
  unfold KThread.holds
  rw [htrap]
  exact h

theorem waitAt_effect {i : Slot} {addr : UInt64} {k : ℕ} {havekids ok : Bool}
    (hcpu : (s.cpu c).pc = .thread t) (htrap : (s.thread t).trap = .none)
    (hpc : (s.thread t).pc = .waitScan addr k havekids) (h : s.waitAt t t i addr havekids ok = some s') :
  SchedEffect s .other s'
  := by
  have hquiet : ∀ pc : Kpc, pc.builds = none → (∀ q, ¬ pc.holds t q) → pc.drowsy = false →
      Quiet s t (s.thread t).pc pc := by
    rw [hpc]
    intro pc
    exact quiet_of_idle rfl
  unfold waitAt at h
  split_ifs at h with hparent hlock hzombie hcopy
  · exact quiet_effect (w := none) (l := s.condLock) hcpu htrap (hquiet _ rfl (fun _ => id) rfl) h
  · cases h
    exact .reap c t i _ none hcpu htrap (hquiet _ rfl (fun _ => id) rfl) hlock hzombie
  · exact stay_effect hcpu htrap (hquiet _ rfl (fun _ => id) rfl) h
  · exact stay_effect hcpu htrap (hquiet _ rfl (fun _ => id) rfl) h

/-- The step of a thread outside of an interrupt. -/
theorem advance_effect (hcpu : (s.cpu c).pc = .thread t)
    (htrap : (s.thread t).trap = .none) (h : s.advance c t t ok (s.thread t).pc = some s') :
  SchedEffect s ((s.thread t).pc.event s t) s'
  := by
  -- a move from a place where the thread builds nothing
  have hidle : ∀ {pc pc' : Kpc}, (s.thread t).pc = pc → pc.builds = none → pc'.builds = none →
      (∀ q, ¬ pc'.holds t q) → pc'.drowsy = false → Quiet s t (s.thread t).pc pc' := by
    intro pc pc' hpc
    rw [hpc]
    exact quiet_of_idle
  cases hpc : (s.thread t).pc with rw [hpc, advance] at h
  | user r | exited =>
    cases h
  | forkret =>
    rw [← s.setProc_self t] at h
    exact resume_effect hcpu (by rw [hpc]; rintro np ⟨⟩) (holds_of_pc htrap (by rw [hpc]; rfl))
      (by rw [hpc]; rfl) (fun _ => id) (by rintro ⟨⟩) h
  | allocScan k =>
    dsimp only at h
    split_ifs at h with hk hlock hstate
    · cases h
      exact .alloc c t _ k hcpu htrap hpc hlock hstate
    · exact stay_effect hcpu htrap (hidle hpc rfl rfl (fun _ => id) rfl) h
    · exact stay_effect hcpu htrap (hidle hpc rfl rfl (fun _ => id) rfl) h
  | allocPid np =>
    cases h
    exact .used c t np s.nextpid (intSucc s.nextpid) hcpu htrap hpc
  | allocTrapframe np | forkCopy np =>
    split_ifs at h
    · apply stay_effect hcpu htrap _ h
      rw [hpc]
      exact ⟨nofun, rfl, fun _ => id, nofun⟩
    · cases h
      apply SchedEffect.abandon c t np hcpu htrap <;> rw [hpc]
      · rfl
      · rfl
      · rintro ⟨⟩
  | allocPagetable np =>
    split_ifs at h
    · cases h
      exact .context c t np hcpu htrap hpc
    · cases h
      apply SchedEffect.abandon c t np hcpu htrap <;> rw [hpc]
      · rfl
      · rfl
      · rintro ⟨⟩
  | forkDup np =>
    cases h
    exact .publish c t np _ _ hcpu htrap hpc
  | forkParent np pid =>
    split_ifs at h
    cases h
    apply SchedEffect.adopt c t np (some t) _ hcpu htrap
    rw [hpc]
    exact ⟨nofun, rfl, fun _ => id, nofun⟩
  | forkReady np pid =>
    split_ifs at h with hlock
    cases h
    exact .ready c t np pid hcpu htrap hpc hlock
  | exitWait status | waitWait addr =>
    split_ifs at h
    exact quiet_effect (w := some c) (l := s.condLock) hcpu htrap
      (hidle hpc rfl rfl (fun _ => id) rfl) h
  | reparent status k =>
    dsimp only at h
    split_ifs at h with hk hparent
    · cases h
      exact .adopt c t _ (some s.initproc) _ hcpu htrap (hidle hpc rfl rfl (fun _ => id) rfl)
    · exact stay_effect hcpu htrap (hidle hpc rfl rfl (fun _ => id) rfl) h
    · exact stay_effect hcpu htrap (hidle hpc rfl rfl (fun _ => id) rfl) h
  | reparentWakeup status k j | exitWakeup status chan j =>
    exact wakeupLoop_effect hcpu htrap (hidle hpc rfl rfl (fun _ => id) rfl)
      (hidle hpc rfl rfl (fun _ => id) rfl) h
  | exitZombie status =>
    split_ifs at h with hlock
    cases h
    refine .giveUp c t _ _ none s.condLock hcpu hlock
      ⟨Or.inr (Or.inr rfl), rfl, rfl, ?_, Or.inr (Or.inr (Or.inl rfl)), nofun, nofun, nofun⟩
    rw [hpc]
    rfl
  | waitScan addr k havekids =>
    split_ifs at h with hk hkids
    · exact waitAt_effect hcpu htrap hpc h
    · exact quiet_effect (w := none) (l := s.condLock) hcpu htrap
        (hidle hpc rfl rfl (fun _ => id) rfl) h
    · exact stay_effect hcpu htrap (hidle hpc rfl rfl (fun _ => id) rfl) h
  | waitKilled addr =>
    split_ifs at h with hlock hkilled
    · exact quiet_effect (w := none) (l := s.condLock) hcpu htrap
        (hidle hpc rfl rfl (fun _ => id) rfl) h
    · apply stay_effect hcpu htrap _ h
      rw [hpc]
      exact ⟨nofun, rfl, fun _ => id, fun _ => Or.inr (Bool.eq_false_of_not_eq_true hkilled)⟩
  | waitSleep addr =>
    exact sleep_effect (w := none) (l := s.condLock) hcpu (by rw [hpc]; rfl)
      (.inr (.inr (.inr (.inl ⟨addr, rfl⟩)))) rfl (fun _ => by rw [hpc]; rfl) h
  | waitSlept addr | loopSlept l =>
    exact resume_effect hcpu (by rw [hpc]; rintro np ⟨⟩) (holds_of_pc htrap (by rw [hpc]; rfl))
      (by rw [hpc]; rfl) (fun _ => id) (by rintro ⟨⟩) h
  | loopLock l =>
    split_ifs at h
    exact quiet_effect (w := s.waitLock) (l := update s.condLock l.lock (some c)) hcpu
      htrap (hidle hpc rfl rfl (fun _ => id) rfl) h
  | loopTest l =>
    split_ifs at h with hok hasks
    · exact quiet_effect (w := s.waitLock) (l := update s.condLock l.lock none) hcpu
        htrap (hidle hpc rfl rfl (fun _ => id) rfl) h
    · exact stay_effect hcpu htrap (hidle hpc rfl rfl (fun _ => id) rfl) h
    · have hquiet : Quiet s t (s.thread t).pc (.loopSleep l) :=
        hidle hpc rfl rfl (fun _ => id) (Bool.eq_false_of_not_eq_true hasks)
      exact stay_effect hcpu htrap hquiet h
  | loopKilled l =>
    split_ifs at h with hlock hkilled
    · exact quiet_effect (w := s.waitLock) (l := update s.condLock l.lock none) hcpu
        htrap (hidle hpc rfl rfl (fun _ => id) rfl) h
    · apply stay_effect hcpu htrap _ h
      rw [hpc]
      have halive := Bool.eq_false_of_not_eq_true hkilled
      cases l <;> exact ⟨nofun, rfl, fun _ => id, fun _ => Or.inr halive⟩
  | loopFull l =>
    apply stay_effect hcpu htrap _ h
    rw [hpc]
    cases ok
    · exact ⟨nofun, rfl, fun _ => id, nofun⟩
    · exact ⟨nofun, rfl, fun _ => id, Or.inl⟩
  | loopWakeup l j =>
    apply wakeupLoop_effect hcpu htrap _ _ h <;> rw [hpc] <;> exact ⟨nofun, rfl, fun _ => id, Or.inl⟩
  | loopSleep l =>
    exact sleep_effect (w := s.waitLock) (l := update s.condLock l.lock none) hcpu
      (by rw [hpc]; rfl) (.inr (.inr (.inr (.inr ⟨l, rfl⟩)))) rfl
      (fun hasks => by rw [hpc]; exact hasks) h
  | killScan pid k =>
    unfold Kpc.event
    dsimp only at h ⊢
    split_ifs at h ⊢ with hk hpid hlock
    · cases h
      exact .kill c t _ pid hcpu htrap (hidle hpc rfl rfl (fun _ => id) rfl) hlock hpid
    · exact stay_effect hcpu htrap (hidle hpc rfl rfl (fun _ => id) rfl) h
    · exact stay_effect hcpu htrap (hidle hpc rfl rfl (fun _ => id) rfl) h
  | setkilled =>
    split_ifs at h with hlock
    cases h
    exact .setkilled c t hcpu htrap hpc hlock

/-- The step of a thread. -/
theorem runThread_effect (hcpu : (s.cpu c).pc = .thread t)
    (htrapped : (s.thread t).trap ≠ .none → (s.thread t).pc.interruptible = true)
    (h : s.runThread c t t ok = some s') :
  SchedEffect s (if (s.thread t).trap = .none then (s.thread t).pc.event s t else .other) s'
  := by
  unfold runThread at h
  cases htrap : (s.thread t).trap with
  | none =>
    rw [htrap] at h
    exact advance_effect hcpu htrap h
  | yield =>
    rw [htrap] at h
    change s.yield c t t = some s' at h
    unfold yield at h
    split_ifs at h with hlock
    cases h
    refine .giveUp c t _ _ s.waitLock s.condLock hcpu hlock
      ⟨Or.inl rfl, rfl, rfl, rfl, Or.inl rfl, fun _ => ⟨?_, rfl⟩, id, nofun⟩
    rw [htrap]
    rintro ⟨⟩
  | yielded =>
    rw [htrap] at h
    change some ((s.setLock t none).goto t (s.thread t).pc) = some s' at h
    rw [← s.setProc_self t] at h
    have hint := htrapped (by rw [htrap]; exact nofun)
    apply resume_effect hcpu _ _ rfl _ id h
    · intro np hpc
      rw [hpc] at hint
      cases hint
    · unfold KThread.holds
      rw [if_pos htrap]
    · exact Kpc.not_holds_of_interruptible hint t

theorem enter_effect {r : Option Ret} {call : SchedCall} (hcpu : (s.cpu c).pc = .thread t)
    (htrap : (s.thread t).trap = .none) (hpc : (s.thread t).pc = .user r)
    (h : s.enter t t call = some s') :
  SchedEffect s .other s'
  := by
  have hquiet : ∀ pc : Kpc, pc.builds = none → (∀ q, ¬ pc.holds t q) → pc.drowsy = false →
      some (s.goto t pc) = some s' → SchedEffect s .other s' := by
    intro pc hbuilds hholds hdrowsy hs'
    apply stay_effect hcpu htrap _ hs'
    rw [hpc]
    exact quiet_of_idle rfl hbuilds hholds hdrowsy
  cases call with
  | exit status =>
    rw [enter] at h
    split_ifs at h
    exact hquiet _ rfl (fun _ => id) rfl h
  | _ => exact hquiet _ rfl (fun _ => id) rfl h

omit [DecidableEq C] in
theorem onCpu_eq_some (h : s.onCpu c = some (t, p)) :
  (s.cpu c).pc = .thread t ∧ (s.cpu c).proc = some p
  := by
  unfold onCpu at h
  split at h
  next p' t' hcpu =>
      cases h
      rw [hcpu]
      exact ⟨rfl, rfl⟩
  next => cases h

omit [DecidableEq C] in
theorem event_run (h : s.onCpu c = some (t, p)) :
  SchedAct.event s (.run c ok)
    = if (s.thread t).trap = .none then (s.thread t).pc.event s p else .other
  := by
  simp only [SchedAct.event, h]

/-- Every step has one of the effects, when `c->proc` is the process whose thread runs and
no thread is interrupted while it has a lock. -/
theorem step_effect {a : SchedAct C}
    (hcur : ∀ c t, (s.cpu c).pc = .thread t → (s.cpu c).proc = some t)
    (htrapped : ∀ t, (s.thread t).trap ≠ .none → (s.thread t).pc.interruptible = true)
    (h : s.step a = some s') :
  SchedEffect s (a.event s) s'
  := by
  have hon : ∀ {c : C} {t p : Slot}, s.onCpu c = some (t, p) → (s.cpu c).pc = .thread t ∧ p = t := by
    intro c t p hcpu
    obtain ⟨hpc, hproc⟩ := onCpu_eq_some hcpu
    refine ⟨hpc, ?_⟩
    rw [hcur c t hpc] at hproc
    exact (Option.some.inj hproc).symm
  cases a with
  | sched c => exact scheduler_effect h
  | call c call =>
    rw [step] at h
    split at h
    next t p hcpu =>
        obtain ⟨hpc, rfl⟩ := hon hcpu
        split at h
        next r hth =>
            exact enter_effect hpc (congrArg KThread.trap hth) (congrArg KThread.pc hth) h
        next => cases h
    next => cases h
  | run c ok =>
    rw [step] at h
    cases hcpu : s.onCpu c with
    | none =>
      rw [hcpu] at h
      cases h
    | some tp =>
      obtain ⟨t, p⟩ := tp
      rw [hcpu] at h
      obtain ⟨hpc, rfl⟩ := hon hcpu
      rw [event_run hcpu]
      exact runThread_effect hpc (htrapped p) h
  | timer c =>
    rw [step] at h
    split at h
    next t p hcpu =>
        obtain ⟨hpc, rfl⟩ := hon hcpu
        split_ifs at h with htrap
        cases h
        exact .interrupt c p hpc htrap.1 htrap.2
    next => cases h
  | wake c chan j =>
    rw [step, wakeupAt] at h
    split_ifs at h with hself hlock
    · cases h
      exact .skip
    · cases h
      exact .wake j _ hlock

end SchedSys

end Xv6
