import Xv6.Lib.Mutex
import Xv6.Sched.Effect

/-!
# A process runs on at most one CPU

The thread of a process runs on a CPU exactly while the process is `RUNNING`, and on one CPU
only.  The lock of the process keeps this across `swtch`: the CPU that leaves a thread, or has
just entered it, holds the lock.
-/

namespace Xv6

open Function

variable {C : Type} {s s' : SchedSys C}

/-- The process that `c->proc` points to. -/
def CpuPc.slot : CpuPc → Option Slot
  | scan _ => none
  | thread p | back p => some p

/-- The CPU `c` has the lock of the slot `q`. -/
def SchedSys.Holds (s : SchedSys C) (c : C) (q : Slot) : Prop :=
  match (s.cpu c).pc with
  | .scan _ => False
  | .thread t => (s.thread t).holds t q
  | .back p => q = p

/-- The thread at `pc` sets up the slot of a child in the given state. -/
def Kpc.Builds (pc : Kpc) (np : Slot) (state : ProcState) : Prop :=
  state = .used ∨ pc = .allocPid np ∧ state = .unused

/-- Where the threads are. -/
structure Placed (s : SchedSys C) : Prop where
  cur : ∀ c, (s.cpu c).proc = (s.cpu c).pc.slot
  trapped : ∀ t, (s.thread t).trap ≠ .none → (s.thread t).pc.interruptible = true
  running : ∀ p, (s.proc p).state = .running ↔ ∃ c, (s.cpu c).pc = .thread p
  unique : ∀ c c' p, (s.cpu c).pc.slot = some p → (s.cpu c').pc.slot = some p → c = c'
  held : ∀ c q, s.Holds c q → s.lock q = some c
  away : ∀ p, (∀ c, (s.cpu c).pc ≠ .thread p) → (s.thread p).parked
  built : ∀ t np, (s.thread t).pc.builds = some np → (s.thread t).pc.Builds np (s.proc np).state
  builder : ∀ t t' np, (s.thread t).pc.builds = some np → (s.thread t').pc.builds = some np → t = t'

namespace Placed

variable {s : SchedSys C} {c : C} {t q : Slot} {th : KThread} {pr : Proc} {pc : Kpc}

theorem of_boot : Placed (SchedSys.boot (C := C)) where
  cur _ := rfl
  trapped _ h := absurd rfl h
  running p := by
    simp only [SchedSys.boot]
    exact update_cases p (by simp) (fun _ => by simp [Proc.zero])
  unique _ _ _ h := nomatch h
  held _ _ h := h.elim
  away _ _ := Or.inr (Or.inl rfl)
  built _ _ h := nomatch h
  builder _ _ _ h := nomatch h

section

variable (h : Placed s)

include h

theorem thread_unique {c c' : C} (hc : (s.cpu c).pc = .thread t)
    (hc' : (s.cpu c').pc = .thread t) :
  c = c'
  := h.unique c c' t (congrArg CpuPc.slot hc) (congrArg CpuPc.slot hc')

/-! ### Changes that keep the threads in place -/

theorem setOuter (w : Option C) (l : CondLock → Option C) (pid : ℤ) :
  Placed (s.setOuter w l pid)
  := { h with }

theorem setLock {l : Option C} (hfree : ∀ c, ¬ s.Holds c q) : Placed (s.setLock q l) :=
  { h with
    held := by
      intro c' q' hholds
      refine (update_of_ne ?_ _ _).trans (h.held c' q' hholds)
      rintro rfl
      exact hfree c' hholds }

theorem acquire (hlock : s.lock q = none) : Placed (s.setLock q (some c)) := by
  apply h.setLock
  intro c' hholds
  cases (h.held c' q hholds).symm.trans hlock

/-- A CPU releases a lock that it does not need any more. -/
theorem release (hlock : s.lock q = some c) (hc : ¬ s.Holds c q) : Placed (s.setLock q none) := by
  apply h.setLock
  intro c' hholds
  obtain rfl := Option.some.inj ((h.held c' q hholds).symm.trans hlock)
  exact hc hholds

/-- A process changes, but does not start or stop running. -/
theorem setProc (hstate : pr.state = .running ↔ (s.proc q).state = .running)
    (hbuilt : ∀ t, (s.thread t).pc.builds = some q → (s.thread t).pc.Builds q pr.state) :
  Placed (s.setProc q pr)
  := by
  refine { h with running := fun p => ?_, built := fun t np => ?_ }
  · simp only [SchedSys.setProc]
    exact update_cases p (hstate.trans (h.running q)) (fun _ => h.running p)
  · simp only [SchedSys.setProc]
    exact update_cases np (hbuilt t) (fun _ => h.built t np)

/-- A process changes in its other fields. -/
theorem setProc_of_state (hstate : pr.state = (s.proc q).state) : Placed (s.setProc q pr) := by
  apply h.setProc
  · rw [hstate]
  · intro t ht
    rw [hstate]
    exact h.built t q ht

/-- A thread changes that runs, or is not on a CPU afterwards either. -/
theorem setThread (htrap : th.trap ≠ .none → th.pc.interruptible = true)
    (hheld : ∀ c q, (s.cpu c).pc = .thread t → th.holds t q → s.lock q = some c)
    (haway : (∀ c, (s.cpu c).pc ≠ .thread t) → th.parked)
    (hbuilt : ∀ np, th.pc.builds = some np → th.pc.Builds np (s.proc np).state)
    (hbuilder : ∀ t' np, t' ≠ t → (s.thread t').pc.builds = some np → th.pc.builds ≠ some np) :
  Placed (s.setThread t th)
  := by
  refine { h with
    trapped := fun p => ?_, held := fun c' q' => ?_, away := fun p => ?_, built := fun p np => ?_,
    builder := unique_update (g := fun th : KThread => th.pc.builds) h.builder
      fun t' np ht' hnp hnp' => hbuilder t' np ht' hnp' hnp }
  · simp only [SchedSys.setThread]
    exact update_cases p htrap (fun _ => h.trapped p)
  · have hheld' := h.held c' q'
    unfold SchedSys.Holds at hheld' ⊢
    simp only [SchedSys.setThread]
    cases hpc : (s.cpu c').pc with rw [hpc] at hheld'
    | scan k => exact False.elim
    | back p => exact hheld'
    | thread p =>
      change (update s.thread t th p).holds p q' → _
      revert hpc hheld'
      exact update_cases p (fun _ => hheld c' q') (fun _ hheld' _ => hheld')
  · simp only [SchedSys.setThread]
    exact update_cases p haway (fun _ => h.away p)
  · simp only [SchedSys.setThread]
    exact update_cases p (hbuilt np) (fun _ => h.built p np)

/-- A thread moves on a CPU and sets up nothing new. -/
theorem goto (hcpu : (s.cpu c).pc = .thread t) (hheld : ∀ q, pc.holds t q → s.lock q = some c)
    (hbuilds : ∀ np, pc.builds = some np →
      (s.thread t).pc.builds = some np ∧ pc.Builds np (s.proc np).state) :
  Placed (s.goto t pc)
  := by
  apply h.setThread
  · exact absurd rfl
  · intro c' q hc' hq
    rw [h.thread_unique hc' hcpu]
    exact hheld q hq
  · intro haway
    exact absurd hcpu (haway c)
  · intro np hnp
    exact (hbuilds np hnp).2
  · intro t' np ht' hnp' hnp
    exact ht' (h.builder t' t np hnp' (hbuilds np hnp).1)

/-- A thread moves on to where it has no lock of a process and sets up none. -/
theorem goto_idle (hcpu : (s.cpu c).pc = .thread t) (hholds : ∀ q, ¬ pc.holds t q)
    (hbuilds : pc.builds = none) :
  Placed (s.goto t pc)
  := by
  apply h.goto hcpu
  · exact fun q hq => absurd hq (hholds q)
  · simp [hbuilds]

/-- What the thread on a CPU has the lock of. -/
theorem lock_of_holds (hcpu : (s.cpu c).pc = .thread t)
    (hholds : (s.thread t).holds t q) :
  s.lock q = some c
  := by
  apply h.held
  unfold SchedSys.Holds
  rw [hcpu]
  exact hholds

theorem lock_of_back (hcpu : (s.cpu c).pc = .back t) : s.lock t = some c := by
  apply h.held
  unfold SchedSys.Holds
  rw [hcpu]

/-- A thread that sets up a slot and has its lock. -/
theorem builds_at (hcpu : (s.cpu c).pc = .thread t) (htrap : (s.thread t).trap = .none)
    (hpc : (s.thread t).pc = pc) (hbuilds : pc.builds = some q) (hholds : pc.holds t q) :
  (s.thread t).pc.builds = some q ∧ s.lock q = some c
  := by
  subst hpc
  exact ⟨hbuilds, h.lock_of_holds hcpu (SchedSys.holds_of_pc htrap hholds)⟩

theorem quiet (hcpu : (s.cpu c).pc = .thread t)
    (htrap : (s.thread t).trap = .none) (hquiet : Quiet s t (s.thread t).pc pc) :
  Placed (s.goto t pc)
  := by
  apply h.goto hcpu
  · intro q hq
    exact h.lock_of_holds hcpu (SchedSys.holds_of_pc htrap (hquiet.holds q hq))
  · intro np hnp
    rw [hquiet.builds] at hnp
    refine ⟨hnp, ?_⟩
    rcases h.built t np hnp with hused | ⟨hpc, _⟩
    · exact Or.inl hused
    · exact absurd hpc (hquiet.start np)

/-- Only a slot that is used or unused is set up. -/
theorem not_builds_of_state (hused : (s.proc q).state ≠ .used) (hunused : (s.proc q).state ≠ .unused)
    (t : Slot) :
  (s.thread t).pc.builds ≠ some q
  := fun hbuilds => (h.built t q hbuilds).elim hused (fun hstart => hunused hstart.2)

variable (hbuilds : (s.thread t).pc.builds = some q)

include hbuilds

/-- The slot of a child is not running. -/
theorem not_running_of_builds : (s.proc q).state ≠ .running := by
  intro hrun
  exact h.not_builds_of_state (by simp [hrun]) (by simp [hrun]) t hbuilds

/-- A thread that has the lock of a child's slot is on a CPU. -/
theorem on_cpu_of_builds (hholds : (s.thread t).pc.holds t q) :
  ∃ c, (s.cpu c).pc = .thread t ∧ s.lock q = some c
  := by
  have htrap : (s.thread t).trap = .none := by
    by_contra htrap
    exact Kpc.not_holds_of_interruptible (h.trapped t htrap) t q hholds
  by_contra hnot
  have haway : ∀ c, (s.cpu c).pc ≠ .thread t := by
    intro c hc
    exact hnot ⟨c, hc, h.lock_of_holds hc (SchedSys.holds_of_pc htrap hholds)⟩
  rcases h.away t haway with hpark | hpark | hpark | ⟨addr, hpark⟩ | ⟨l, hpark⟩
  · cases htrap.symm.trans hpark
  all_goals
    rw [hpark] at hbuilds
    cases hbuilds

/-- The slot of a child is in use once it has a pid. -/
theorem used_of_builds (hpc : (s.thread t).pc ≠ .allocPid q) : (s.proc q).state = .used := by
  rcases h.built t q hbuilds with hused | ⟨hstart, _⟩
  · exact hused
  · contradiction

end

theorem not_holds_of_goto (pc : Kpc) (hcpu : (s.cpu c).pc = .thread t) (hpc : ¬ pc.holds t q) :
  ¬ (s.goto t pc).Holds c q
  := by
  unfold SchedSys.Holds SchedSys.goto SchedSys.setThread
  rw [hcpu]
  simp only [update_self]
  exact hpc

/-- A thread has set up a slot, which does not run yet. -/
theorem finish (h : Placed s) (hcpu : (s.cpu c).pc = .thread t)
    (hbuilds : (s.thread t).pc.builds = some q) (hholds : ∀ q, ¬ pc.holds t q)
    (hpc : pc.builds = none) (hstate : pr.state ≠ .running) :
  Placed ((s.goto t pc).setProc q pr)
  := by
  apply (h.goto_idle hcpu hholds hpc).setProc
  · exact iff_of_false hstate (h.not_running_of_builds hbuilds)
  · intro t' ht'
    refine absurd ht' ?_
    simp only [SchedSys.goto, SchedSys.setThread]
    exact update_cases t' (by simp [hpc]) (fun htt ht' => htt (h.builder t' t q ht' hbuilds))

/-- A sleeping process becomes runnable, and a process is killed. -/
theorem setProc_of_sleeping (h : Placed s)
    (hstate : pr.state = (s.proc q).state ∨ (s.proc q).state = .sleeping ∧ pr.state = .runnable) :
  Placed (s.setProc q pr)
  := by
  rcases hstate with hstate | ⟨hsleep, hrunnable⟩
  · exact h.setProc_of_state hstate
  · apply h.setProc
    · simp [hsleep, hrunnable]
    · intro t ht
      exact absurd ht (h.not_builds_of_state (by simp [hsleep]) (by simp [hsleep]) t)

theorem wakeup (h : Placed s) (q : Slot) (chan : Option Chan) :
  Placed (s.setProc q ((s.proc q).wakeup chan))
  := by
  apply h.setProc_of_sleeping
  unfold Proc.wakeup
  split_ifs with hsleep
  · exact Or.inr ⟨hsleep.1, rfl⟩
  · exact Or.inl rfl

theorem kill (h : Placed s) (q : Slot) : Placed (s.setProc q (s.proc q).kill) := by
  apply h.setProc_of_sleeping
  unfold Proc.kill
  dsimp only
  split_ifs with hsleep
  · exact Or.inr ⟨hsleep, rfl⟩
  · exact Or.inl rfl

/-! ### Switches -/

variable [DecidableEq C]

variable (h : Placed s) {k : ℕ}

include h

/-- A CPU moves, and with it the state of processes. -/
theorem move (pc : CpuPc) {proc : Slot → Proc}
    (hrun : ∀ p, (proc p).state = .running
      ↔ pc = .thread p ∨ (s.proc p).state = .running ∧ (s.cpu c).pc ≠ .thread p)
    (hslot : ∀ c' p, c' ≠ c → pc.slot = some p → (s.cpu c').pc.slot ≠ some p)
    (hheld : ∀ q, (s.setCpu c { proc := pc.slot, pc }).Holds c q → s.lock q = some c)
    (haway : ∀ p, (s.cpu c).pc = .thread p → pc ≠ .thread p → (s.thread p).parked)
    (hbuilt : ∀ t np, (s.thread t).pc.builds = some np → (s.thread t).pc.Builds np (proc np).state) :
  Placed { s.setCpu c { proc := pc.slot, pc } with proc }
  := by
  have hself : (s.setCpu c { proc := pc.slot, pc }).cpu c = { proc := pc.slot, pc } := update_self _ _ _
  have hother : ∀ c', c' ≠ c → (s.setCpu c { proc := pc.slot, pc }).cpu c' = s.cpu c' :=
    fun c' hc => update_of_ne hc _ _
  refine ⟨?_, h.trapped, ?_, unique_update (g := fun cpu : Cpu => cpu.pc.slot) h.unique hslot, ?_, ?_,
    hbuilt, h.builder⟩
  · intro c'
    by_cases hc : c' = c
    · rw [hc, hself]
    · rw [hother c' hc, h.cur c']
  · intro p
    rw [hrun, h.running]
    constructor
    · rintro (hpc | ⟨⟨c', hc'⟩, hne⟩)
      · refine ⟨c, ?_⟩
        rw [hself]
        exact hpc
      · refine ⟨c', ?_⟩
        rw [hother c' (by rintro rfl; exact hne hc')]
        exact hc'
    · rintro ⟨c', hc'⟩
      by_cases hc : c' = c
      · rw [hc, hself] at hc'
        exact Or.inl hc'
      · rw [hother c' hc] at hc'
        exact Or.inr ⟨⟨c', hc'⟩, fun hpc => hc (h.thread_unique hc' hpc)⟩
  · intro c' q hholds
    by_cases hc : c' = c
    · subst hc
      exact hheld q hholds
    · apply h.held c' q
      unfold SchedSys.Holds at hholds ⊢
      rwa [hother c' hc] at hholds
  · intro p hp
    by_cases hpc : (s.cpu c).pc = .thread p
    · apply haway p hpc
      have := hp c
      rwa [hself] at this
    · apply h.away
      intro c' hc'
      have := hp c'
      rw [hother c' (by rintro rfl; exact hpc hc')] at this
      exact this hc'

/-- A CPU that is not in a thread goes on with the loop of the scheduler. -/
theorem setScan (hcpu : ∀ p, (s.cpu c).pc ≠ .thread p) :
  Placed (s.setCpu c { proc := none, pc := .scan k })
  := by
  apply h.move (.scan k)
  · simp [hcpu]
  · rintro _ _ _ ⟨⟩
  · intro q hholds
    unfold SchedSys.Holds at hholds
    simp only [SchedSys.setCpu, update_self] at hholds
  · intro p hp
    exact absurd hp (hcpu p)
  · exact h.built

/-- The scheduler switches to the thread of a process whose lock it has. -/
theorem switchIn (hcpu : (s.cpu c).pc = .scan k)
    (hlock : s.lock t = some c) (hstate : (s.proc t).state = .runnable) :
  Placed ((s.setProc t { s.proc t with state := .running }).setCpu c
    { proc := some t, pc := .thread t })
  := by
  have hnone : ∀ c', (s.cpu c').pc ≠ .thread t := by
    intro c' hc'
    cases hstate.symm.trans ((h.running t).mpr ⟨c', hc'⟩)
  apply h.move (.thread t)
  · intro p
    by_cases hp : p = t
    · subst hp
      simp [SchedSys.setProc]
    · simp [SchedSys.setProc, hp, Ne.symm hp, hcpu]
  · -- a CPU that has just left the thread would have the lock
    rintro c' _ hc ⟨⟩ hc'
    cases hpc : (s.cpu c').pc with rw [hpc] at hc'
    | scan k' => cases hc'
    | thread p =>
      cases hc'
      exact hnone c' hpc
    | back p =>
      cases hc'
      exact hc (Option.some.inj ((h.lock_of_back hpc).symm.trans hlock))
  · intro q hholds
    unfold SchedSys.Holds at hholds
    simp only [SchedSys.setCpu, update_self] at hholds
    -- the thread comes back from `swtch`, where it has the lock of its own process only
    rw [(h.away t hnone).holds hholds]
    exact hlock
  · intro p hp
    cases hcpu.symm.trans hp
  · intro t' np hnp
    have hne : np ≠ t := by
      rintro rfl
      exact h.not_builds_of_state (by simp [hstate]) (by simp [hstate]) t' hnp
    simp only [SchedSys.setProc, update_of_ne hne]
    exact h.built t' np hnp

/-- A parked thread with the lock of its process switches to the scheduler. -/
theorem switchOut (pr : Proc) (hcpu : (s.cpu c).pc = .thread t)
    (hlock : s.lock t = some c) (hparked : (s.thread t).parked) (hstate : pr.state ≠ .running) :
  Placed ((s.setProc t pr).setCpu c { s.cpu c with pc := .back t })
  := by
  have hcpu' : { s.cpu c with pc := .back t } = ({ proc := some t, pc := .back t } : Cpu) := by
    simp only [h.cur c, hcpu, CpuPc.slot]
  rw [hcpu']
  apply h.move (.back t)
  · intro p
    by_cases hp : p = t
    · subst hp
      simp [SchedSys.setProc, hstate, hcpu]
    · simp [SchedSys.setProc, hp, Ne.symm hp, hcpu]
  · rintro c' _ hc ⟨⟩ hc'
    exact hc (h.unique c' c t hc' (congrArg CpuPc.slot hcpu))
  · intro q hholds
    unfold SchedSys.Holds at hholds
    simp only [SchedSys.setCpu, update_self] at hholds
    rw [hholds]
    exact hlock
  · intro p hp _
    cases hcpu.symm.trans hp
    exact hparked
  · intro t' np hnp
    have hne : np ≠ t := by
      rintro rfl
      exact h.not_running_of_builds hnp ((h.running np).mpr ⟨c, hcpu⟩)
    simp only [SchedSys.setProc, update_of_ne hne]
    exact h.built t' np hnp

/-- The scheduler has left the thread. -/
theorem leave (hcpu : (s.cpu c).pc = .back t) :
  Placed ((s.setLock t none).setCpu c { proc := none, pc := .scan k })
  := by
  have hlock := h.lock_of_back hcpu
  have hscan : Placed (s.setCpu c { proc := none, pc := .scan k }) := by
    apply h.setScan
    intro p hp
    cases hcpu.symm.trans hp
  apply hscan.release hlock
  unfold SchedSys.Holds SchedSys.setCpu
  simp only [update_self]
  exact id

end Placed

theorem SchedEffect.placed [DecidableEq C] {e : SchedEvent} (he : SchedEffect s e s')
    (h : Placed s) :
  Placed s'
  := by
  cases he with
  | pick c p k hcpu hlock hstate =>
    have hacq := h.acquire (c := c) hlock
    exact hacq.switchIn hcpu (update_self _ _ _) hstate
  | scan c k k' hcpu =>
    have hproc : (s.cpu c).proc = none := by
      rw [h.cur c, hcpu]
      rfl
    have hscan := h.setScan (k := k') (fun p hp => by cases hcpu.symm.trans hp)
    rwa [← hproc] at hscan
  | back c p k hcpu => exact h.leave hcpu
  | interrupt c t hcpu htrap hint =>
    apply h.setThread
    · exact fun _ => hint
    · intro c' q hc' hq
      exact h.lock_of_holds hc' (SchedSys.holds_of_pc htrap hq)
    · intro haway
      exact absurd hcpu (haway c)
    · exact h.built t
    · intro t' np ht' hnp' hnp
      exact ht' (h.builder t' t np hnp' hnp)
  | quiet c t pc w l hcpu htrap hquiet => exact (h.quiet hcpu htrap hquiet).setOuter w l s.nextpid
  | giveUp c t th pr w l hcpu hlock hgives =>
    have hacq := (h.setOuter w l s.nextpid).acquire (c := c) hlock
    have hheld : ((s.setOuter w l s.nextpid).setLock t (some c)).lock t = some c :=
      update_self _ _ _
    have hparked : Placed (((s.setOuter w l s.nextpid).setLock t (some c)).setThread t th) := by
      apply hacq.setThread
      · intro htrap
        obtain ⟨hwas, hpc⟩ := hgives.interruptible htrap
        rw [hpc]
        exact h.trapped t hwas
      · intro c' q hc' hq
        rw [hgives.parked.holds hq, h.thread_unique hc' hcpu]
        exact hheld
      · exact fun _ => hgives.parked
      · intro np hnp
        refine Or.inl (h.used_of_builds (hgives.builds.symm.trans hnp) ?_)
        intro hstart
        rcases hgives.parked with hpark | hpark | hpark | ⟨addr, hpark⟩ | ⟨l, hpark⟩
        · have hwas := (hgives.interruptible (by rw [hpark]; rintro ⟨⟩)).1
          have hint := h.trapped t hwas
          rw [hstart] at hint
          cases hint
        all_goals
          rw [hpark] at hnp
          cases hnp
      · intro t' np ht' hnp' hnp
        rw [hgives.builds] at hnp
        exact ht' (h.builder t' t np hnp' hnp)
    apply hparked.switchOut pr hcpu hheld
    · simp only [SchedSys.setThread, update_self]
      exact hgives.parked
    · rcases hgives.state with hst | hst | hst <;> rw [hst] <;> rintro ⟨⟩
  | resume c t pc pr hcpu hres =>
    have hlock : s.lock t = some c := h.lock_of_holds hcpu hres.holds
    have hmoved : Placed ((s.setProc t pr).goto t pc) := by
      apply (h.setProc_of_state hres.state).goto hcpu
      · intro q hq
        exact absurd hq (hres.released q)
      · intro np hnp
        rw [hres.builds] at hnp
        refine ⟨hnp, ?_⟩
        rcases (h.setProc_of_state hres.state).built t np hnp with hused | ⟨hpc, _⟩
        · exact Or.inl hused
        · exact absurd hpc (hres.start np)
    exact hmoved.release hlock
      (Placed.not_holds_of_goto (s := s.setProc t pr) pc hcpu (hres.released t))
  | alloc c t np k hcpu htrap hpc hlock hstate =>
    have hacq := h.acquire (c := c) hlock
    have hheld : (s.setLock np (some c)).lock np = some c := update_self _ _ _
    apply hacq.setThread
    · exact absurd rfl
    · rintro c' q hc' rfl
      rw [h.thread_unique hc' hcpu]
      exact hheld
    · intro haway
      exact absurd hcpu (haway c)
    · rintro _ ⟨⟩
      exact Or.inr ⟨rfl, hstate⟩
    · rintro t' _ ht' hnp' ⟨⟩
      -- another thread that sets up the slot would have its lock
      rcases h.built t' np hnp' with hused | ⟨hpc', _⟩
      · cases hused.symm.trans hstate
      · obtain ⟨c', _, hlock'⟩ := h.on_cpu_of_builds hnp' (by rw [hpc']; rfl)
        cases hlock.symm.trans hlock'
  | used c t np pid pid' hcpu htrap hpc =>
    obtain ⟨hbuilds, hlock⟩ := h.builds_at hcpu htrap hpc rfl rfl
    have hset : Placed ((s.setOuter s.waitLock s.condLock pid').setProc np
        { s.proc np with pid, state := .used }) := by
      apply (h.setOuter s.waitLock s.condLock pid').setProc
      · exact iff_of_false (by simp) (h.not_running_of_builds hbuilds)
      · exact fun _ _ => Or.inl rfl
    apply hset.goto hcpu
    · rintro q rfl
      exact hlock
    · rintro _ ⟨⟩
      refine ⟨hbuilds, Or.inl ?_⟩
      simp only [SchedSys.setProc, update_self]
  | context c t np hcpu htrap hpc =>
    obtain ⟨hbuilds, hlock⟩ := h.builds_at hcpu htrap hpc rfl rfl
    have hused := h.used_of_builds hbuilds (by rw [hpc]; rintro ⟨⟩)
    have hne : t ≠ np := by
      rintro rfl
      exact h.not_running_of_builds hbuilds ((h.running t).mpr ⟨c, hcpu⟩)
    -- the thread of the child is on no CPU yet
    have hnew : Placed (s.goto np .forkret) := by
      apply h.setThread
      · exact absurd rfl
      · intro c' q hc' _
        cases hused.symm.trans ((h.running np).mpr ⟨c', hc'⟩)
      · exact fun _ => Or.inr (Or.inl rfl)
      · rintro _ ⟨⟩
      · rintro _ _ _ _ ⟨⟩
    apply hnew.goto hcpu
    · rintro q rfl
      exact hlock
    · rintro _ ⟨⟩
      refine ⟨?_, Or.inl hused⟩
      simp only [SchedSys.goto, SchedSys.setThread, update_of_ne hne]
      exact hbuilds
  | abandon c t np hcpu htrap hbuilds hholds hpc =>
    have hlock : s.lock np = some c := h.lock_of_holds hcpu (SchedSys.holds_of_pc htrap hholds)
    have hfreed : Placed ((s.goto t (.user (some (.fork (-1))))).setProc np
        (s.proc np).freeproc) :=
      h.finish hcpu hbuilds (fun _ => id) rfl (by simp [Proc.freeproc])
    exact hfreed.release hlock (Placed.not_holds_of_goto (.user _) hcpu id)
  | publish c t np name pid hcpu htrap hpc =>
    obtain ⟨hbuilds, hlock⟩ := h.builds_at hcpu htrap hpc rfl rfl
    have hused := h.used_of_builds hbuilds (by rw [hpc]; rintro ⟨⟩)
    have hgoto : Placed (s.goto t (.forkParent np pid)) := by
      apply h.goto hcpu
      · exact fun _ => False.elim
      · rintro _ ⟨⟩
        exact ⟨hbuilds, Or.inl hused⟩
    have hmoved : Placed ((s.goto t (.forkParent np pid)).setProc np { s.proc np with name }) :=
      hgoto.setProc_of_state rfl
    exact hmoved.release hlock (Placed.not_holds_of_goto (.forkParent np pid) hcpu id)
  | adopt c t q parent pc hcpu htrap hquiet =>
    exact (h.quiet hcpu htrap hquiet).setProc_of_state rfl
  | ready c t np pid hcpu htrap hpc hlock =>
    exact h.finish hcpu (by rw [hpc]; rfl) (fun _ => id) rfl (by simp)
  | wakeup c t q chan pc hcpu htrap hquiet hlock => exact (h.quiet hcpu htrap hquiet).wakeup q chan
  | wake q chan hlock => exact h.wakeup q chan
  | skip => exact h
  | reap c t q pc w hcpu htrap hquiet hlock hstate =>
    apply ((h.quiet hcpu htrap hquiet).setOuter w s.condLock s.nextpid).setProc
    · exact iff_of_false (by simp [Proc.freeproc]) (fun hrun => by cases hstate.symm.trans hrun)
    · intro t' ht'
      refine absurd ht' ((h.quiet hcpu htrap hquiet).not_builds_of_state ?_ ?_ t')
      · exact fun hused => by cases hstate.symm.trans hused
      · exact fun hunused => by cases hstate.symm.trans hunused
  | kill c t q pid hcpu htrap hquiet hlock hpid => exact (h.quiet hcpu htrap hquiet).kill q
  | setkilled c t hcpu htrap hpc hlock =>
    exact (h.goto_idle hcpu (fun _ => id) rfl).setProc_of_state rfl

/-! ### Runs -/

theorem Placed.step_effect [DecidableEq C] {a : SchedAct C} (h : Placed s)
    (hstep : s.step a = some s') :
  SchedEffect s (a.event s) s'
  := by
  apply SchedSys.step_effect _ h.trapped hstep
  intro c t hcpu
  rw [h.cur c, hcpu]
  rfl

theorem sched_placed [DecidableEq C] {s : SchedSys C} (hs : (schedSystem C).Reachable s) :
  Placed s
  := by
  apply hs.invariant (I := Placed)
  · rintro s rfl
    exact Placed.of_boot
  · intro s a s' h hstep
    exact (h.step_effect hstep).placed h

/-- No two CPUs run the same process; while the lock of a process is free, it is `RUNNING`
exactly when it is the process of one CPU; and a slot whose lock is free and that is unused,
being set up or a zombie is the process of no CPU. -/
theorem process_on_one_cpu [DecidableEq C] {s : SchedSys C} (hs : (schedSystem C).Reachable s) :
  (∀ c c' p, (s.cpu c).proc = some p → (s.cpu c').proc = some p → c = c')
    ∧ (∀ p, s.lock p = none → ((s.proc p).state = .running ↔ ∃! c, (s.cpu c).proc = some p))
    ∧ ∀ p, s.lock p = none →
        ((s.proc p).state = .unused ∨ (s.proc p).state = .used ∨ (s.proc p).state = .zombie) →
        ∀ c, (s.cpu c).proc ≠ some p
  := by
  have h := sched_placed hs
  -- while the lock is free, the process of a CPU is the one whose thread it runs
  have hthread : ∀ p, s.lock p = none → ∀ c, (s.cpu c).proc = some p → (s.cpu c).pc = .thread p := by
    intro p hlock c hproc
    rw [h.cur c] at hproc
    cases hpc : (s.cpu c).pc with
    | scan k =>
      rw [hpc] at hproc
      cases hproc
    | thread t =>
      rw [hpc] at hproc
      cases hproc
      rfl
    | back t =>
      rw [hpc] at hproc
      cases hproc
      cases hlock.symm.trans (h.lock_of_back hpc)
  refine ⟨?_, ?_, ?_⟩
  · intro c c' p hc hc'
    rw [h.cur] at hc hc'
    exact h.unique c c' p hc hc'
  · intro p hlock
    rw [h.running p]
    constructor
    · rintro ⟨c, hc⟩
      refine ⟨c, (h.cur c).trans (congrArg CpuPc.slot hc), ?_⟩
      intro c' hc'
      exact h.thread_unique (hthread p hlock c' hc') hc
    · rintro ⟨c, hc, _⟩
      exact ⟨c, hthread p hlock c hc⟩
  · intro p hlock hstate c hc
    have hrun := (h.running p).mpr ⟨c, hthread p hlock c hc⟩
    rw [hrun] at hstate
    rcases hstate with hst | hst | hst <;> cases hst

/-- The first process runs on one of two CPUs. -/
theorem process_on_one_cpu_first :
  ∃ s, (schedSystem Bool).exec .boot [.sched true, .run true true] = some s ∧ s.lock 0 = none
    ∧ (s.proc 0).state = .running ∧ ∃! c, (s.cpu c).proc = some 0
  := by
  have hrun : ((schedSystem Bool).exec .boot [.sched true, .run true true]).map
      (fun s => (s.lock 0, (s.proc 0).state)) = some (none, .running) := by
    decide
  obtain ⟨s, hs, hfinal⟩ := Option.map_eq_some_iff.mp hrun
  obtain ⟨hlock, hstate⟩ := Prod.mk.inj hfinal
  have hreach : (schedSystem Bool).Reachable s := (TransitionSystem.Reachable.init rfl).exec hs
  exact ⟨s, hs, hlock, hstate, ((process_on_one_cpu hreach).2.1 0 hlock).mp hstate⟩

/-- A thread that no CPU runs is in `swtch`, or new; and a CPU has the locks of processes that its
thread, or the scheduler behind `swtch`, is to release. -/
theorem threads_parked [DecidableEq C] (hs : (schedSystem C).Reachable s) :
  (∀ p, (∀ c, (s.cpu c).pc ≠ .thread p) → (s.thread p).parked)
    ∧ ∀ c q, s.Holds c q → s.lock q = some c
  := by
  have h := sched_placed hs
  exact ⟨h.away, h.held⟩

/-- The first process comes out of `swtch` with its lock. -/
theorem threads_parked_first :
  ∃ s, (schedSystem Unit).Reachable s ∧ s.Holds () 0 ∧ s.lock 0 = some ()
  := by
  have hrun : (schedSystem Unit).exec .boot [.sched ()] = some _ := rfl
  have hr := (TransitionSystem.Reachable.init rfl).exec hrun
  exact ⟨_, hr, rfl, (threads_parked hr).2 () 0 rfl⟩

end Xv6
