import Xv6.Proc.Step

/-!
# The effect of a step

The lineage of the processes, their pids and the locks are the view of a state.  Every
step moves one thread and changes the view in one of a dozen ways (`step_effect`).  What a
thread may rely on at each place of a system call is its local assertion; the effect of a
step says what becomes of the assertion of the thread that takes it.
-/

namespace Xv6

open Function

/-- What the steps do to the process table and its locks, apart from scheduling. -/
@[ext]
structure View where
  lineage : Lineage Slot
  pid : Slot → ℤ
  waitLock : Option Slot
  lock : Slot → Option Slot
  nextpid : ℤ
  allocated : ℕ

/-- The view of a state. -/
def Sys.view (s : Sys) : View where
  lineage :=
    { kind := fun i => (s.proc i).state.kind
      parent := fun i => (s.proc i).parent
      root := s.initproc }
  pid := fun i => (s.proc i).pid
  waitLock := s.waitLock
  lock := s.lock
  nextpid := s.nextpid
  allocated := s.allocated

/-- `freeproc` at slot `i`. -/
def View.vacate (v : View) (i : Slot) : View :=
  { v with
    lineage := (v.lineage.setParent i none).setKind i .free
    pid := update v.pid i 0 }

/-! ### The view of an updated state -/

namespace Sys

variable (s : Sys) (p i : Slot) {pr : Proc}

@[simp]
theorem view_goto (pc : Pc) : (s.goto p pc).view = s.view := rfl

@[simp]
theorem view_setWait (w : Option Slot) :
  (s.setWait w).view = { s.view with waitLock := w }
  := rfl

@[simp]
theorem view_setLock (w : Option Slot) :
  (s.setLock i w).view = { s.view with lock := update s.lock i w }
  := rfl

theorem view_setProc (pr : Proc) :
  (s.setProc i pr).view = { s.view with
    lineage := (s.view.lineage.setParent i pr.parent).setKind i pr.state.kind
    pid := update s.view.pid i pr.pid }
  := by
  ext1
  · simp only [view, setProc, Lineage.setKind, Lineage.setParent, Lineage.mk.injEq]
    refine ⟨?_, ?_, trivial⟩
    · funext j
      by_cases hj : j = i
      · subst hj; simp
      · simp [hj]
    · funext j
      by_cases hj : j = i
      · subst hj; simp
      · simp [hj]
  · funext j
    by_cases hj : j = i
    · subst hj; simp [view, setProc]
    · simp [view, setProc, hj]
  all_goals rfl

/-- A change of a slot that keeps its stage, parent and pid does not change the view. -/
theorem view_setProc_of_same
    (hk : pr.state.kind = (s.proc i).state.kind) (hp : pr.parent = (s.proc i).parent)
    (hpid : pr.pid = (s.proc i).pid) :
  (s.setProc i pr).view = s.view
  := by
  rw [view_setProc, hk, hp, hpid]
  have h1 := s.view.lineage.setParent_self i
  have h2 := s.view.lineage.setKind_self i
  have h3 := update_eq_self i s.view.pid
  simp only [view] at h1 h2 h3 ⊢
  rw [h1, h2, h3]

/-- A change of the state of a slot. -/
theorem view_setState (hp : pr.parent = (s.proc i).parent) (hpid : pr.pid = (s.proc i).pid) :
  (s.setProc i pr).view
    = { s.view with lineage := s.view.lineage.setKind i pr.state.kind }
  := by
  rw [view_setProc, hp, hpid]
  have h1 := s.view.lineage.setParent_self i
  have h2 := update_eq_self i s.view.pid
  simp only [view] at h1 h2 ⊢
  rw [h1, h2]

/-- A change of the parent of a slot. -/
theorem view_setParent (q : Option Slot) :
  (s.setProc i { s.proc i with parent := q }).view
    = { s.view with lineage := s.view.lineage.setParent i q }
  := by
  rw [view_setProc]
  have h1 := (s.view.lineage.setParent i q).setKind_self i
  have h2 := update_eq_self i s.view.pid
  simp only [view, Lineage.setParent] at h1 h2 ⊢
  rw [h1, h2]

theorem view_freeproc :
  (s.setProc i (s.proc i).freeproc).view = s.view.vacate i
  := by
  rw [view_setProc]
  rfl

@[simp]
theorem goto_pc (pc : Pc) : (s.goto p pc).pc = update s.pc p pc := rfl

@[simp]
theorem setWait_pc (w : Option Slot) : (s.setWait w).pc = s.pc := rfl

theorem wakeupAt_view {s s' : Sys} {p j : Slot} {c : Option Chan} (h : s.wakeupAt p j c = some s') :
  s'.view = s.view ∧ s'.pc = s.pc
  := by
  unfold wakeupAt at h
  split at h
  · cases h
    simp
  · split at h
    · cases h
      refine ⟨?_, rfl⟩
      apply view_setProc_of_same
      · simp
      · simp
      · simp
    · cases h

end Sys

/-! ### Local assertions -/

/-- A place at which a thread holds no lock and sets up no slot. -/
def Pc.idle (pc : Pc) : Prop := pc.holdsWait = false ∧ pc.builds = none

/-- What the thread of `p` may rely on at each place. -/
def Local (L : Lineage Slot) (p : Slot) : Pc → Prop
  | .allocPid np => L.kind np = .free
  | .allocTrapframe np | .allocPagetable np | .forkCopy np | .forkDup np | .forkParent np _ =>
    L.kind np = .embryo ∧ L.parent np = none
  | .forkReady np _ => L.kind np = .embryo ∧ L.parent np = some p
  | .exitWait _ => p ≠ L.root
  | .reparent _ k => p ≠ L.root ∧ ∀ i, L.parent i = some p → k ≤ i.val
  | .reparentWakeup _ k _ => p ≠ L.root ∧ ∀ i, L.parent i = some p → k < i.val
  | .exitWakeup .. | .exitZombie _ => p ≠ L.root ∧ ∀ i, L.parent i ≠ some p
  | _ => True

/-- What a step that takes the thread of `p` from where it stands to `pc'` does to the view. -/
inductive Effect (s : Sys) (p : Slot) (pc' : Pc) : View → Prop where
  /-- Nothing is changed and the same locks are held. -/
  | touch : pc'.holdsWait = (s.pc p).holdsWait → pc'.holdsSlot = (s.pc p).holdsSlot →
      pc'.builds = (s.pc p).builds → (Local s.view.lineage p (s.pc p) → Local s.view.lineage p pc') →
      Effect s p pc' s.view
  /-- `wait_lock` is acquired. -/
  | takeWait : s.waitLock = none → (s.pc p).builds = none → pc'.holdsWait = true →
      pc'.builds = none → (Local s.view.lineage p (s.pc p) → Local s.view.lineage p pc') →
      Effect s p pc' { s.view with waitLock := some p }
  /-- `wait_lock` is released. -/
  | leaveWait : (s.pc p).holdsWait = true → pc'.idle → (∀ L, Local L p pc') →
      Effect s p pc' { s.view with waitLock := none }
  /-- A free slot is found. -/
  | claim (np : Slot) : s.lock np = none → s.view.lineage.kind np = .free → (s.pc p).idle →
      pc' = .allocPid np →
      Effect s p pc' { s.view with lock := update s.lock np (some p) }
  /-- The slot found gets its pid. -/
  | alloc (np : Slot) : s.pc p = .allocPid np → pc' = .allocTrapframe np →
      Effect s p pc' { s.view with
        lineage := s.view.lineage.setKind np .embryo
        pid := update s.view.pid np s.nextpid
        nextpid := intSucc s.nextpid
        allocated := s.allocated + 1 }
  /-- The slot is given up again. -/
  | abandon (np : Slot) : (s.pc p).holdsSlot = some np →
      (Local s.view.lineage p (s.pc p) →
        s.view.lineage.kind np = .embryo ∧ s.view.lineage.parent np = none) →
      pc'.idle → (∀ L, Local L p pc') →
      Effect s p pc' { s.view.vacate np with lock := update s.lock np none }
  /-- The lock of the slot is released. -/
  | publish (np : Slot) (pid : ℤ) : s.pc p = .forkDup np → pc' = .forkParent np pid →
      Effect s p pc' { s.view with lock := update s.lock np none }
  /-- The slot gets its parent. -/
  | adopt (np : Slot) (pid : ℤ) : s.pc p = .forkParent np pid → pc' = .forkReady np pid →
      s.view.lineage.kind p = .live → s.waitLock = none →
      Effect s p pc' { s.view with lineage := s.view.lineage.setParent np (some p) }
  /-- The slot is ready to run. -/
  | ready (np : Slot) (pid : ℤ) : s.pc p = .forkReady np pid → pc'.idle → (∀ L, Local L p pc') →
      s.lock np = none →
      Effect s p pc' { s.view with lineage := s.view.lineage.setKind np .live }
  /-- A child is handed over to the first process. -/
  | entrust (status : ℤ) (i : Slot) : s.pc p = .reparent status i →
      pc' = .reparentWakeup status i 0 → s.view.lineage.parent i = some p →
      Effect s p pc' { s.view with lineage := s.view.lineage.setParent i (some s.initproc) }
  /-- The process becomes a zombie. -/
  | die (status : ℤ) : s.pc p = .exitZombie status → pc' = .user none →
      s.view.lineage.kind p = .live →
      Effect s p pc' { s.view with lineage := s.view.lineage.setKind p .dead, waitLock := none }
  /-- A zombie child is freed. -/
  | reap (i : Slot) : (s.pc p).holdsWait = true → s.view.lineage.parent i = some p →
      s.view.lineage.kind i = .dead → s.lock i = none → pc'.idle → (∀ L, Local L p pc') →
      Effect s p pc' { s.view.vacate i with waitLock := none }

/-! ### Every step has one of these effects -/

/-- A step of the thread of `p`: it moves somewhere, with one of the effects above. -/
def Moves (s : Sys) (p : Slot) (s' : Sys) : Prop :=
  ∃ pc', s'.pc = update s.pc p pc' ∧ Effect s p pc' s'.view

namespace Moves

variable {s s' : Sys} {p i np : Slot} {pc pc' : Pc}

/-- Moving between places that agree on the locks held and on the slot being set up, after
a change that the view does not show. -/
theorem touch
    (hpc : s.pc p = pc) (hview : s'.view = s.view) (hpc' : s'.pc = s.pc)
    (hw : pc'.holdsWait = pc.holdsWait) (hs : pc'.holdsSlot = pc.holdsSlot)
    (hb : pc'.builds = pc.builds) (hl : Local s.view.lineage p pc → Local s.view.lineage p pc') :
  Moves s p (s'.goto p pc')
  := by
  subst hpc
  use pc'
  rw [Sys.goto_pc, hpc', Sys.view_goto, hview]
  use rfl
  apply Effect.touch hw hs hb hl

theorem goto
    (hpc : s.pc p = pc) (hw : pc'.holdsWait = pc.holdsWait) (hs : pc'.holdsSlot = pc.holdsSlot)
    (hb : pc'.builds = pc.builds) (hl : Local s.view.lineage p pc → Local s.view.lineage p pc') :
  Moves s p (s.goto p pc')
  := touch hpc rfl rfl hw hs hb hl

/-- Acquiring `wait_lock`. -/
theorem takeWait
    (hpc : s.pc p = pc) (hfree : s.waitLock = none) (hb : pc.builds = none)
    (hw : pc'.holdsWait = true) (hb' : pc'.builds = none)
    (hl : Local s.view.lineage p pc → Local s.view.lineage p pc') :
  Moves s p ((s.setWait (some p)).goto p pc')
  := by
  subst hpc
  use pc', rfl
  apply Effect.takeWait hfree hb hw hb' hl

/-- Releasing `wait_lock`, after a change that the view does not show. -/
theorem leaveWait
    (hw : (s.pc p).holdsWait = true) (hview : s'.view = s.view) (hpc' : s'.pc = s.pc)
    (hidle : pc'.idle) (hl : ∀ L, Local L p pc') :
  Moves s p ((s'.setWait none).goto p pc')
  := by
  use pc'
  rw [Sys.goto_pc, Sys.setWait_pc, hpc', Sys.view_goto, Sys.view_setWait, hview]
  use rfl
  apply Effect.leaveWait hw hidle hl

/-- Returning to user space with `wait_lock` released. -/
theorem returnWait (hw : (s.pc p).holdsWait = true) (r : Option Ret) :
  Moves s p ((s.setWait none).goto p (.user r))
  := leaveWait hw rfl rfl ⟨rfl, rfl⟩ (fun _ => trivial)

/-- The next step of `allocproc` or `kfork`, or giving up the slot. -/
theorem orAbandon
    (ok : Bool) (hpc : s.pc p = pc) (hs : pc.holdsSlot = some np)
    (hl : Local s.view.lineage p pc → s.view.lineage.kind np = .embryo ∧ s.view.lineage.parent np = none)
    (hw : pc'.holdsWait = pc.holdsWait) (hs' : pc'.holdsSlot = pc.holdsSlot)
    (hb : pc'.builds = pc.builds) (hl' : Local s.view.lineage p pc → Local s.view.lineage p pc') :
  Moves s p (if ok then s.goto p pc' else s.abandon p np)
  := by
  cases ok with
  | true => apply goto hpc hw hs' hb hl'
  | false =>
    subst hpc
    use .user (some (.fork (-1))), rfl
    rw [if_neg Bool.false_ne_true, Sys.abandon, Sys.view_goto, Sys.view_setLock,
      Sys.view_freeproc]
    apply Effect.abandon np hs hl
    · constructor <;> rfl
    · intro L
      trivial

end Moves

variable {s s' : Sys} {p : Slot} {a : Act}

theorem waitAt_moves
    {p i : Slot} {addr : UInt64} {havekids ok : Bool} {k : ℕ}
    (hpc : s.pc p = .waitScan addr k havekids) (h : s.waitAt p i addr havekids ok = some s') :
  Moves s p s'
  := by
  have hw : (s.pc p).holdsWait = true := by rw [hpc]; rfl
  simp only [Sys.waitAt] at h
  split_ifs at h with hparent hlock hzombie hcopy
  · cases h
    apply Moves.returnWait hw
  · cases h
    refine ⟨_, rfl, ?_⟩
    rw [Sys.view_goto, Sys.view_setWait, Sys.view_freeproc]
    apply Effect.reap i hw hparent (ProcState.kind_eq_dead.mpr hzombie) hlock
    · constructor <;> rfl
    · intro L
      trivial
  · cases h
    exact Moves.goto hpc rfl rfl rfl id
  · cases h
    exact Moves.goto hpc rfl rfl rfl id

/-- The next step of a running thread. -/
theorem advance_moves {ok : Bool} (hrun : (s.proc p).state = .running)
    (h : s.advance p ok (s.pc p) = some s') :
  Moves s p s'
  := by
  have hlive : s.view.lineage.kind p = .live := by simp [Sys.view, hrun, ProcState.kind]
  cases hpc : s.pc p with simp only [hpc, Sys.advance] at h
  | user r => cases h
  | allocScan k =>
    split_ifs at h with hk hlock hfree
    · cases h
      refine ⟨_, rfl, ?_⟩
      apply Effect.claim ⟨k, hk⟩ hlock (ProcState.kind_eq_free.mpr hfree) _ rfl
      rw [hpc]
      constructor <;> rfl
    · cases h
      exact Moves.goto hpc rfl rfl rfl id
    · cases h
      exact Moves.goto hpc rfl rfl rfl id
  | allocPid np =>
    cases h
    refine ⟨.allocTrapframe np, rfl, ?_⟩
    convert Effect.alloc np hpc rfl using 1
    have hv := s.view_setProc np { s.proc np with pid := s.nextpid, state := .used }
    have hp := s.view.lineage.setParent_self np
    simp only [Sys.view, Sys.setProc, Sys.goto, View.mk.injEq, and_true] at hv hp ⊢
    rw [hv.1, hv.2, hp]
    simp [ProcState.kind]
  | allocTrapframe np | allocPagetable np | forkCopy np =>
    cases h
    exact Moves.orAbandon ok hpc rfl id rfl rfl rfl id
  | forkDup np =>
    cases h
    refine ⟨_, rfl, ?_⟩
    rw [Sys.view_goto, Sys.view_setLock, Sys.view_setProc_of_same]
    · apply Effect.publish np _ hpc rfl
    all_goals rfl
  | forkParent np pid =>
    split_ifs at h with hw
    cases h
    refine ⟨_, rfl, ?_⟩
    rw [Sys.view_goto, Sys.view_setParent]
    apply Effect.adopt np pid hpc rfl hlive hw
  | forkReady np pid =>
    split_ifs at h with hlock
    cases h
    refine ⟨_, rfl, ?_⟩
    rw [Sys.view_goto, Sys.view_setState]
    · apply Effect.ready np pid hpc _ _ hlock
      · constructor <;> rfl
      · intro L
        trivial
    all_goals rfl
  | exitWait status =>
    split_ifs at h with hw
    cases h
    apply Moves.takeWait hpc hw rfl rfl rfl
    intro hl
    use hl
    intro i _
    apply Nat.zero_le
  | reparent status k =>
    split_ifs at h with hk hparent
    · cases h
      refine ⟨_, rfl, ?_⟩
      rw [Sys.view_goto, Sys.view_setParent]
      apply Effect.entrust status ⟨k, hk⟩ hpc rfl hparent
    · cases h
      refine Moves.goto hpc rfl rfl rfl ?_
      rintro ⟨hroot, hl⟩
      use hroot
      intro i hi
      have hne : k ≠ i.val := by rintro rfl; apply hparent hi
      have := hl i hi
      omega
    · cases h
      refine Moves.goto hpc rfl rfl rfl ?_
      rintro ⟨hroot, hl⟩
      use hroot
      intro i hi
      have := hl i hi
      omega
  | reparentWakeup status k j | exitWakeup status chan j =>
    split_ifs at h
    · obtain ⟨s₁, h₁, rfl⟩ := Option.map_eq_some_iff.mp h
      obtain ⟨hv, hpc₁⟩ := Sys.wakeupAt_view h₁
      exact Moves.touch hpc hv hpc₁ rfl rfl rfl id
    · cases h
      exact Moves.goto hpc rfl rfl rfl id
  | exitZombie status =>
    split_ifs at h
    cases h
    refine ⟨_, rfl, ?_⟩
    rw [Sys.view_goto, Sys.view_setWait, Sys.view_setState]
    · apply Effect.die status hpc rfl hlive
    all_goals rfl
  | waitWait addr | getprocsWait maxCount pi =>
    split_ifs at h with hw
    cases h
    apply Moves.takeWait hpc hw rfl rfl rfl
    intro _
    trivial
  | waitScan addr k havekids =>
    split_ifs at h
    · apply waitAt_moves hpc h
    · cases h
      apply Moves.returnWait
      rw [hpc]
      rfl
    · cases h
      exact Moves.goto hpc rfl rfl rfl id
  | waitKilled addr =>
    split_ifs at h
    · cases h
      apply Moves.returnWait
      rw [hpc]
      rfl
    · cases h
      exact Moves.goto hpc rfl rfl rfl id
  | waitSleep addr =>
    split_ifs at h
    cases h
    apply Moves.leaveWait
    · rw [hpc]
      rfl
    · apply Sys.view_setProc_of_same
      · simp [hrun, ProcState.kind]
      · rfl
      · rfl
    · rfl
    · constructor <;> rfl
    · intro L
      trivial
  | killScan pid k =>
    split_ifs at h with hk
    · cases h
      have hview := s.view_setProc_of_same ⟨k, hk⟩ (s.proc ⟨k, hk⟩).kill_kind rfl rfl
      exact Moves.touch hpc hview rfl rfl rfl rfl id
    · cases h
      exact Moves.goto hpc rfl rfl rfl id
    · cases h
      exact Moves.goto hpc rfl rfl rfl id
  | getprocsScan maxCount k pi copied =>
    split_ifs at h
    · cases h
      exact Moves.goto hpc rfl rfl rfl id
    · cases h
      exact Moves.goto hpc rfl rfl rfl id
    · cases h
      apply Moves.returnWait
      rw [hpc]
      rfl
  | getprocsCopyout maxCount k pi copied =>
    split_ifs at h
    · cases h
      exact Moves.goto hpc rfl rfl rfl id
    · cases h
      apply Moves.returnWait
      rw [hpc]
      rfl

/-- Entering a system call. -/
theorem enter_moves {s : Sys} {r : Option Ret} (hpc : s.pc p = .user r) (c : Syscall) :
  Moves s p (s.enter p c) ∨ (s.enter p c = { s with panicked := true })
  := by
  cases c with
  | fork | wait addr | kill pid => left; exact Moves.goto hpc rfl rfl rfl id
  | exit status =>
    simp only [Sys.enter]
    split_ifs with hp
    · right; rfl
    · left
      refine Moves.goto hpc rfl rfl rfl ?_
      intro _
      apply hp
  | getprocs maxCount pi =>
    left
    simp only [Sys.enter]
    split_ifs
    · exact Moves.goto hpc rfl rfl rfl id
    · exact Moves.goto hpc rfl rfl rfl id

/-- A step is a matter of scheduling that the view does not show and by which no thread
moves, or a process enters a system call, or it takes its next step in one. -/
theorem step_cases (h : s.step a = some s') :
  (s'.view = s.view ∧ s'.pc = s.pc)
    ∨ (∃ p c r, s.pc p = .user r ∧ s' = s.enter p c)
    ∨ ∃ p ok, (s.proc p).state = .running ∧ s.advance p ok (s.pc p) = some s'
  := by
  unfold Sys.step at h
  split_ifs at h
  cases a with simp only at h
  | dispatch p | yield p =>
    split_ifs at h with hp
    cases h
    left
    refine ⟨s.view_setProc_of_same p ?_ rfl rfl, rfl⟩
    simp [hp.1, ProcState.kind]
  | call p c =>
    split_ifs at h
    split at h
    next r hpc =>
      right
      left
      exact ⟨p, c, r, hpc, (Option.some.inj h).symm⟩
    next => cases h
  | run p ok =>
    split_ifs at h with hp
    right
    right
    exact ⟨p, ok, hp, h⟩
  | sleepOn p n =>
    split_ifs at h with hp
    split at h
    next =>
      cases h
      left
      refine ⟨s.view_setProc_of_same p ?_ rfl rfl, rfl⟩
      simp [hp.1, ProcState.kind]
    next => cases h
  | wakeOn p n q =>
    split_ifs at h
    split at h
    next =>
      left
      apply Sys.wakeupAt_view h
    next => cases h
  | rename p name =>
    split_ifs at h
    split at h
    next =>
      cases h
      left
      exact ⟨s.view_setProc_of_same p rfl rfl rfl, rfl⟩
    next => cases h

/-- A change that the view does not show, by which no thread moves. -/
theorem Moves.stay (p : Slot) (hview : s'.view = s.view) (hpc : s'.pc = s.pc) :
  Moves s p s'
  := by
  use s.pc p
  rw [hview, hpc, update_eq_self]
  use rfl
  apply Effect.touch rfl rfl rfl id

/-- Every step moves a thread with one of the effects above, or is a panic. -/
theorem step_moves (h : s.step a = some s') :
  (∃ p, Moves s p s') ∨ s' = { s with panicked := true }
  := by
  obtain ⟨hview, hpc⟩ | ⟨p, c, r, hpc, rfl⟩ | ⟨p, ok, hrun, h⟩ := step_cases h
  · left
    use 0
    apply Moves.stay 0 hview hpc
  · apply (enter_moves hpc c).imp_left
    intro hm
    use p
  · left
    use p
    apply advance_moves hrun h

end Xv6
