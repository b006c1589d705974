import Xv6.Proc.Step

/-!
# CPUs and the threads of the processes

Any number of CPUs run `scheduler()`, which switches to the threads of the processes and back.
As `p->lock` is acquired on one side of `swtch` and released on the other, the locks are held
by CPUs here.  A step runs from one acquisition of a lock or switch of the thread to the next;
in between, nobody else touches what the lock protects.

The threads call `kfork`, `kexit`, `kwait`, `kkill` and `setkilled`, and the loops in which
`piperead`, `pipewrite`, `consoleread` and `sys_pause` wait.  What these loops wait for is
data of other parts of the kernel: whether it is there is part of the label of a step.  A
timer interrupt makes a thread that holds no lock call `yield`, and every CPU may call `wakeup`
for the rest of the kernel.
-/

namespace Xv6

open Function

/-- The loops around `sleep` other than the one in `kwait`; `other` stands for the rest of the
kernel, where nobody asks whether the process is killed. -/
inductive SleepLoop where
  | piperead (pi : ℕ)
  | pipewrite (pi : ℕ)
  | consoleread
  | pause
  | other (n : ℕ)
  deriving DecidableEq

/-- The locks that are passed to `sleep`. -/
inductive CondLock where
  | pipe (pi : ℕ)
  | cons
  | ticks
  | other (n : ℕ)
  deriving DecidableEq

namespace SleepLoop

/-- The lock that protects what the loop waits for. -/
def lock : SleepLoop → CondLock
  | piperead pi | pipewrite pi => .pipe pi
  | consoleread => .cons
  | pause => .ticks
  | other n => .other n

/-- The address that the loop sleeps on: `&pi->nread`, `&pi->nwrite`, `&cons.r`, `&ticks`. -/
def chan : SleepLoop → ℕ
  | piperead pi => 4 * pi
  | pipewrite pi => 4 * pi + 1
  | consoleread => 2
  | pause => 3
  | other n => 4 * n + 6

/-- The address that `pipewrite` calls `wakeup` on before it sleeps: `&pi->nread`. -/
def nread : SleepLoop → ℕ
  | pipewrite pi => (piperead pi).chan
  | l => l.chan

/-- The loop asks whether the process is killed before it sleeps. -/
def asks : SleepLoop → Bool
  | other _ => false
  | _ => true

end SleepLoop

/-- Where the thread of a process stands in the kernel. -/
inductive Kpc where
  /-- Outside the functions below, after the system call with the given result. -/
  | user (r : Option Ret)
  /-- `forkret`: about to release `p->lock`. -/
  | forkret
  /-- `allocproc`: about to acquire the lock of the slot with index `k`. -/
  | allocScan (k : ℕ)
  /-- `allocproc`: found `np`, about to call `allocpid`. -/
  | allocPid (np : Slot)
  /-- `allocproc`: about to allocate the trapframe. -/
  | allocTrapframe (np : Slot)
  /-- `allocproc`: about to build the page table and the context. -/
  | allocPagetable (np : Slot)
  /-- `kfork`: about to call `uvmcopy`. -/
  | forkCopy (np : Slot)
  /-- `kfork`: about to duplicate the open files and the name. -/
  | forkDup (np : Slot)
  /-- `kfork`: the lock of `np` is released, about to acquire `wait_lock`. -/
  | forkParent (np : Slot) (pid : ℤ)
  /-- `kfork`: about to acquire the lock of `np` again. -/
  | forkReady (np : Slot) (pid : ℤ)
  /-- `kexit`: files and directory released, about to acquire `wait_lock`. -/
  | exitWait (status : ℤ)
  /-- `kexit`: in the loop of `reparent` at index `k`. -/
  | reparent (status : ℤ) (k : ℕ)
  /-- `kexit`: in `wakeup(initproc)` called by `reparent` at index `k`. -/
  | reparentWakeup (status : ℤ) (k j : ℕ)
  /-- `kexit`: in `wakeup(p->parent)`. -/
  | exitWakeup (status : ℤ) (chan : Option Chan) (j : ℕ)
  /-- `kexit`: about to acquire `p->lock` and become a zombie. -/
  | exitZombie (status : ℤ)
  /-- `kexit`: in `sched`, never to return. -/
  | exited
  /-- `kwait`: about to acquire `wait_lock`. -/
  | waitWait (addr : UInt64)
  /-- `kwait`: in the scan for exited children at index `k`. -/
  | waitScan (addr : UInt64) (k : ℕ) (havekids : Bool)
  /-- `kwait`: about to call `killed`. -/
  | waitKilled (addr : UInt64)
  /-- `kwait`: about to acquire `p->lock` in `sleep`. -/
  | waitSleep (addr : UInt64)
  /-- `kwait`: in `sched` called by `sleep`. -/
  | waitSlept (addr : UInt64)
  /-- A loop that sleeps: about to acquire its lock. -/
  | loopLock (l : SleepLoop)
  /-- A loop that sleeps: about to test its condition. -/
  | loopTest (l : SleepLoop)
  /-- A loop that sleeps: about to call `killed`. -/
  | loopKilled (l : SleepLoop)
  /-- `pipewrite`: about to test whether the pipe is full. -/
  | loopFull (l : SleepLoop)
  /-- `pipewrite`: in `wakeup(&pi->nread)`. -/
  | loopWakeup (l : SleepLoop) (j : ℕ)
  /-- A loop that sleeps: about to acquire `p->lock` in `sleep`. -/
  | loopSleep (l : SleepLoop)
  /-- A loop that sleeps: in `sched` called by `sleep`. -/
  | loopSlept (l : SleepLoop)
  /-- `kkill`: about to acquire the lock of the slot with index `k`. -/
  | killScan (pid : ℤ) (k : ℕ)
  /-- `setkilled`: about to acquire `p->lock`. -/
  | setkilled
  deriving DecidableEq

namespace Kpc

/-- Where a loop goes on when the process is not killed: `pipewrite` tests whether the pipe is
full only then. -/
def notKilled (l : SleepLoop) : Kpc :=
  match l with
  | .pipewrite _ => loopFull l
  | _ => loopSleep l

/-- The thread holds no lock, so that interrupts are on. -/
def interruptible : Kpc → Bool
  | user _ | allocScan _ | forkParent .. | forkReady .. | exitWait _ | waitWait _ => true
  | loopLock _ | killScan .. | setkilled => true
  | _ => false

end Kpc

/-- The part of a timer interrupt in which a thread stands. -/
inductive Trap where
  | none
  /-- `yield`: about to acquire `p->lock`. -/
  | yield
  /-- `yield`: in `sched`. -/
  | yielded
  deriving DecidableEq

/-- The thread of a process in the kernel, which is interrupted at `pc` unless `trap` is
`none`. -/
structure KThread where
  pc : Kpc
  trap : Trap
  deriving DecidableEq

/-- What a CPU executes. -/
inductive CpuPc where
  /-- `scheduler`: about to acquire the lock of the slot with index `k`. -/
  | scan (k : ℕ)
  /-- The thread of `p`, to which `scheduler` has switched. -/
  | thread (p : Slot)
  /-- `scheduler`: the thread of `p` has switched back. -/
  | back (p : Slot)
  deriving DecidableEq

/-- A CPU: `c->proc`, and what it executes. -/
structure Cpu where
  proc : Option Slot
  pc : CpuPc
  deriving DecidableEq

/-- The process table, the threads, the CPUs and the locks. -/
structure SchedSys (C : Type) where
  proc : Slot → Proc
  thread : Slot → KThread
  cpu : C → Cpu
  lock : Slot → Option C
  waitLock : Option C
  condLock : CondLock → Option C
  nextpid : ℤ
  initproc : Slot

/-- The system calls with their arguments, and the loops. -/
inductive SchedCall where
  | fork
  | exit (status : ℤ)
  | wait (addr : UInt64)
  | kill (pid : ℤ)
  | setkilled
  | loop (l : SleepLoop)

/-- The labels of the steps. -/
inductive SchedAct (C : Type) where
  /-- `scheduler` takes its next step. -/
  | sched (c : C)
  /-- The thread on a CPU enters a system call. -/
  | call (c : C) (call : SchedCall)
  /-- The thread on a CPU takes its next step, with the outcome of the allocation, copy or
  test in it, if there is one. -/
  | run (c : C) (ok : Bool)
  /-- A timer interrupt. -/
  | timer (c : C)
  /-- An iteration of `wakeup` called by another part of the kernel. -/
  | wake (c : C) (chan : ℕ) (j : Slot)

namespace SchedSys

variable {C : Type} [DecidableEq C]

/-- The state `userinit` leaves: the first slot holds the first process, and the CPUs call
`scheduler`. -/
def boot : SchedSys C where
  proc := update (fun _ => Proc.zero) 0 { Proc.zero with pid := 1, state := .runnable }
  thread := fun _ => { pc := .forkret, trap := .none }
  cpu := fun _ => { proc := none, pc := .scan 0 }
  lock := fun _ => none
  waitLock := none
  condLock := fun _ => none
  nextpid := 2
  initproc := 0

def setProc (s : SchedSys C) (p : Slot) (pr : Proc) : SchedSys C :=
  { s with proc := update s.proc p pr }

def setThread (s : SchedSys C) (p : Slot) (th : KThread) : SchedSys C :=
  { s with thread := update s.thread p th }

def setCpu (s : SchedSys C) (c : C) (cpu : Cpu) : SchedSys C :=
  { s with cpu := update s.cpu c cpu }

def setLock (s : SchedSys C) (p : Slot) (holder : Option C) : SchedSys C :=
  { s with lock := update s.lock p holder }

def setWait (s : SchedSys C) (holder : Option C) : SchedSys C :=
  { s with waitLock := holder }

def setCond (s : SchedSys C) (l : CondLock) (holder : Option C) : SchedSys C :=
  { s with condLock := update s.condLock l holder }

def goto (s : SchedSys C) (t : Slot) (pc : Kpc) : SchedSys C :=
  s.setThread t { pc, trap := .none }

/-- The next step of `scheduler`. -/
def scheduler (s : SchedSys C) (c : C) : Option (SchedSys C) :=
  match (s.cpu c).pc with
  | .scan k =>
    if h : k < NPROC then
      let p : Slot := ⟨k, h⟩
      if s.lock p = none then
        if (s.proc p).state = .runnable then
          -- `p->lock` stays with the CPU, for the thread to release
          some (((s.setProc p { s.proc p with state := .running }).setLock p (some c)).setCpu c
            { proc := some p, pc := .thread p })
        else some (s.setCpu c { s.cpu c with pc := .scan (k + 1) })
      else none
    else some (s.setCpu c { s.cpu c with pc := .scan 0 })
  | .back p => some ((s.setLock p none).setCpu c { proc := none, pc := .scan (p + 1) })
  | .thread _ => none

/-- `sched`: the thread switches to the scheduler of its CPU, to go on at `th`. -/
def sched (s : SchedSys C) (c : C) (t : Slot) (th : KThread) : SchedSys C :=
  (s.setThread t th).setCpu c { s.cpu c with pc := .back t }

/-- `sleep`, up to the switch: acquire `p->lock` and go to sleep.  The caller's lock is
released by the caller. -/
def sleep (s : SchedSys C) (c : C) (t p : Slot) (chan : Chan) (pc : Kpc) : Option (SchedSys C) :=
  if s.lock p = none then
    some (((s.setLock p (some c)).setProc p
      { s.proc p with chan := some chan, state := .sleeping }).sched c t { pc, trap := .none })
  else none

/-- `sleep`, after the switch. -/
def slept (s : SchedSys C) (t p : Slot) (pc : Kpc) : SchedSys C :=
  ((s.setProc p { s.proc p with chan := none }).setLock p none).goto t pc

/-- One iteration of `wakeup(chan)`, at slot `j`. -/
def wakeupAt (s : SchedSys C) (c : C) (j : Slot) (chan : Option Chan) : Option (SchedSys C) :=
  if (s.cpu c).proc = some j then some s
  else if s.lock j = none then some (s.setProc j ((s.proc j).wakeup chan))
  else none

/-- `wakeup(chan)` at index `j`: an iteration and then `next`, or `done` behind the last. -/
def wakeupLoop (s : SchedSys C) (c : C) (t : Slot) (chan : Option Chan) (j : ℕ) (next done : Kpc) :
    Option (SchedSys C) :=
  if h : j < NPROC then (s.wakeupAt c ⟨j, h⟩ chan).map (·.goto t next) else some (s.goto t done)

/-- The failure exits of `allocproc` and `kfork`. -/
def abandon (s : SchedSys C) (t np : Slot) : SchedSys C :=
  ((s.setProc np (s.proc np).freeproc).setLock np none).goto t (.user (some (.fork (-1))))

/-- `yield`. -/
def yield (s : SchedSys C) (c : C) (t p : Slot) : Option (SchedSys C) :=
  if s.lock p = none then
    some (((s.setLock p (some c)).setProc p { s.proc p with state := .runnable }).sched c t
      { s.thread t with trap := .yielded })
  else none

/-- The step of `kwait`'s scan at the slot `i`. -/
def waitAt (s : SchedSys C) (t p i : Slot) (addr : UInt64) (havekids ok : Bool) :
    Option (SchedSys C) :=
  if (s.proc i).parent = some p then
    if s.lock i = none then
      if (s.proc i).state = .zombie then
        if addr ≠ 0 ∧ ok = false then
          some ((s.setWait none).goto t (.user (some (.wait (-1)))))
        else
          some (((s.setProc i (s.proc i).freeproc).setWait none).goto t
            (.user (some (.wait (s.proc i).pid))))
      else some (s.goto t (.waitScan addr (i + 1) true))
    else none
  else some (s.goto t (.waitScan addr (i + 1) havekids))

/-- The next step of the thread `t` on the CPU `c`, with `myproc()` being `p`. -/
def advance (s : SchedSys C) (c : C) (t p : Slot) (ok : Bool) : Kpc → Option (SchedSys C)
  | .user _ => none
  | .forkret => some ((s.setLock p none).goto t (.user none))
  | .allocScan k =>
    if h : k < NPROC then
      let np : Slot := ⟨k, h⟩
      if s.lock np = none then
        if (s.proc np).state = .unused then
          some ((s.setLock np (some c)).goto t (.allocPid np))
        else some (s.goto t (.allocScan (k + 1)))
      else none
    else some (s.goto t (.user (some (.fork (-1)))))
  | .allocPid np =>
    some ({ s.setProc np { s.proc np with pid := s.nextpid, state := .used } with
      nextpid := intSucc s.nextpid }.goto t (.allocTrapframe np))
  | .allocTrapframe np =>
    some (if ok then s.goto t (.allocPagetable np) else s.abandon t np)
  | .allocPagetable np =>
    some (if ok then (s.goto np .forkret).goto t (.forkCopy np) else s.abandon t np)
  | .forkCopy np =>
    some (if ok then s.goto t (.forkDup np) else s.abandon t np)
  | .forkDup np =>
    some (((s.setProc np { s.proc np with
      name := safestrcpy (s.proc np).name (s.proc p).name 16 }).setLock np none).goto t
        (.forkParent np (s.proc np).pid))
  | .forkParent np pid =>
    if s.waitLock = none then
      some ((s.setProc np { s.proc np with parent := some p }).goto t (.forkReady np pid))
    else none
  | .forkReady np pid =>
    if s.lock np = none then
      some ((s.setProc np { s.proc np with state := .runnable }).goto t (.user (some (.fork pid))))
    else none
  | .exitWait status =>
    if s.waitLock = none then some ((s.setWait (some c)).goto t (.reparent status 0)) else none
  | .reparent status k =>
    if h : k < NPROC then
      let pp : Slot := ⟨k, h⟩
      if (s.proc pp).parent = some p then
        some ((s.setProc pp { s.proc pp with parent := some s.initproc }).goto t
          (.reparentWakeup status k 0))
      else some (s.goto t (.reparent status (k + 1)))
    else some (s.goto t (.exitWakeup status ((s.proc p).parent.map .proc) 0))
  | .reparentWakeup status k j =>
    s.wakeupLoop c t (some (.proc s.initproc)) j (.reparentWakeup status k (j + 1))
      (.reparent status (k + 1))
  | .exitWakeup status chan j =>
    s.wakeupLoop c t chan j (.exitWakeup status chan (j + 1)) (.exitZombie status)
  | .exitZombie status =>
    if s.lock p = none then
      some ((((s.setLock p (some c)).setProc p
        { s.proc p with xstate := status, state := .zombie }).setWait none).sched c t
          { pc := .exited, trap := .none })
    else none
  | .exited => none
  | .waitWait addr =>
    if s.waitLock = none then some ((s.setWait (some c)).goto t (.waitScan addr 0 false)) else none
  | .waitScan addr k havekids =>
    if h : k < NPROC then s.waitAt t p ⟨k, h⟩ addr havekids ok
    else if havekids = false then some ((s.setWait none).goto t (.user (some (.wait (-1)))))
    else some (s.goto t (.waitKilled addr))
  | .waitKilled addr =>
    if s.lock p = none then
      if (s.proc p).killed then some ((s.setWait none).goto t (.user (some (.wait (-1)))))
      else some (s.goto t (.waitSleep addr))
    else none
  | .waitSleep addr => (s.setWait none).sleep c t p (.proc p) (.waitSlept addr)
  | .waitSlept addr => some (s.slept t p (.waitWait addr))
  | .loopLock l =>
    if s.condLock l.lock = none then some ((s.setCond l.lock (some c)).goto t (.loopTest l))
    else none
  | .loopTest l =>
    if ok = false then some ((s.setCond l.lock none).goto t (.user none))
    else some (s.goto t (if l.asks then .loopKilled l else .loopSleep l))
  | .loopKilled l =>
    if s.lock p = none then
      if (s.proc p).killed then some ((s.setCond l.lock none).goto t (.user none))
      else some (s.goto t (.notKilled l))
    else none
  | .loopFull l => some (s.goto t (if ok then .loopWakeup l 0 else .loopTest l))
  | .loopWakeup l j =>
    s.wakeupLoop c t (some (.other l.nread)) j (.loopWakeup l (j + 1)) (.loopSleep l)
  | .loopSleep l => (s.setCond l.lock none).sleep c t p (.other l.chan) (.loopSlept l)
  | .loopSlept l => some (s.slept t p (.loopLock l))
  | .killScan pid k =>
    if h : k < NPROC then
      let q : Slot := ⟨k, h⟩
      if s.lock q = none then
        if (s.proc q).pid = pid then
          some ((s.setProc q (s.proc q).kill).goto t (.user (some (.kill 0))))
        else some (s.goto t (.killScan pid (k + 1)))
      else none
    else some (s.goto t (.user (some (.kill (-1)))))
  | .setkilled =>
    if s.lock p = none then
      some ((s.setProc p { s.proc p with killed := true }).goto t (.user none))
    else none

/-- The next step of the thread `t`, in a timer interrupt or outside. -/
def runThread (s : SchedSys C) (c : C) (t p : Slot) (ok : Bool) : Option (SchedSys C) :=
  match (s.thread t).trap with
  | .none => s.advance c t p ok (s.thread t).pc
  | .yield => s.yield c t p
  | .yielded => some ((s.setLock p none).goto t (s.thread t).pc)

/-- Entering a system call.  The first process does not exit: `kexit` panics. -/
def enter (s : SchedSys C) (t p : Slot) : SchedCall → Option (SchedSys C)
  | .fork => some (s.goto t (.allocScan 0))
  | .exit status => if p = s.initproc then none else some (s.goto t (.exitWait status))
  | .wait addr => some (s.goto t (.waitWait addr))
  | .kill pid => some (s.goto t (.killScan pid 0))
  | .setkilled => some (s.goto t .setkilled)
  | .loop l => some (s.goto t (.loopLock l))

/-- The thread on a CPU, and what `myproc()` returns to it. -/
def onCpu (s : SchedSys C) (c : C) : Option (Slot × Slot) :=
  match s.cpu c with
  | { proc := some p, pc := .thread t } => some (t, p)
  | _ => none

/-- The effect of a label that is enabled. -/
def step (s : SchedSys C) : SchedAct C → Option (SchedSys C)
  | .sched c => s.scheduler c
  | .call c call =>
    match s.onCpu c with
    | some (t, p) =>
      match s.thread t with
      | { pc := .user _, trap := .none } => s.enter t p call
      | _ => none
    | none => none
  | .run c ok =>
    match s.onCpu c with
    | some (t, p) => s.runThread c t p ok
    | none => none
  | .timer c =>
    match s.onCpu c with
    | some (t, _) =>
      if (s.thread t).trap = .none ∧ (s.thread t).pc.interruptible = true then
        some (s.setThread t { s.thread t with trap := .yield })
      else none
    | none => none
  | .wake c chan j => s.wakeupAt c j (some (.other chan))

end SchedSys

/-- The CPUs and processes as a transition system. -/
def schedSystem (C : Type) [DecidableEq C] : TransitionSystem (SchedSys C) (SchedAct C) where
  init s := s = SchedSys.boot
  step := SchedSys.step

end Xv6
