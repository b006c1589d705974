import Xv6.Lib.TransitionSystem
import Xv6.Proc.Table

/-!
# Processes stepping through the process table

Every slot has a kernel thread, and `Pc` says where in `kfork`, `kexit`, `kwait`, `kkill`
or `sys_getprocs` it stands.  A step of a thread runs from one acquisition of a lock to
the next one, so what a function does while it holds one lock is one step, and a function
that takes a second lock under the first passes through a state of its own in between.
The scheduler, `yield` and the sleeping and waking of processes in the rest of the kernel
step at the same granularity; any number of processes may run at a time.

The steps are labelled by the slot whose thread takes them and by the choices the table
does not determine: which system call a process makes, whether an allocation or a copy to
user space succeeds.
-/

namespace Xv6

open Function

/-- The result of a system call. -/
inductive Ret where
  | fork (pid : ℤ)
  | wait (pid : ℤ)
  | kill (r : ℤ)
  | getprocs (maxCount count : ℤ) (copied : List Pinfo)
  deriving DecidableEq

/-- Where the thread of a slot stands. -/
inductive Pc where
  /-- Outside the functions below, after the system call with the given result. -/
  | user (r : Option Ret)
  /-- `allocproc`: about to acquire the lock of the slot with index `k`. -/
  | allocScan (k : ℕ)
  /-- `allocproc`: found `np`, about to call `allocpid`. -/
  | allocPid (np : Slot)
  /-- `allocproc`: about to allocate the trapframe. -/
  | allocTrapframe (np : Slot)
  /-- `allocproc`: about to build the page table. -/
  | allocPagetable (np : Slot)
  /-- `kfork`: about to call `uvmcopy`. -/
  | forkCopy (np : Slot)
  /-- `kfork`: about to duplicate the open files and the name. -/
  | forkDup (np : Slot)
  /-- `kfork`: the lock of `np` is released, about to acquire `wait_lock`. -/
  | forkParent (np : Slot) (pid : ℤ)
  /-- `kfork`: about to acquire the lock of `np` again. -/
  | forkReady (np : Slot) (pid : ℤ)
  /-- `kexit`: files and directory released, about to acquire `wait_lock`. -/
  | exitWait (status : ℤ)
  /-- `kexit`: in the loop of `reparent` at index `k`. -/
  | reparent (status : ℤ) (k : ℕ)
  /-- `kexit`: in `wakeup(initproc)` called by `reparent` at index `k`. -/
  | reparentWakeup (status : ℤ) (k j : ℕ)
  /-- `kexit`: in `wakeup(p->parent)`. -/
  | exitWakeup (status : ℤ) (chan : Option Chan) (j : ℕ)
  /-- `kexit`: about to acquire `p->lock` and become a zombie. -/
  | exitZombie (status : ℤ)
  /-- `kwait`: about to acquire `wait_lock`. -/
  | waitWait (addr : UInt64)
  /-- `kwait`: in the scan for exited children at index `k`. -/
  | waitScan (addr : UInt64) (k : ℕ) (havekids : Bool)
  /-- `kwait`: about to call `killed`. -/
  | waitKilled (addr : UInt64)
  /-- `kwait`: about to acquire `p->lock` in `sleep`. -/
  | waitSleep (addr : UInt64)
  /-- `kkill`: about to acquire the lock of the slot with index `k`. -/
  | killScan (pid : ℤ) (k : ℕ)
  /-- `sys_getprocs`: about to acquire `wait_lock`. -/
  | getprocsWait (maxCount : ℤ) (pi : Pinfo)
  /-- `sys_getprocs`: in the scan at index `k`, with `copied` in the user's buffer. -/
  | getprocsScan (maxCount : ℤ) (k : ℕ) (pi : Pinfo) (copied : List Pinfo)
  /-- `sys_getprocs`: entry `pi` of index `k` read, about to call `copyout`. -/
  | getprocsCopyout (maxCount : ℤ) (k : ℕ) (pi : Pinfo) (copied : List Pinfo)
  deriving DecidableEq

namespace Pc

/-- The thread holds `wait_lock`. -/
def holdsWait : Pc → Bool
  | reparent .. | reparentWakeup .. | exitWakeup .. | exitZombie .. => true
  | waitScan .. | waitKilled .. | waitSleep .. => true
  | getprocsScan .. | getprocsCopyout .. => true
  | _ => false

/-- The slot whose lock the thread holds. -/
def holdsSlot : Pc → Option Slot
  | allocPid np | allocTrapframe np | allocPagetable np | forkCopy np | forkDup np => some np
  | _ => none

/-- The slot the thread is setting up for a child. -/
def builds : Pc → Option Slot
  | allocPid np | allocTrapframe np | allocPagetable np | forkCopy np | forkDup np => some np
  | forkParent np _ | forkReady np _ => some np
  | _ => none

end Pc

/-- The system calls of the model with their arguments.  `getprocs` also carries what the
stack holds where its local `struct pinfo` will be. -/
inductive Syscall where
  | fork
  | exit (status : ℤ)
  | wait (addr : UInt64)
  | kill (pid : ℤ)
  | getprocs (maxCount : ℤ) (pi : Pinfo)

/-- The labels of the steps. -/
inductive Act where
  /-- The scheduler runs a process. -/
  | dispatch (p : Slot)
  /-- A process gives up its CPU. -/
  | yield (p : Slot)
  /-- A process enters a system call. -/
  | call (p : Slot) (c : Syscall)
  /-- A process takes its next step in a system call, with the outcome of the allocation or
  copy in that step, if there is one. -/
  | run (p : Slot) (ok : Bool)
  /-- A process sleeps on a channel of another part of the kernel. -/
  | sleepOn (p : Slot) (n : ℕ)
  /-- A process wakes a slot that sleeps on such a channel. -/
  | wakeOn (p : Slot) (n : ℕ) (q : Slot)
  /-- `kexec` names a process. -/
  | rename (p : Slot) (name : List UInt8)

/-- The process table, its locks, and the threads.  `allocated` counts the calls of
`allocpid`; no step depends on it. -/
structure Sys where
  proc : Slot → Proc
  nextpid : ℤ
  initproc : Slot
  waitLock : Option Slot
  lock : Slot → Option Slot
  pc : Slot → Pc
  panicked : Bool
  allocated : ℕ

namespace Sys

/-- The state `userinit` leaves: the first slot holds the first process. -/
def boot : Sys where
  proc := update (fun _ => Proc.zero) 0 { Proc.zero with pid := 1, state := .runnable }
  nextpid := 2
  initproc := 0
  waitLock := none
  lock := fun _ => none
  pc := fun _ => .user none
  panicked := false
  allocated := 1

def goto (s : Sys) (p : Slot) (pc : Pc) : Sys :=
  { s with pc := update s.pc p pc }

def setProc (s : Sys) (i : Slot) (pr : Proc) : Sys :=
  { s with proc := update s.proc i pr }

def setLock (s : Sys) (i : Slot) (holder : Option Slot) : Sys :=
  { s with lock := update s.lock i holder }

def setWait (s : Sys) (holder : Option Slot) : Sys :=
  { s with waitLock := holder }

/-- The failure exits of `allocproc` and `kfork`: `freeproc(np)`, release its lock, return
`-1`. -/
def abandon (s : Sys) (p np : Slot) : Sys :=
  ((s.setProc np (s.proc np).freeproc).setLock np none).goto p (.user (some (.fork (-1))))

/-- The entry `sys_getprocs` fills in for slot `i`, over the previous contents `pi` of the
local variable. -/
def entry (s : Sys) (i : Slot) (pi : Pinfo) : Pinfo where
  pid := (s.proc i).pid
  ppid := match (s.proc i).parent with
    | some q => (s.proc q).pid
    | none => -1
  state := (s.proc i).state.code
  name := safestrcpy pi.name (s.proc i).name 16

/-- One iteration of `wakeup(chan)`, at slot `j`, called by `p`. -/
def wakeupAt (s : Sys) (p j : Slot) (chan : Option Chan) : Option Sys :=
  if j = p then some s
  else if s.lock j = none then some (s.setProc j ((s.proc j).wakeup chan))
  else none

/-- Entering a system call. -/
def enter (s : Sys) (p : Slot) : Syscall → Sys
  | .fork => s.goto p (.allocScan 0)
  | .exit status =>
    if p = s.initproc then { s with panicked := true } else s.goto p (.exitWait status)
  | .wait addr => s.goto p (.waitWait addr)
  | .kill pid => s.goto p (.killScan pid 0)
  | .getprocs maxCount pi =>
    if maxCount ≤ 0 then s.goto p (.user (some (.getprocs maxCount (-1) [])))
    else s.goto p (.getprocsWait maxCount pi)

/-- The step of `kwait`'s scan at the slot `i`. -/
def waitAt (s : Sys) (p i : Slot) (addr : UInt64) (havekids ok : Bool) : Option Sys :=
  if (s.proc i).parent = some p then
    if s.lock i = none then
      if (s.proc i).state = .zombie then
        if addr ≠ 0 ∧ ok = false then
          some ((s.setWait none).goto p (.user (some (.wait (-1)))))
        else
          some (((s.setProc i (s.proc i).freeproc).setWait none).goto p
            (.user (some (.wait (s.proc i).pid))))
      else some (s.goto p (.waitScan addr (i + 1) true))
    else none
  else some (s.goto p (.waitScan addr (i + 1) havekids))

/-- The next step of the thread of `p`, which stands at the given place. -/
def advance (s : Sys) (p : Slot) (ok : Bool) : Pc → Option Sys
  | .user _ => none
  | .allocScan k =>
    if h : k < NPROC then
      let np : Slot := ⟨k, h⟩
      if s.lock np = none then
        if (s.proc np).state = .unused then
          some ((s.setLock np (some p)).goto p (.allocPid np))
        else some (s.goto p (.allocScan (k + 1)))
      else none
    else some (s.goto p (.user (some (.fork (-1)))))
  | .allocPid np =>
    some ({ s.setProc np { s.proc np with pid := s.nextpid, state := .used } with
      nextpid := intSucc s.nextpid, allocated := s.allocated + 1 }.goto p (.allocTrapframe np))
  | .allocTrapframe np =>
    some (if ok then s.goto p (.allocPagetable np) else s.abandon p np)
  | .allocPagetable np =>
    some (if ok then s.goto p (.forkCopy np) else s.abandon p np)
  | .forkCopy np =>
    some (if ok then s.goto p (.forkDup np) else s.abandon p np)
  | .forkDup np =>
    some (((s.setProc np { s.proc np with
      name := safestrcpy (s.proc np).name (s.proc p).name 16 }).setLock np none).goto p
        (.forkParent np (s.proc np).pid))
  | .forkParent np pid =>
    if s.waitLock = none then
      some ((s.setProc np { s.proc np with parent := some p }).goto p (.forkReady np pid))
    else none
  | .forkReady np pid =>
    if s.lock np = none then
      some ((s.setProc np { s.proc np with state := .runnable }).goto p
        (.user (some (.fork pid))))
    else none
  | .exitWait status =>
    if s.waitLock = none then some ((s.setWait (some p)).goto p (.reparent status 0))
    else none
  | .reparent status k =>
    if h : k < NPROC then
      let pp : Slot := ⟨k, h⟩
      if (s.proc pp).parent = some p then
        some ((s.setProc pp { s.proc pp with parent := some s.initproc }).goto p
          (.reparentWakeup status k 0))
      else some (s.goto p (.reparent status (k + 1)))
    else some (s.goto p (.exitWakeup status ((s.proc p).parent.map .proc) 0))
  | .reparentWakeup status k j =>
    if h : j < NPROC then
      (s.wakeupAt p ⟨j, h⟩ (some (.proc s.initproc))).map
        (·.goto p (.reparentWakeup status k (j + 1)))
    else some (s.goto p (.reparent status (k + 1)))
  | .exitWakeup status chan j =>
    if h : j < NPROC then
      (s.wakeupAt p ⟨j, h⟩ chan).map (·.goto p (.exitWakeup status chan (j + 1)))
    else some (s.goto p (.exitZombie status))
  | .exitZombie status =>
    if s.lock p = none then
      some (((s.setProc p { s.proc p with xstate := status, state := .zombie }).setWait none).goto
        p (.user none))
    else none
  | .waitWait addr =>
    if s.waitLock = none then some ((s.setWait (some p)).goto p (.waitScan addr 0 false))
    else none
  | .waitScan addr k havekids =>
    if h : k < NPROC then s.waitAt p ⟨k, h⟩ addr havekids ok
    else if havekids = false then some ((s.setWait none).goto p (.user (some (.wait (-1)))))
    else some (s.goto p (.waitKilled addr))
  | .waitKilled addr =>
    if s.lock p = none then
      if (s.proc p).killed then some ((s.setWait none).goto p (.user (some (.wait (-1)))))
      else some (s.goto p (.waitSleep addr))
    else none
  | .waitSleep addr =>
    if s.lock p = none then
      some (((s.setProc p { s.proc p with chan := some (.proc p), state := .sleeping }).setWait
        none).goto p (.waitWait addr))
    else none
  | .killScan pid k =>
    if h : k < NPROC then
      let q : Slot := ⟨k, h⟩
      if s.lock q = none then
        if (s.proc q).pid = pid then
          some ((s.setProc q (s.proc q).kill).goto p (.user (some (.kill 0))))
        else some (s.goto p (.killScan pid (k + 1)))
      else none
    else some (s.goto p (.user (some (.kill (-1)))))
  | .getprocsWait maxCount pi =>
    if s.waitLock = none then
      some ((s.setWait (some p)).goto p (.getprocsScan maxCount 0 pi []))
    else none
  | .getprocsScan maxCount k pi copied =>
    if h : k < NPROC ∧ (copied.length : ℤ) < maxCount then
      let q : Slot := ⟨k, h.1⟩
      if s.lock q = none then
        if (s.proc q).state = .unused then
          some (s.goto p (.getprocsScan maxCount (k + 1) pi copied))
        else some (s.goto p (.getprocsCopyout maxCount k (s.entry q pi) copied))
      else none
    else
      some ((s.setWait none).goto p
        (.user (some (.getprocs maxCount copied.length copied))))
  | .getprocsCopyout maxCount k pi copied =>
    if ok then some (s.goto p (.getprocsScan maxCount (k + 1) pi (copied ++ [pi])))
    else
      some ((s.setWait none).goto p (.user (some (.getprocs maxCount (-1) copied))))

/-- The effect of a label that is enabled. -/
def step (s : Sys) (a : Act) : Option Sys :=
  if s.panicked then none
  else match a with
  | .dispatch p =>
    if (s.proc p).state = .runnable ∧ s.lock p = none then
      some (s.setProc p { s.proc p with state := .running, chan := none })
    else none
  | .yield p =>
    -- interrupts are off while the thread holds a spinlock
    if (s.proc p).state = .running ∧ s.lock p = none ∧ (s.pc p).holdsWait = false
        ∧ (s.pc p).holdsSlot = none then
      some (s.setProc p { s.proc p with state := .runnable })
    else none
  | .call p c =>
    if (s.proc p).state = .running then
      match s.pc p with
      | .user _ => some (s.enter p c)
      | _ => none
    else none
  | .run p ok =>
    if (s.proc p).state = .running then s.advance p ok (s.pc p) else none
  | .sleepOn p n =>
    if (s.proc p).state = .running ∧ s.lock p = none then
      match s.pc p with
      | .user _ => some (s.setProc p { s.proc p with chan := some (.other n), state := .sleeping })
      | _ => none
    else none
  | .wakeOn p n q =>
    if (s.proc p).state = .running then
      match s.pc p with
      | .user _ => s.wakeupAt p q (some (.other n))
      | _ => none
    else none
  | .rename p name =>
    if (s.proc p).state = .running then
      match s.pc p with
      | .user _ => some (s.setProc p { s.proc p with name := safestrcpy (s.proc p).name name 16 })
      | _ => none
    else none

end Sys

/-- The processes as a transition system. -/
def procSystem : TransitionSystem Sys Act where
  init s := s = Sys.boot
  step := Sys.step

end Xv6
