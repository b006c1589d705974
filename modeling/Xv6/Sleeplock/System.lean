import Xv6.Lib.Mutex
import Xv6.Lib.TransitionSystem
import Xv6.Proc.Table

/-!
# Sleeping locks

Any number of processes call `acquiresleep`, `releasesleep` and `holdingsleep` on any number of
sleep-locks, and `kkill`.  A step runs from one acquisition of a spinlock to the next.
`lk->lk` is visible between two steps only while its holder is about to acquire `p->lock` in
`sleep`, or the lock of another process in `wakeup`.  `sleep` acquires `p->lock` before it releases
`lk->lk`, and gives it up when the process is marked as sleeping, so the lock of a process is held
between two steps only while the process falls asleep.

`releasesleep` is called by a process that has the lock.
-/

namespace Xv6

open Function

/-- The fields of `struct sleeplock` that the lock `lk->lk` protects. -/
structure SleepLock where
  locked : Bool
  pid : ℤ
  deriving DecidableEq

/-- Where a process stands in the functions of the sleep-locks `L`. -/
inductive SleepPc (L : Type) where
  /-- Outside, after `holdingsleep` with the given result. -/
  | idle (r : Option Bool)
  /-- `acquiresleep`: about to acquire `lk->lk`, at first or at the end of `sleep`. -/
  | acquire (l : L)
  /-- `acquiresleep`: `lk->locked` was set, about to acquire `p->lock` in `sleep`. -/
  | sleep (l : L)
  /-- `sleep`: with `p->lock` and without `lk->lk`. -/
  | fall (l : L)
  /-- `releasesleep`: about to acquire `lk->lk`. -/
  | release (l : L)
  /-- `releasesleep`: in `wakeup(lk)` at index `j`. -/
  | wake (l : L) (j : ℕ)
  /-- `holdingsleep`: about to acquire `lk->lk`. -/
  | holding (l : L)
  /-- `kkill`: about to acquire the lock of the process with index `k`. -/
  | kill (pid : ℤ) (k : ℕ)
  deriving DecidableEq

namespace SleepPc

variable {L : Type}

/-- The process holds the spinlock of `l`. -/
def spins (l : L) : SleepPc L → Prop
  | sleep l' | wake l' _ => l' = l
  | _ => False

/-- The process is about to sleep on `l` and holds its own lock. -/
def falls : SleepPc L → Option L
  | fall l => some l
  | _ => none

/-- The process is outside of the functions. -/
def isIdle : SleepPc L → Bool
  | idle _ => true
  | _ => false

/-- The process holds no spinlock, so that interrupts are on. -/
def interruptible : SleepPc L → Bool
  | sleep _ | fall _ | wake .. => false
  | _ => true

end SleepPc

/-- The fields of `struct proc` that matter. -/
structure SleepProc (L : Type) where
  state : ProcState
  chan : Option L
  killed : Bool
  pid : ℤ
  deriving DecidableEq

namespace SleepProc

variable {L : Type} [DecidableEq L]

/-- What `wakeup(lk)` does to a process. -/
def wakeup (l : L) (p : SleepProc L) : SleepProc L :=
  if p.state = .sleeping ∧ p.chan = some l then { p with state := .runnable } else p

/-- What `kkill` does to the process it looks for. -/
def kill (p : SleepProc L) : SleepProc L :=
  { p with killed := true, state := if p.state = .sleeping then .runnable else p.state }

end SleepProc

/-- The sleep-locks `L` and `n` processes.  `owns p` are the locks for which `p` has come through
`acquiresleep` and not yet to the part of `releasesleep` that unlocks; it says which processes may
call `releasesleep` and exit, and no other step depends on it. -/
structure SleepSys (n : ℕ) (L : Type) where
  lk : L → SleepLock
  spin : L → Option (Fin n)
  proc : Fin n → SleepProc L
  pc : Fin n → SleepPc L
  owns : Fin n → Finset L

/-- The labels of the steps. -/
inductive SleepAct (n : ℕ) (L : Type) where
  /-- A process calls `acquiresleep`. -/
  | acquire (p : Fin n) (l : L)
  /-- A process calls `releasesleep`. -/
  | release (p : Fin n) (l : L)
  /-- A process calls `holdingsleep`. -/
  | holding (p : Fin n) (l : L)
  /-- A process calls `kkill`. -/
  | kill (p : Fin n) (pid : ℤ)
  /-- A process takes its next step. -/
  | run (p : Fin n)
  /-- A process gives up its CPU. -/
  | yield (p : Fin n)
  /-- The scheduler runs a process. -/
  | dispatch (p : Fin n)
  /-- The slot of a process is used for a new one. -/
  | replace (p : Fin n) (pid : ℤ)

namespace SleepSys

variable {n : ℕ} {L : Type} [DecidableEq L]

/-- The locks after `initsleeplock`, with processes that have not used them. -/
def Fresh (s : SleepSys n L) : Prop :=
  (∀ l, s.lk l = ⟨false, 0⟩) ∧ (∀ l, s.spin l = none)
    ∧ (∀ p, (s.proc p).state ≠ .sleeping ∧ ∃ r, s.pc p = .idle r) ∧ ∀ p, s.owns p = ∅

def goto (s : SleepSys n L) (p : Fin n) (pc : SleepPc L) : SleepSys n L :=
  { s with pc := update s.pc p pc }

def setProc (s : SleepSys n L) (p : Fin n) (pr : SleepProc L) : SleepSys n L :=
  { s with proc := update s.proc p pr }

def setSpin (s : SleepSys n L) (l : L) (holder : Option (Fin n)) : SleepSys n L :=
  { s with spin := update s.spin l holder }

/-- Set `lk->locked` and `lk->pid`, and record which locks the process has. -/
def setLock (s : SleepSys n L) (l : L) (lk : SleepLock) (p : Fin n) (owns : Finset L) : SleepSys n L :=
  { s with lk := update s.lk l lk, owns := update s.owns p owns }

/-- The next step of the process `p`, which stands at the given place. -/
def advance (s : SleepSys n L) (p : Fin n) : SleepPc L → Option (SleepSys n L)
  | .idle _ => none
  | .acquire l =>
    if s.spin l = none then
      if (s.lk l).locked then some ((s.setSpin l (some p)).goto p (.sleep l))
      else some ((s.setLock l ⟨true, (s.proc p).pid⟩ p (insert l (s.owns p))).goto p (.idle none))
    else none
  | .sleep l => some ((s.setSpin l none).goto p (.fall l))
  | .fall l =>
    some ((s.setProc p { s.proc p with chan := some l, state := .sleeping }).goto p (.acquire l))
  | .release l =>
    if s.spin l = none then
      some (((s.setLock l ⟨false, 0⟩ p ((s.owns p).erase l)).setSpin l (some p)).goto p (.wake l 0))
    else none
  | .wake l j =>
    if h : j < n then
      if ⟨j, h⟩ = p then some (s.goto p (.wake l (j + 1)))
      else if (s.pc ⟨j, h⟩).falls = none then
        some ((s.setProc ⟨j, h⟩ ((s.proc ⟨j, h⟩).wakeup l)).goto p (.wake l (j + 1)))
      else none
    else some ((s.setSpin l none).goto p (.idle none))
  | .holding l =>
    if s.spin l = none then
      some (s.goto p (.idle (some ((s.lk l).locked && decide ((s.lk l).pid = (s.proc p).pid)))))
    else none
  | .kill pid k =>
    if h : k < n then
      if (s.pc ⟨k, h⟩).falls = none then
        if (s.proc ⟨k, h⟩).pid = pid then
          some ((s.setProc ⟨k, h⟩ (s.proc ⟨k, h⟩).kill).goto p (.idle none))
        else some (s.goto p (.kill pid (k + 1)))
      else none
    else some (s.goto p (.idle none))

/-- The process is running outside of the functions. -/
def Ready (s : SleepSys n L) (p : Fin n) : Prop :=
  (s.proc p).state = .running ∧ (s.pc p).isIdle = true

instance (s : SleepSys n L) (p : Fin n) : Decidable (s.Ready p) :=
  inferInstanceAs (Decidable (_ ∧ _))

/-- The effect of a label that is enabled. -/
def step (s : SleepSys n L) : SleepAct n L → Option (SleepSys n L)
  | .acquire p l => if s.Ready p then some (s.goto p (.acquire l)) else none
  | .release p l => if s.Ready p ∧ l ∈ s.owns p then some (s.goto p (.release l)) else none
  | .holding p l => if s.Ready p then some (s.goto p (.holding l)) else none
  | .kill p pid => if s.Ready p then some (s.goto p (.kill pid 0)) else none
  | .run p => if (s.proc p).state = .running then s.advance p (s.pc p) else none
  | .yield p =>
    if (s.proc p).state = .running ∧ (s.pc p).interruptible = true then
      some (s.setProc p { s.proc p with state := .runnable })
    else none
  | .dispatch p =>
    if (s.proc p).state = .runnable ∧ (s.pc p).falls = none then
      some (s.setProc p { s.proc p with state := .running, chan := none })
    else none
  | .replace p pid =>
    if s.Ready p ∧ s.owns p = ∅ then
      some (s.setProc p { state := .running, chan := none, killed := false, pid })
    else none

end SleepSys

/-- The sleep-locks as a transition system. -/
def sleeplockSystem (n : ℕ) (L : Type) [DecidableEq L] : TransitionSystem (SleepSys n L) (SleepAct n L) where
  init := SleepSys.Fresh
  step := SleepSys.step

end Xv6
