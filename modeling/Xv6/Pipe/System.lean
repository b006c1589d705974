import Xv6.Lib.RingBuffer
import Xv6.Lib.TransitionSystem
import Xv6.Proc.Table

/-!
# Processes sharing a pipe

Any number of processes read from a pipe, write to it and close its ends.  A step runs from
one acquisition of a lock to the next: `killed` acquires `p->lock`, `wakeup` acquires the
locks of the processes one after the other, and `sleep` acquires `p->lock` before it
releases `pi->lock`, and releases it when the process is marked as sleeping.  The other
processes see an access to the pipe only when `pi->lock` is free, but every byte that is
moved is a step.  A process may be killed at any time that its lock is free.

A system call on an end of the pipe is made by a process that has the end open, and
`fileclose` calls `pipeclose` when nobody has the end open any more.  Whether a byte can be
copied from or to user space is part of the label of a step.
-/

namespace Xv6

open Function

/-- The channels on which processes sleep for a pipe. -/
inductive PipeChan where
  | nread
  | nwrite
  deriving DecidableEq

/-- A call of `pipewrite`: its number among the calls of the process, the count, and the
bytes written so far.  No step depends on `dirty`, which says that a byte has been stored
since `pi->lock` was acquired and nobody woken since. -/
structure WriteCall where
  call : ℕ
  n : ℤ
  i : ℕ
  dirty : Bool

/-- A call of `piperead`: the count, and the bytes read so far. -/
structure ReadCall where
  n : ℤ
  i : ℕ

/-- Where a process stands in the functions of the pipe. -/
inductive PipePc where
  /-- Outside, after the call with the given result. -/
  | idle (r : Option ℤ)
  /-- `pipewrite`: about to acquire `pi->lock`. -/
  | writeEnter (w : WriteCall)
  /-- `pipewrite`: at the head of the loop. -/
  | writeTest (w : WriteCall)
  /-- `pipewrite`: about to call `killed`. -/
  | writeKilled (w : WriteCall)
  /-- `pipewrite`: about to store a byte, or to find the pipe full. -/
  | writeStore (w : WriteCall)
  /-- `pipewrite`: the pipe is full, in `wakeup(&pi->nread)`. -/
  | writeFull (w : WriteCall) (j : ℕ)
  /-- `pipewrite`: about to acquire `p->lock` in `sleep`. -/
  | writeSleep (w : WriteCall)
  /-- `pipewrite`: in `sleep`, with `p->lock` and without `pi->lock`. -/
  | writeFall (w : WriteCall)
  /-- `pipewrite`: in the last `wakeup(&pi->nread)`. -/
  | writeWakeup (w : WriteCall) (j : ℕ)
  /-- `piperead`: about to acquire `pi->lock`. -/
  | readEnter (n : ℤ)
  /-- `piperead`: at the head of the loop that waits. -/
  | readTest (n : ℤ)
  /-- `piperead`: about to call `killed`. -/
  | readKilled (n : ℤ)
  /-- `piperead`: about to acquire `p->lock` in `sleep`. -/
  | readSleep (n : ℤ)
  /-- `piperead`: in `sleep`, with `p->lock` and without `pi->lock`. -/
  | readFall (n : ℤ)
  /-- `piperead`: in the loop that copies. -/
  | readCopy (r : ReadCall)
  /-- `piperead`: in `wakeup(&pi->nwrite)`, about to return `ret`. -/
  | readWakeup (n ret : ℤ) (j : ℕ)
  /-- `pipeclose`: about to acquire `pi->lock`. -/
  | closeEnter (writable : Bool)
  /-- `pipeclose`: in `wakeup`. -/
  | closeWakeup (writable : Bool) (j : ℕ)

namespace PipePc

/-- The process holds `pi->lock`. -/
def holds : PipePc → Prop
  | writeTest _ | writeKilled _ | writeStore _ | writeFull .. | writeSleep _ | writeWakeup .. => True
  | readTest _ | readKilled _ | readSleep _ | readCopy _ | readWakeup .. => True
  | closeWakeup .. => True
  | _ => False

/-- The channel on which the process is about to sleep, holding `p->lock`. -/
def falls : PipePc → Option PipeChan
  | writeFall _ => some .nwrite
  | readFall _ => some .nread
  | _ => none

/-- The process is in a call on the given end. -/
def uses : PipePc → Bool → Bool
  | idle _, _ => false
  | writeEnter _, w | writeTest _, w | writeKilled _, w | writeStore _, w => w
  | writeFull .., w | writeSleep _, w | writeFall _, w | writeWakeup .., w => w
  | readEnter _, w | readTest _, w | readKilled _, w | readSleep _, w => !w
  | readFall _, w | readCopy _, w | readWakeup .., w => !w
  | closeEnter v, w | closeWakeup v _, w => v == w

/-- The process is in `pipeclose` for the given end. -/
def closes : PipePc → Bool → Bool
  | closeEnter v, w | closeWakeup v _, w => v == w
  | _, _ => false

/-- The call of `pipewrite` that the process is in. -/
def writing : PipePc → Option WriteCall
  | writeEnter w | writeTest w | writeKilled w | writeStore w => some w
  | writeFull w _ | writeSleep w | writeFall w | writeWakeup w _ => some w
  | _ => none

/-- The count of the call of `piperead` that the process is in. -/
def reading : PipePc → Option ℤ
  | readEnter n | readTest n | readKilled n | readSleep n | readFall n => some n
  | readCopy r => some r.n
  | readWakeup n _ _ => some n
  | _ => none

end PipePc

/-- The fields of `struct proc` that matter. -/
structure PipeProc where
  state : ProcState
  chan : Option PipeChan
  killed : Bool

/-- What `wakeup(chan)` does to a process. -/
def PipeProc.wakeup (chan : PipeChan) (p : PipeProc) : PipeProc :=
  if p.state = .sleeping ∧ p.chan = some chan then { p with state := .runnable } else p

/-- What `kkill` does to a process. -/
def PipeProc.kill (p : PipeProc) : PipeProc :=
  { p with killed := true, state := if p.state = .sleeping then .runnable else p.state }

/-- A byte stored by `pipewrite`, with the process and the number of the call. -/
structure Stored where
  writer : Slot
  call : ℕ
  byte : UInt8

/-- A pipe and the processes.  `buffer p c` is the user's buffer of call `c` of `p`; no step
depends on `stored` and `delivered`, the bytes moved so far. -/
structure PipeSys where
  proc : Slot → PipeProc
  pc : Slot → PipePc
  lock : Option Slot
  ring : RingBuffer UInt8
  readopen : Bool
  writeopen : Bool
  buffer : Slot → ℕ → ℕ → UInt8
  calls : Slot → ℕ
  stored : List Stored
  delivered : List UInt8

/-- The labels of the steps. -/
inductive PipeAct where
  /-- A process calls `pipewrite`. -/
  | write (p : Slot) (buf : ℕ → UInt8) (n : ℤ)
  /-- A process calls `piperead`. -/
  | read (p : Slot) (n : ℤ)
  /-- A process closes the last reference to an end. -/
  | close (p : Slot) (writable : Bool)
  /-- A process takes its next step, with the outcome of the copy in it, if there is one. -/
  | run (p : Slot) (ok : Bool)
  /-- `kkill` reaches a process. -/
  | kill (q : Slot)
  /-- The scheduler runs a process. -/
  | dispatch (q : Slot)
  /-- The slot of a process is used for a new one. -/
  | replace (q : Slot)

namespace PipeSys

/-- The state `pipealloc` leaves. -/
def Fresh (s : PipeSys) : Prop :=
  (∀ p, (s.proc p).state = .running ∧ (s.proc p).chan = none) ∧ (∀ p, ∃ r, s.pc p = .idle r)
    ∧ s.lock = none ∧ s.ring.nread = 0 ∧ s.ring.nwrite = 0 ∧ s.readopen = true
    ∧ s.writeopen = true ∧ s.calls = (fun _ => 0) ∧ s.stored = [] ∧ s.delivered = []

def goto (s : PipeSys) (p : Slot) (pc : PipePc) : PipeSys :=
  { s with pc := update s.pc p pc }

theorem goto_self (s : PipeSys) (p : Slot) (pc : PipePc) : (s.goto p pc).pc p = pc :=
  update_self _ _ _

theorem goto_of_ne (s : PipeSys) {p q : Slot} (hq : q ≠ p) (pc : PipePc) :
  (s.goto p pc).pc q = s.pc q
  := update_of_ne hq _ _

def setProc (s : PipeSys) (p : Slot) (pr : PipeProc) : PipeSys :=
  { s with proc := update s.proc p pr }

def setLock (s : PipeSys) (holder : Option Slot) : PipeSys := { s with lock := holder }

/-- Acquire `pi->lock`, if it is free. -/
def enter (s : PipeSys) (p : Slot) (pc : PipePc) : Option PipeSys :=
  if s.lock = none then some ((s.setLock (some p)).goto p pc) else none

/-- Release `pi->lock` and return. -/
def leave (s : PipeSys) (p : Slot) (ret : ℤ) : PipeSys := (s.setLock none).goto p (.idle (some ret))

/-- Store a byte of the user's buffer. -/
def push (s : PipeSys) (p : Slot) (w : WriteCall) : PipeSys :=
  { s with
    ring := s.ring.push PIPESIZE (2 ^ 32) (s.buffer p w.call w.i)
    stored := s.stored ++ [⟨p, w.call, s.buffer p w.call w.i⟩] }

/-- Take a byte out, which has been copied to the user. -/
def pop (s : PipeSys) : PipeSys :=
  { s with ring := s.ring.pop (2 ^ 32), delivered := s.delivered ++ [s.ring.front PIPESIZE] }

/-- Close an end. -/
def shut (s : PipeSys) (writable : Bool) : PipeSys :=
  if writable then { s with writeopen := false } else { s with readopen := false }

/-- One iteration of `wakeup(chan)`, at slot `j`, called by `p`. -/
def wakeupAt (s : PipeSys) (p j : Slot) (chan : PipeChan) : Option PipeSys :=
  if j = p then some s
  else if (s.pc j).falls = none then some (s.setProc j ((s.proc j).wakeup chan))
  else none

/-- `wakeup(chan)`, at index `j`: an iteration and then `next`, or `done` behind the last. -/
def wakeupLoop (s : PipeSys) (p : Slot) (chan : PipeChan) (j : ℕ) (next : PipePc)
    (done : PipeSys) : Option PipeSys :=
  if h : j < NPROC then (s.wakeupAt p ⟨j, h⟩ chan).map (·.goto p next) else some done

/-- The next step of the process `p`, which stands at the given place. -/
def advance (s : PipeSys) (p : Slot) (ok : Bool) : PipePc → Option PipeSys
  | .idle _ => none
  | .writeEnter w => s.enter p (.writeTest { w with dirty := false })
  | .writeTest w =>
    if w.i < w.n then
      if s.readopen = false then some (s.leave p (-1)) else some (s.goto p (.writeKilled w))
    else some (s.goto p (.writeWakeup w 0))
  | .writeKilled w =>
    if (s.proc p).killed then some (s.leave p (-1)) else some (s.goto p (.writeStore w))
  | .writeStore w =>
    if s.ring.Full PIPESIZE (2 ^ 32) then some (s.goto p (.writeFull w 0))
    else if ok then
      some ((s.push p w).goto p (.writeTest { w with i := w.i + 1, dirty := true }))
    else some (s.goto p (.writeWakeup w 0))
  | .writeFull w j =>
    s.wakeupLoop p .nread j (.writeFull w (j + 1)) (s.goto p (.writeSleep w))
  | .writeSleep w => some ((s.setLock none).goto p (.writeFall w))
  | .writeFall w =>
    some ((s.setProc p { s.proc p with chan := some .nwrite, state := .sleeping }).goto p
      (.writeEnter w))
  | .writeWakeup w j => s.wakeupLoop p .nread j (.writeWakeup w (j + 1)) (s.leave p w.i)
  | .readEnter n => s.enter p (.readTest n)
  | .readTest n =>
    if s.ring.Empty ∧ s.writeopen = true then some (s.goto p (.readKilled n))
    else some (s.goto p (.readCopy { n, i := 0 }))
  | .readKilled n =>
    if (s.proc p).killed then some (s.leave p (-1)) else some (s.goto p (.readSleep n))
  | .readSleep n => some ((s.setLock none).goto p (.readFall n))
  | .readFall n =>
    some ((s.setProc p { s.proc p with chan := some .nread, state := .sleeping }).goto p
      (.readEnter n))
  | .readCopy r =>
    if r.i < r.n then
      if s.ring.Empty then some (s.goto p (.readWakeup r.n r.i 0))
      else if ok then some (s.pop.goto p (.readCopy { r with i := r.i + 1 }))
      else some (s.goto p (.readWakeup r.n (if r.i = 0 then -1 else r.i) 0))
    else some (s.goto p (.readWakeup r.n r.i 0))
  | .readWakeup n ret j => s.wakeupLoop p .nwrite j (.readWakeup n ret (j + 1)) (s.leave p ret)
  | .closeEnter writable => (s.shut writable).enter p (.closeWakeup writable 0)
  | .closeWakeup writable j =>
    s.wakeupLoop p (if writable then .nread else .nwrite) j (.closeWakeup writable (j + 1))
      (s.leave p 0)

/-- An end of the pipe is open. -/
def isOpen (s : PipeSys) (writable : Bool) : Bool := if writable then s.writeopen else s.readopen

/-- Somebody has the end open. -/
def Referred (s : PipeSys) (writable : Bool) : Prop :=
  s.isOpen writable = true ∧ ∀ q, (s.pc q).closes writable = false

instance (s : PipeSys) (writable : Bool) : Decidable (s.Referred writable) :=
  inferInstanceAs (Decidable (_ ∧ _))

/-- The process is running outside of the functions of the pipe. -/
def Ready (s : PipeSys) (p : Slot) : Prop :=
  (s.proc p).state = .running ∧ ∃ r, s.pc p = .idle r

instance (s : PipeSys) (p : Slot) : Decidable (s.Ready p) :=
  match h : s.pc p with
  | .idle r => decidable_of_iff ((s.proc p).state = .running)
      ⟨fun hr => ⟨hr, r, h⟩, fun hr => hr.1⟩
  | .writeEnter _ | .writeTest _ | .writeKilled _ | .writeStore _ | .writeFull .. | .writeSleep _
  | .writeFall _ | .writeWakeup .. | .readEnter _ | .readTest _ | .readKilled _ | .readSleep _
  | .readFall _ | .readCopy _ | .readWakeup .. | .closeEnter _ | .closeWakeup .. =>
    .isFalse (fun hr => by obtain ⟨r, hr⟩ := hr.2; rw [h] at hr; cases hr)

/-- The effect of a label that is enabled. -/
def step (s : PipeSys) : PipeAct → Option PipeSys
  | .write p buf n =>
    if s.Ready p ∧ s.Referred true then
      some ({ s with
        buffer := update s.buffer p (update (s.buffer p) (s.calls p) buf)
        calls := update s.calls p (s.calls p + 1) }.goto p
          (.writeEnter { call := s.calls p, n, i := 0, dirty := false }))
    else none
  | .read p n =>
    if s.Ready p ∧ s.Referred false then some (s.goto p (.readEnter n)) else none
  | .close p writable =>
    if s.Ready p ∧ s.isOpen writable = true ∧ ∀ q, (s.pc q).uses writable = false then
      some (s.goto p (.closeEnter writable))
    else none
  | .run p ok => if (s.proc p).state = .running then s.advance p ok (s.pc p) else none
  | .kill q => if (s.pc q).falls = none then some (s.setProc q (s.proc q).kill) else none
  | .dispatch q =>
    if (s.proc q).state = .runnable then
      some (s.setProc q { s.proc q with state := .running, chan := none })
    else none
  | .replace q =>
    if s.Ready q then some (s.setProc q { state := .running, chan := none, killed := false })
    else none

end PipeSys

/-- A pipe as a transition system. -/
def pipeSystem : TransitionSystem PipeSys PipeAct where
  init := PipeSys.Fresh
  step := PipeSys.step

end Xv6
