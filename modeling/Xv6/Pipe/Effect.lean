import Xv6.Lib.Mutex
import Xv6.Pipe.System

/-!
# The effect of a step on a pipe

Every step of a process is one of a dozen effects, and the other steps change the state of one
process (`PipeSys.step_effect`).  The relations `PipeMoves`,
`PipeWakes`, `PipeLeaves` and `PipeFalls` list the places between which a process moves
while it changes nothing, wakes a process, leaves with the lock, or is about to sleep.
-/

namespace Xv6

open Function

/-- Moves of a process with `pi->lock` that change nothing else. -/
inductive PipeMoves (s : PipeSys) (p : Slot) : PipePc → PipePc → Prop where
  | check (w : WriteCall) : w.i < w.n → s.readopen = true →
      PipeMoves s p (.writeTest w) (.writeKilled w)
  | finish (w : WriteCall) : PipeMoves s p (.writeTest w) (.writeWakeup w 0)
  | alive (w : WriteCall) : (s.proc p).killed = false →
      PipeMoves s p (.writeKilled w) (.writeStore w)
  | full (w : WriteCall) : s.ring.Full PIPESIZE (2 ^ 32) →
      PipeMoves s p (.writeStore w) (.writeFull w 0)
  | fault (w : WriteCall) : PipeMoves s p (.writeStore w) (.writeWakeup w 0)
  | drowsy (w : WriteCall) (j : ℕ) : NPROC ≤ j → PipeMoves s p (.writeFull w j) (.writeSleep w)
  | wait (n : ℤ) : s.ring.Empty → s.writeopen = true → PipeMoves s p (.readTest n) (.readKilled n)
  | start (n : ℤ) : ¬ (s.ring.Empty ∧ s.writeopen = true) →
      PipeMoves s p (.readTest n) (.readCopy { n, i := 0 })
  | unkilled (n : ℤ) : PipeMoves s p (.readKilled n) (.readSleep n)
  | drained (r : ReadCall) : r.i < r.n → s.ring.Empty →
      PipeMoves s p (.readCopy r) (.readWakeup r.n r.i 0)
  | refused (r : ReadCall) (ret : ℤ) : ret ≠ 0 → PipeMoves s p (.readCopy r) (.readWakeup r.n ret 0)
  | enough (r : ReadCall) : ¬ r.i < r.n → PipeMoves s p (.readCopy r) (.readWakeup r.n r.i 0)

/-- The iterations of `wakeup`, with the channel and the index. -/
inductive PipeWakes : PipeChan → ℕ → PipePc → PipePc → Prop where
  | full (w : WriteCall) (j : ℕ) : PipeWakes .nread j (.writeFull w j) (.writeFull w (j + 1))
  | write (w : WriteCall) (j : ℕ) : PipeWakes .nread j (.writeWakeup w j) (.writeWakeup w (j + 1))
  | read (n ret : ℤ) (j : ℕ) : PipeWakes .nwrite j (.readWakeup n ret j) (.readWakeup n ret (j + 1))
  | close (writable : Bool) (j : ℕ) : PipeWakes (if writable then .nread else .nwrite) j
      (.closeWakeup writable j) (.closeWakeup writable (j + 1))

/-- The places where a process releases `pi->lock` and returns. -/
inductive PipeLeaves (s : PipeSys) (p : Slot) : PipePc → ℤ → Prop where
  | closed (w : WriteCall) : w.i < w.n → s.readopen = false → PipeLeaves s p (.writeTest w) (-1)
  | writeKilled (w : WriteCall) : (s.proc p).killed = true → PipeLeaves s p (.writeKilled w) (-1)
  | write (w : WriteCall) (j : ℕ) : NPROC ≤ j → PipeLeaves s p (.writeWakeup w j) w.i
  | readKilled (n : ℤ) : PipeLeaves s p (.readKilled n) (-1)
  | read (n ret : ℤ) (j : ℕ) : NPROC ≤ j → PipeLeaves s p (.readWakeup n ret j) ret
  | close (writable : Bool) (j : ℕ) : NPROC ≤ j → PipeLeaves s p (.closeWakeup writable j) 0

/-- The places where `pi->lock` is acquired, without a change of the pipe. -/
inductive PipeEnters : PipePc → PipePc → Prop where
  | write (w : WriteCall) : PipeEnters (.writeEnter w) (.writeTest { w with dirty := false })
  | read (n : ℤ) : PipeEnters (.readEnter n) (.readTest n)

/-- The places where `sleep` acquires `p->lock` and releases `pi->lock`. -/
inductive PipeFalls : PipePc → PipePc → Prop where
  | write (w : WriteCall) : PipeFalls (.writeSleep w) (.writeFall w)
  | read (n : ℤ) : PipeFalls (.readSleep n) (.readFall n)

/-- The places where `sleep` gives up the CPU, with the channel. -/
inductive PipeSleeps : PipeChan → PipePc → PipePc → Prop where
  | write (w : WriteCall) : PipeSleeps .nwrite (.writeFall w) (.writeEnter w)
  | read (n : ℤ) : PipeSleeps .nread (.readFall n) (.readEnter n)

/-- What others do to a process: it does not fall asleep by that, and stays where it is. -/
structure Rescheduled (s : PipeSys) (q : Slot) (pr : PipeProc) : Prop where
  awake : pr.state = .sleeping → pr.state = (s.proc q).state ∧ pr.chan = (s.proc q).chan

/-- What a step of the process `p` does. -/
inductive ThreadEffect (s : PipeSys) (p : Slot) : PipeSys → Prop where
  | call (buf : ℕ → UInt8) (n : ℤ) (r : Option ℤ) : s.pc p = .idle r → s.Referred true →
      ThreadEffect s p ({ s with
        buffer := update s.buffer p (update (s.buffer p) (s.calls p) buf)
        calls := update s.calls p (s.calls p + 1) }.goto p
          (.writeEnter { call := s.calls p, n, i := 0, dirty := false }))
  | read (n : ℤ) (r : Option ℤ) : s.pc p = .idle r → s.Referred false →
      ThreadEffect s p (s.goto p (.readEnter n))
  | close (writable : Bool) (r : Option ℤ) : s.pc p = .idle r →
      (∀ q, (s.pc q).uses writable = false) → ThreadEffect s p (s.goto p (.closeEnter writable))
  | enter (pc : PipePc) : s.lock = none → PipeEnters (s.pc p) pc →
      ThreadEffect s p ((s.setLock (some p)).goto p pc)
  | shut (writable : Bool) : s.lock = none → s.pc p = .closeEnter writable →
      ThreadEffect s p (((s.shut writable).setLock (some p)).goto p (.closeWakeup writable 0))
  | move (pc : PipePc) : PipeMoves s p (s.pc p) pc → ThreadEffect s p (s.goto p pc)
  | store (w : WriteCall) : s.pc p = .writeStore w → ¬ s.ring.Full PIPESIZE (2 ^ 32) →
      ThreadEffect s p ((s.push p w).goto p (.writeTest { w with i := w.i + 1, dirty := true }))
  | take (r : ReadCall) : s.pc p = .readCopy r → ¬ s.ring.Empty →
      ThreadEffect s p (s.pop.goto p (.readCopy { r with i := r.i + 1 }))
  | wake (j : Slot) (chan : PipeChan) (pc : PipePc) : PipeWakes chan j (s.pc p) pc → j ≠ p →
      (s.pc j).falls = none → ThreadEffect s p ((s.setProc j ((s.proc j).wakeup chan)).goto p pc)
  | skip (chan : PipeChan) (pc : PipePc) : PipeWakes chan p (s.pc p) pc →
      ThreadEffect s p (s.goto p pc)
  | leave (ret : ℤ) : PipeLeaves s p (s.pc p) ret → ThreadEffect s p (s.leave p ret)
  | fall (pc : PipePc) : PipeFalls (s.pc p) pc → ThreadEffect s p ((s.setLock none).goto p pc)
  | sleep (chan : PipeChan) (pc : PipePc) : PipeSleeps chan (s.pc p) pc → ThreadEffect s p
      ((s.setProc p { s.proc p with chan := some chan, state := .sleeping }).goto p pc)

/-- The process that takes the step, if one does. -/
def PipeAct.mover : PipeAct → Option Slot
  | .write p .. | .read p _ | .close p _ | .run p _ => some p
  | _ => none

/-- What the steps do. -/
inductive PipeEffect (s : PipeSys) : Option Slot → PipeSys → Prop where
  | thread (p : Slot) (s' : PipeSys) : (s.proc p).state = .running → ThreadEffect s p s' →
      PipeEffect s (some p) s'
  | resched (q : Slot) (pr : PipeProc) : Rescheduled s q pr → PipeEffect s none (s.setProc q pr)

namespace PipeSys

variable {s s' : PipeSys} {p : Slot}

theorem enter_effect {pc : PipePc} (hpc : PipeEnters (s.pc p) pc) (h : s.enter p pc = some s') :
  ThreadEffect s p s'
  := by
  unfold enter at h
  split_ifs at h with hlock
  cases h
  exact .enter pc hlock hpc

/-- An iteration of `wakeup`, or what follows the last one. -/
theorem wakeupLoop_effect {chan : PipeChan} {j : ℕ} {next : PipePc} {done : PipeSys}
    (hwake : PipeWakes chan j (s.pc p) next) (hdone : NPROC ≤ j → ThreadEffect s p done)
    (h : s.wakeupLoop p chan j next done = some s') :
  ThreadEffect s p s'
  := by
  unfold wakeupLoop at h
  split_ifs at h with hj
  · unfold wakeupAt at h
    split_ifs at h with hp hfalls
    · cases h
      subst hp
      exact .skip chan next hwake
    · cases h
      exact .wake ⟨j, hj⟩ chan next hwake hp hfalls
    · cases h
  · cases h
    exact hdone (Nat.le_of_not_lt hj)

theorem advance_effect {ok : Bool} (h : s.advance p ok (s.pc p) = some s') : ThreadEffect s p s' := by
  cases hpc : s.pc p with rw [hpc] at h
  | idle r => cases h
  | writeEnter w =>
    exact enter_effect (hpc ▸ .write w) h
  | writeTest w =>
    rw [advance] at h
    split_ifs at h with hn hopen
    · cases h
      exact .leave (-1) (hpc ▸ .closed w hn hopen)
    · cases h
      exact .move _ (hpc ▸ .check w hn (by simpa using hopen))
    · cases h
      exact .move _ (hpc ▸ .finish w)
  | writeKilled w =>
    rw [advance] at h
    split_ifs at h with hkilled
    · cases h
      exact .leave (-1) (hpc ▸ .writeKilled w hkilled)
    · cases h
      exact .move _ (hpc ▸ .alive w (by simpa using hkilled))
  | writeStore w =>
    rw [advance] at h
    split_ifs at h with hfull hok
    · cases h
      exact .move _ (hpc ▸ .full w hfull)
    · cases h
      exact .store w hpc hfull
    · cases h
      exact .move _ (hpc ▸ .fault w)
  | writeFull w j =>
    apply wakeupLoop_effect (hpc ▸ .full w j) _ h
    intro hj
    exact .move _ (hpc ▸ .drowsy w j hj)
  | writeSleep w =>
    cases h
    exact .fall _ (hpc ▸ .write w)
  | writeFall w =>
    cases h
    exact .sleep _ _ (hpc ▸ .write w)
  | writeWakeup w j =>
    apply wakeupLoop_effect (hpc ▸ .write w j) _ h
    intro hj
    exact .leave w.i (hpc ▸ .write w j hj)
  | readEnter n =>
    exact enter_effect (hpc ▸ .read n) h
  | readTest n =>
    rw [advance] at h
    split_ifs at h with hwait
    · cases h
      exact .move _ (hpc ▸ .wait n hwait.1 hwait.2)
    · cases h
      exact .move _ (hpc ▸ .start n hwait)
  | readKilled n =>
    rw [advance] at h
    split_ifs at h with hkilled
    · cases h
      exact .leave (-1) (hpc ▸ .readKilled n)
    · cases h
      exact .move _ (hpc ▸ .unkilled n)
  | readSleep n =>
    cases h
    exact .fall _ (hpc ▸ .read n)
  | readFall n =>
    cases h
    exact .sleep _ _ (hpc ▸ .read n)
  | readCopy r =>
    rw [advance] at h
    split_ifs at h with hn hempty hok hzero
    · cases h
      exact .move _ (hpc ▸ .drained r hn hempty)
    · cases h
      exact .take r hpc hempty
    · cases h
      exact .move _ (hpc ▸ .refused r (-1) (by decide))
    · cases h
      exact .move _ (hpc ▸ .refused r r.i (by exact_mod_cast hzero))
    · cases h
      exact .move _ (hpc ▸ .enough r hn)
  | readWakeup n ret j =>
    apply wakeupLoop_effect (hpc ▸ .read n ret j) _ h
    intro hj
    exact .leave ret (hpc ▸ .read n ret j hj)
  | closeEnter writable =>
    rw [advance, enter] at h
    split_ifs at h with hlock
    cases h
    apply ThreadEffect.shut writable _ hpc
    unfold shut at hlock
    split_ifs at hlock <;> exact hlock
  | closeWakeup writable j =>
    apply wakeupLoop_effect (hpc ▸ .close writable j) _ h
    intro hj
    exact .leave 0 (hpc ▸ .close writable j hj)

/-- Every step has one of the effects. -/
theorem step_effect {a : PipeAct} (h : s.step a = some s') : PipeEffect s a.mover s' := by
  cases a with rw [step] at h
  | write p buf n =>
    split_ifs at h with hready
    cases h
    obtain ⟨⟨hrun, r, hpc⟩, href⟩ := hready
    exact .thread p _ hrun (.call buf n r hpc href)
  | read p n =>
    split_ifs at h with hready
    cases h
    obtain ⟨⟨hrun, r, hpc⟩, href⟩ := hready
    exact .thread p _ hrun (.read n r hpc href)
  | close p writable =>
    split_ifs at h with hready
    cases h
    obtain ⟨⟨hrun, r, hpc⟩, _, huses⟩ := hready
    exact .thread p _ hrun (.close writable r hpc huses)
  | run p ok =>
    split_ifs at h with hrun
    exact .thread p _ hrun (advance_effect h)
  | kill q =>
    split_ifs at h with hfalls
    cases h
    refine .resched q _ ⟨?_⟩
    intro hsleep
    unfold PipeProc.kill at hsleep
    dsimp only at hsleep
    split_ifs at hsleep with hstate
    contradiction
  | dispatch q =>
    split_ifs at h with hstate
    cases h
    refine .resched q _ ⟨?_⟩
    intro hsleep
    cases hsleep
  | replace q =>
    split_ifs at h with hready
    cases h
    refine .resched q _ ⟨?_⟩
    intro hsleep
    cases hsleep

end PipeSys

end Xv6
