import Xv6.Lib.Lineage
import Xv6.Param

/-!
# The process table

The slots of `proc[NPROC]` with the fields that `allocproc`, `kfork`, `kexit`, `kwait`,
`kkill` and `sys_getprocs` read or write, and the operations on one slot that these
functions share.  Memory, open files and the saved contexts of a process are left out:
none of these functions decides anything by them, apart from the failure of an
allocation or of a copy to user space.
-/

namespace Xv6

/-- A slot of the process table; it stands for the pointer to the slot. -/
abbrev Slot : Type := Fin NPROC

/-- `enum procstate`. -/
inductive ProcState where
  | unused
  | used
  | sleeping
  | runnable
  | running
  | zombie
  deriving DecidableEq, Repr

/-- The number of a state in `enum procstate`, which is also its `PINFO_` constant. -/
def ProcState.code : ProcState → ℤ
  | .unused => 0
  | .used => 1
  | .sleeping => 2
  | .runnable => 3
  | .running => 4
  | .zombie => 5

/-- The address a process sleeps on: its own slot in `kwait`, or some other address of
the kernel. -/
inductive Chan where
  | proc (p : Slot)
  | other (n : ℕ)
  deriving DecidableEq, Repr

/-- `struct proc`. -/
structure Proc where
  state : ProcState
  chan : Option Chan
  killed : Bool
  xstate : ℤ
  pid : ℤ
  parent : Option Slot
  name : List UInt8
  deriving DecidableEq, Repr

/-- `struct pinfo`. -/
structure Pinfo where
  pid : ℤ
  ppid : ℤ
  state : ℤ
  name : List UInt8
  deriving DecidableEq, Repr

/-- `safestrcpy(s, t, n)`: the array `s` with the string `t` copied over its front.  The
bytes of `s` behind the copy keep their values. -/
def safestrcpy : List UInt8 → List UInt8 → ℕ → List UInt8
  | s, _, 0 => s
  | [], _, _ => []
  | _ :: s, _, 1 => 0 :: s
  | _ :: s, [], _ => 0 :: s
  | _ :: s, c :: t, n + 2 =>
    if c = 0 then c :: (match s with | [] => [] | _ :: s => 0 :: s)
    else c :: safestrcpy s t (n + 1)

/-- A slot of the zeroed table at boot, after `procinit`. -/
def Proc.zero : Proc where
  state := .unused
  chan := none
  killed := false
  xstate := 0
  pid := 0
  parent := none
  name := List.replicate 16 0

/-- `freeproc`: clear a slot. -/
def Proc.freeproc (p : Proc) : Proc where
  state := .unused
  chan := none
  killed := false
  xstate := 0
  pid := 0
  parent := none
  name := p.name.set 0 0

/-- What `wakeup(chan)` does to a slot. -/
def Proc.wakeup (chan : Option Chan) (p : Proc) : Proc :=
  if p.state = .sleeping ∧ p.chan = chan then { p with state := .runnable } else p

/-- What `kkill` does to the slot with the pid it looks for. -/
def Proc.kill (p : Proc) : Proc :=
  { p with killed := true, state := if p.state = .sleeping then .runnable else p.state }

/-- The value of a C `int` after an increment. -/
def intSucc (n : ℤ) : ℤ := (n + 1).bmod (2 ^ 32)

/-! ### The kind of a slot -/

/-- The stage of a slot in the lineage of processes; scheduling moves a live process
between `sleeping`, `runnable` and `running`. -/
def ProcState.kind : ProcState → Kind
  | .unused => .free
  | .used => .embryo
  | .sleeping => .live
  | .runnable => .live
  | .running => .live
  | .zombie => .dead

theorem ProcState.kind_eq_free {st : ProcState} :
  st.kind = .free ↔ st = .unused
  := by
  cases st <;> decide

theorem ProcState.kind_eq_dead {st : ProcState} :
  st.kind = .dead ↔ st = .zombie
  := by
  cases st <;> decide

@[simp]
theorem Proc.wakeup_pid (c : Option Chan) (p : Proc) : (p.wakeup c).pid = p.pid := by
  unfold wakeup; split <;> rfl

@[simp]
theorem Proc.wakeup_parent (c : Option Chan) (p : Proc) : (p.wakeup c).parent = p.parent := by
  unfold wakeup; split <;> rfl

@[simp]
theorem Proc.wakeup_kind (c : Option Chan) (p : Proc) :
  (p.wakeup c).state.kind = p.state.kind
  := by
  unfold wakeup
  split
  next h => rw [h.1]; rfl
  next => rfl

@[simp]
theorem Proc.kill_kind (p : Proc) : p.kill.state.kind = p.state.kind := by
  unfold kill
  dsimp only
  split
  next h => rw [h]; rfl
  next => rfl

end Xv6
