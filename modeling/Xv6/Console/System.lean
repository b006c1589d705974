import Xv6.Lib.RingBuffer
import Xv6.Lib.TransitionSystem

/-!
# The console's input buffer

`consoleintr` edits the end of a circular buffer under three wrapping indices and
`consoleread` takes bytes from its front.  A keystroke is a step; a call of `consoleread`
has a step for every turn, from where it acquires `cons.lock` to where it releases it, in
`sleep` or at the end.  A process that sleeps may try again at any time, which includes the
times at which it is woken.  Calls ask for at least one byte, copies to user space succeed
and readers are not killed.  What is echoed and the listing of ^P are left out.

Beside the buffer the state has a record of what has happened, which no step depends on: the
keystrokes that were not dropped, the bytes that came between `r` and `w`, the bytes that
each call took from there, and what the calls have returned.
-/

namespace Xv6

open Function

/-- The size of the input buffer. -/
abbrev INPUT_BUF_SIZE : ℕ := 128

/-- `C(x)`, control-x. -/
def ctrl (x : Char) : UInt8 := x.toUInt8 - 64

/-- The newline character. -/
def newline : UInt8 := 10

/-- The input buffer. -/
structure Cons where
  buf : ℕ → UInt8
  r : UInt32
  w : UInt32
  e : UInt32

namespace Cons

/-- The byte at an index. -/
def byte (c : Cons) (i : UInt32) : UInt8 := c.buf (i.toNat % INPUT_BUF_SIZE)

def setR (c : Cons) (r : UInt32) : Cons := { c with r := r }

def setE (c : Cons) (e : UInt32) : Cons := { c with e := e }

/-- The loop that kills a line, with at most as many iterations as bytes to kill. -/
def killLine : ℕ → Cons → Cons
  | 0, c => c
  | n + 1, c =>
    if c.e ≠ c.w ∧ c.byte (c.e - 1) ≠ newline then killLine n (c.setE (c.e - 1)) else c

/-- The bytes put at the end of the buffer, and committed if a line is complete. -/
def store (c : Cons) (b : UInt8) : Cons :=
  let c := { c with buf := update c.buf (c.e.toNat % INPUT_BUF_SIZE) b, e := c.e + 1 }
  if b = newline ∨ b = ctrl 'D' ∨ c.e - c.r = 128 then { c with w := c.e } else c

/-- `consoleintr`. -/
def consoleintr (c : Cons) (b : UInt8) : Cons :=
  if b = ctrl 'P' then c
  else if b = ctrl 'U' then killLine (c.e - c.w).toNat c
  else if b = ctrl 'H' ∨ b = 0x7f then
    if c.e ≠ c.w then c.setE (c.e - 1) else c
  else if b ≠ 0 ∧ c.e - c.r < 128 then
    c.store (if b = 13 then newline else b)
  else c

/-- How a turn of `consoleread` ends. -/
inductive Turn where
  | sleeps
  | returns
  deriving DecidableEq

/-- The loop of `consoleread` from one acquisition of `cons.lock` to the next release, with
`n` bytes to go of `target` and `out` copied to the user. -/
def readLoop (target : ℕ) : ℕ → List UInt8 → Cons → Turn × ℕ × List UInt8 × Cons
  | 0, out, c => (.returns, 0, out, c)
  | n + 1, out, c =>
    if c.r = c.w then (.sleeps, n + 1, out, c)
    else
      let b := c.byte c.r
      let c := c.setR (c.r + 1)
      if b = ctrl 'D' then
        -- the ^D is saved for the next call, which returns nothing then
        (.returns, n + 1, out, if n + 1 < target then c.setR (c.r - 1) else c)
      else if b = newline then (.returns, n, out ++ [b], c)
      else readLoop target n (out ++ [b]) c

/-- The bytes of the buffer between two indices. -/
def between (c : Cons) (i j : UInt32) : List UInt8 :=
  (List.range (j - i).toNat).map fun k => c.buf ((i.toNat + k) % INPUT_BUF_SIZE)

/-- The bytes that can be read. -/
def unread (c : Cons) : List UInt8 := c.between c.r c.w

/-- A keystroke that is dropped because the buffer is full. -/
def Drops (c : Cons) (b : UInt8) : Prop :=
  b ∉ [ctrl 'P', ctrl 'U', ctrl 'H', 0x7f, 0] ∧ c.e - c.r = 128

instance (c : Cons) (b : UInt8) : Decidable (c.Drops b) := inferInstanceAs (Decidable (_ ∧ _))

end Cons

/-- A keystroke, and whether it is the one that fills the buffer. -/
structure Key where
  byte : UInt8
  fills : Bool
  deriving DecidableEq

/-- A call of `consoleread` in progress. -/
structure ConsoleRead where
  call : ℕ
  target : ℕ
  n : ℕ
  out : List UInt8
  deriving DecidableEq

/-- What a call of `consoleread` has returned and copied to the user. -/
structure ReadResult where
  call : ℕ
  ret : ℕ
  bytes : List UInt8
  deriving DecidableEq

/-- The console and the processes that read from it. -/
structure Console where
  cons : Cons
  reader : ℕ → Option ConsoleRead
  calls : ℕ
  keys : List Key
  committed : List UInt8
  taken : List (ℕ × UInt8)
  reads : List ReadResult

/-- The labels of the steps. -/
inductive ConsoleAct where
  /-- A character arrives. -/
  | key (b : UInt8)
  /-- A process calls `consoleread`. -/
  | call (p n : ℕ)
  /-- A process in `consoleread` acquires `cons.lock`. -/
  | read (p : ℕ)
  deriving DecidableEq

namespace Console

/-- The console at boot. -/
def boot : Console where
  cons := ⟨fun _ => 0, 0, 0, 0⟩
  reader := fun _ => none
  calls := 0
  keys := []
  committed := []
  taken := []
  reads := []

/-- A character arrives. -/
def type (s : Console) (b : UInt8) : Console :=
  let c := s.cons.consoleintr b
  { s with
    cons := c
    keys := if s.cons.Drops b then s.keys else s.keys ++ [⟨b, s.cons.e + 1 - s.cons.r = 128⟩]
    committed := s.committed ++ c.between s.cons.w c.w }

/-- A call begins. -/
def enter (s : Console) (p n : ℕ) : Console :=
  { s with reader := update s.reader p (some ⟨s.calls, n, n, []⟩), calls := s.calls + 1 }

/-- A call has a turn. -/
def turn (s : Console) (p : ℕ) (rd : ConsoleRead) : Console :=
  match s.cons.readLoop rd.target rd.n rd.out with
  | (t, n, out, c) =>
    let s := { s with
      cons := c
      taken := s.taken ++ (c.between s.cons.r c.r).map (Prod.mk rd.call) }
    match t with
    | .sleeps => { s with reader := update s.reader p (some { rd with n := n, out := out }) }
    | .returns =>
      { s with
        reader := update s.reader p none
        reads := s.reads ++ [⟨rd.call, rd.target - n, out⟩] }

/-- The effect of a label that is enabled. -/
def step (s : Console) : ConsoleAct → Option Console
  | .key b => some (s.type b)
  | .call p n => if s.reader p = none ∧ 0 < n then some (s.enter p n) else none
  | .read p => (s.reader p).map (s.turn p)

end Console

/-- The console as a transition system. -/
def consoleSystem : TransitionSystem Console ConsoleAct where
  init s := s = Console.boot
  step := Console.step

end Xv6
