import Xv6.Fs.Content
import Xv6.Lib.TransitionSystem

/-!
# Sharing an open file

After `fork` or `dup` several processes read and write through one `struct file`, and so
through one offset.  `filewrite` writes in chunks, each in a transaction of its own, and
another process may move the offset between two of them.

A step is what a process does from `ilock` to `iunlock`: one chunk of `filewrite`, or
`fileread`.  Everything else that happens to the disk, `begin_op` and `end_op` included, is
left to steps of the rest of the kernel.  If nobody else writes to the file, and every `writei`
writes as much as it was asked to, then each chunk keeps a part of the file for itself.
-/

namespace Xv6

open Stop Superblock Function

/-- A call of `filewrite` for an inode: `i` of the `n` bytes have been written. -/
structure Filewrite where
  id : ℕ
  source : Source
  addr : ℕ
  n : ℤ
  i : ℕ

/-- What has been written in one transaction: the bytes from the `i`th on of a call. -/
structure Chunk where
  call : ℕ
  i : ℕ
  start : ℕ
  bytes : List UInt8

/-- A move of the offset. -/
inductive Access where
  | write (c : Chunk)
  | read (start len : ℕ)

namespace Access

/-- The offset at which the inode was locked. -/
def start : Access → ℕ
  | .write c => c.start
  | .read start _ => start

def length : Access → ℕ
  | .write c => c.bytes.length
  | .read _ len => len

/-- What an access has written for a call. -/
def written (id : ℕ) : Access → List UInt8
  | .write c => if c.call = id then c.bytes else []
  | .read .. => []

end Access

/-- A `struct file` for an inode, the in-memory inode and the disk.  No step depends on
`calls`, `log` and `done`, which number the calls of `filewrite` and record the moves of the
offset and the results. -/
structure SharedFile (ι : Type) where
  machine : Machine
  ip : Inode
  readable : Bool
  writable : Bool
  off : ℕ
  call : ι → Option Filewrite
  calls : ℕ
  log : List Access
  done : List (Filewrite × ℤ)

/-- The labels of the steps. -/
inductive FileAct (ι : Type) where
  | filewrite (t : ι) (source : Source) (addr : ℕ) (n : ℤ)
  /-- One round of the loop in `filewrite`, or its end. -/
  | chunk (t : ι)
  | fileread (t : ι) (dst : ℕ → ℕ → Bool) (n : ℤ)
  /-- The rest of the kernel. -/
  | other (machine : Machine) (ip : Inode)

/-- How much `filewrite` writes in one transaction. -/
def maxChunk : ℕ := ((MAXOPBLOCKS - 1 - 1 - 2) / 2) * BSIZE

/-- The length of the next chunk. -/
def Filewrite.n1 (c : Filewrite) : ℕ := min (c.n - c.i).toNat maxChunk

/-- The bytes of the next chunk. -/
def Filewrite.chunk (c : Filewrite) (start : ℕ) : Chunk where
  call := c.id
  i := c.i
  start := start
  bytes := (List.range c.n1).map (c.source.bytes (c.addr + c.i))

/-- The `writei` for the next chunk has written all of it, if it has returned. -/
def Filewrite.Full (c : Filewrite) : EStateM.Result Fault Machine (ℤ × Inode) → Prop
  | .ok (r, _) _ => r = c.n1
  | .error _ _ => True

instance (c : Filewrite) (r : EStateM.Result Fault Machine (ℤ × Inode)) : Decidable (c.Full r) := by
  cases r <;> unfold Filewrite.Full <;> infer_instance

namespace SharedFile

variable {ι : Type} [DecidableEq ι]

/-- The offset after `r` bytes; it is a 32-bit number. -/
def advance (s : SharedFile ι) (r : ℤ) : ℕ := if 0 < r then (s.off + r.toNat) % 2 ^ 32 else s.off

/-- `filewrite` returns. -/
def finish (s : SharedFile ι) (t : ι) (c : Filewrite) (r : ℤ) : SharedFile ι :=
  { s with call := update s.call t none, done := s.done ++ [(c, r)] }

/-- One round of the loop in `filewrite`. -/
def writeChunk (sb : Superblock) (s : SharedFile ι) (t : ι) (c : Filewrite) : Option (SharedFile ι) :=
  match writei sb s.ip c.source (c.addr + c.i) s.off c.n1 s.machine with
  | .ok (r, ip) m =>
    let s' := { s with machine := m, ip := ip, off := s.advance r }
    if r ≠ c.n1 then some (s'.finish t c (-1))
    else some { s' with
      call := update s.call t (some { c with i := c.i + r.toNat })
      log := s.log ++ [.write (c.chunk s.off)] }
  | .error _ _ => none

/-- The effect of a label that is enabled. -/
def step (sb : Superblock) (s : SharedFile ι) : FileAct ι → Option (SharedFile ι)
  | .filewrite t source addr n =>
    if s.call t = none then
      let c : Filewrite := ⟨s.calls, source, addr, n, 0⟩
      if s.writable = false then some { s with calls := s.calls + 1, done := s.done ++ [(c, -1)] }
      else some { s with calls := s.calls + 1, call := update s.call t (some c) }
    else none
  | .chunk t =>
    match s.call t with
    | none => none
    | some c =>
      if c.i < c.n then s.writeChunk sb t c
      else some (s.finish t c (if c.i = c.n then c.n else -1))
  | .fileread t dst n =>
    if s.call t = none ∧ s.readable = true then
      match readi sb s.ip dst s.off (n % 2 ^ 32).toNat s.machine with
      | .ok (r, _, ip) m =>
        some { s with
          machine := m, ip := ip, off := s.advance r
          log := if 0 < r then s.log ++ [.read s.off r.toNat] else s.log }
      | .error _ _ => none
    else none
  | .other m ip => some { s with machine := m, ip := ip }

/-- An open file about which nothing has been recorded. -/
def opened (machine : Machine) (ip : Inode) (readable writable : Bool) (off : ℕ) : SharedFile ι where
  machine := machine
  ip := ip
  readable := readable
  writable := writable
  off := off
  call := fun _ => none
  calls := 0
  log := []
  done := []

/-- The file system is consistent and the inode, with its in-memory copy, has a file that is
legible. -/
def Ready (sb : Superblock) (inum : ℕ) (m : Machine) (ip : Inode) : Prop :=
  ∃ f, f inum = ip ∧ FileSound sb m.obs f inum

/-- The `writei` of the next round, if there is one, writes as much as it was asked to. -/
def FullChunk (sb : Superblock) (s : SharedFile ι) (t : ι) : Prop :=
  ∀ c ∈ s.call t, c.i < c.n →
    c.Full (writei sb s.ip c.source (c.addr + c.i) s.off c.n1 s.machine)

instance (sb : Superblock) (s : SharedFile ι) (t : ι) : Decidable (s.FullChunk sb t) :=
  inferInstanceAs (Decidable (∀ c ∈ s.call t, _))

/-- Every `writei` writes as much as it was asked to, and the rest of the kernel keeps the
bytes of the file. -/
def Quiet (sb : Superblock) (inum : ℕ) (s : SharedFile ι) : FileAct ι → Prop
  | .chunk t => s.FullChunk sb t
  | .other m ip => Ready sb inum m ip
      ∧ ∀ p b, s.ip.byte s.machine.view p = some b → ip.byte m.view p = some b
  | _ => True

end SharedFile

/-- An open file as a transition system. -/
def sharedFileSystem (ι : Type) [DecidableEq ι] (sb : Superblock) (inum : ℕ) :
    TransitionSystem (SharedFile ι) (FileAct ι) where
  init s := ∃ m ip r w off, SharedFile.Ready sb inum m ip ∧ off < 2 ^ 32
    ∧ s = SharedFile.opened m ip r w off
  step := SharedFile.step sb

end Xv6
