import Xv6.Lib.TransitionSystem
import Xv6.Lib.Tally
import Xv6.Lib.Update
import Xv6.Param

/-!
# The table of in-memory inodes

Any number of processes call `iget`, `idup`, `ilock`, `iunlock`, `iput`, `iupdate` and
`ialloc`.  A step runs from one acquisition of `itable.lock`, of the lock of an inode or of
the lock of a buffer to the next one: reading and writing an inode on the disk is a step
each, and `iput`, which gives up `itable.lock` in the middle, has several.

A process passes to these functions only references that it has, changes the fields of an
inode only while it has the inode locked, and calls `iupdate` before `iunlock` then.  A
process that has an inode locked keeps a reference to it.  Only `iput` sets `type` to `0`:
the inodes that are allocated are directories, files and devices.  `iget` is called for an
inode with links, apart from the call in `ialloc`.
-/

namespace Xv6

open Function

/-- An inode on the disk. -/
@[ext]
structure Dinode where
  type : ℕ
  major : ℕ
  minor : ℕ
  nlink : ℕ
  size : ℕ
  addrs : Fin (NDIRECT + 1) → ℕ
  deriving DecidableEq

namespace Dinode

/-- What `ialloc` writes. -/
def allocated (type : ℕ) : Dinode := ⟨type, 0, 0, 0, 0, fun _ => 0⟩

/-- The fields after `itrunc`. -/
def truncated (d : Dinode) : Dinode := { d with size := 0, addrs := fun _ => 0 }

def setType (d : Dinode) (type : ℕ) : Dinode := { d with type := type }

end Dinode

/-- An entry of the table; it stands for the pointer to it. -/
abbrev InodePtr : Type := Fin NINODE

/-- `struct inode`, with a mark on a copy that has been changed since the last `iupdate`. -/
structure InCore (ι : Type) where
  dev : ℕ
  inum : ℕ
  ref : ℕ
  lock : Option ι
  valid : Bool
  copy : Dinode
  dirty : Bool

namespace InCore

variable {ι : Type}

/-- The inode that an entry is for. -/
def key (ip : InCore ι) : ℕ × ℕ := (ip.dev, ip.inum)

def setRef (ip : InCore ι) (n : ℕ) : InCore ι := { ip with ref := n }

def setLock (ip : InCore ι) (holder : Option ι) : InCore ι := { ip with lock := holder }

/-- An entry recycled for another inode. -/
def recycle (ip : InCore ι) (key : ℕ × ℕ) : InCore ι :=
  { ip with dev := key.1, inum := key.2, ref := 1, valid := false }

/-- The copy after it has been read from the disk. -/
def fill (ip : InCore ι) (d : Dinode) : InCore ι := { ip with copy := d, valid := true }

/-- The copy after a change. -/
def change (ip : InCore ι) (d : Dinode) : InCore ι := { ip with copy := d, dirty := true }

/-- The copy after it has been written to the disk. -/
def save (ip : InCore ι) (d : Dinode) : InCore ι := { ip with copy := d, dirty := false }

def invalidate (ip : InCore ι) : InCore ι := { ip with valid := false }

end InCore

/-- Where a process stands in the functions of the table. -/
inductive InodePc where
  | idle
  /-- `ilock`: in `acquiresleep`. -/
  | ilockWait (e : InodePtr)
  /-- `ilock`: about to read the inode from the disk. -/
  | ilockRead (e : InodePtr)
  /-- `iput`: in `acquiresleep`, with `itable.lock`. -/
  | iputSleep (e : InodePtr)
  /-- `iput`: about to call `itrunc`. -/
  | iputTrunc (e : InodePtr)
  /-- `iput`: about to write `type` 0 to the disk. -/
  | iputFree (e : InodePtr)
  /-- `iput`: about to clear `valid` and to call `releasesleep`. -/
  | iputValid (e : InodePtr)
  /-- `iput`: about to acquire `itable.lock` again. -/
  | iputDrop (e : InodePtr)
  /-- `ialloc`: about to look at an inode on the disk. -/
  | iallocScan (dev type inum : ℕ)
  /-- `ialloc`: about to call `iget`. -/
  | iallocGet (key : ℕ × ℕ)
  deriving DecidableEq

/-- The table, the inodes on the disk as logged, and the processes with the references they
have.  No step depends on `fresh`, which marks the entries that `ialloc` has handed out and
nobody has read since. -/
structure Itable (ι : Type) where
  inode : InodePtr → InCore ι
  disk : ℕ × ℕ → Dinode
  /-- The process that keeps `itable.lock` after its step. -/
  lock : Option ι
  pc : ι → InodePc
  refs : ι → List InodePtr
  fresh : InodePtr → Bool
  panicked : Bool

/-- The labels of the steps. -/
inductive InodeAct (ι : Type) where
  | iget (t : ι) (key : ℕ × ℕ)
  | idup (t : ι) (e : InodePtr)
  | ilock (t : ι) (e : InodePtr)
  | modify (t : ι) (e : InodePtr) (d : Dinode)
  | iupdate (t : ι) (e : InodePtr)
  | iunlock (t : ι) (e : InodePtr)
  | iput (t : ι) (e : InodePtr)
  | ialloc (t : ι) (dev type : ℕ)
  /-- A process goes on in the function it is in. -/
  | run (t : ι)

namespace Itable

variable {ι : Type} [DecidableEq ι]

def setInode (s : Itable ι) (e : InodePtr) (ip : InCore ι) : Itable ι :=
  { s with inode := update s.inode e ip }

def setDisk (s : Itable ι) (key : ℕ × ℕ) (d : Dinode) : Itable ι :=
  { s with disk := update s.disk key d }

def setLock (s : Itable ι) (holder : Option ι) : Itable ι := { s with lock := holder }

def goto (s : Itable ι) (t : ι) (pc : InodePc) : Itable ι :=
  { s with pc := update s.pc t pc }

def setRefs (s : Itable ι) (t : ι) (refs : List InodePtr) : Itable ι :=
  { s with refs := update s.refs t refs }

def setFresh (s : Itable ι) (e : InodePtr) (b : Bool) : Itable ι :=
  { s with fresh := update s.fresh e b }

def panic (s : Itable ι) : Itable ι := { s with panicked := true }

/-- The process gets one more reference to an entry in use. -/
def gain (s : Itable ι) (t : ι) (e : InodePtr) : Itable ι :=
  (s.setInode e ((s.inode e).setRef ((s.inode e).ref + 1))).setRefs t (e :: s.refs t)

/-- The process gives up a reference. -/
def lose (s : Itable ι) (t : ι) (e : InodePtr) : Itable ι :=
  (s.setInode e ((s.inode e).setRef ((s.inode e).ref - 1))).setRefs t ((s.refs t).erase e)

/-- The entry in use for an inode. -/
def find (s : Itable ι) (key : ℕ × ℕ) : Option InodePtr :=
  (List.finRange NINODE).find? fun e => 0 < (s.inode e).ref ∧ (s.inode e).key = key

/-- The first entry that is not in use. -/
def empty (s : Itable ι) : Option InodePtr :=
  (List.finRange NINODE).find? fun e => (s.inode e).ref = 0

/-- `iget`, for `ialloc` or not. -/
def get (s : Itable ι) (t : ι) (key : ℕ × ℕ) (fresh : Bool) : Itable ι :=
  match s.find key with
  | some e => (s.gain t e).setFresh e (fresh || s.fresh e)
  | none =>
    match s.empty with
    | some e =>
      ((s.setInode e ((s.inode e).recycle key)).setRefs t (e :: s.refs t)).setFresh e fresh
    | none => s.panic

/-- Writing an inode to the disk. -/
def save (s : Itable ι) (e : InodePtr) (d : Dinode) : Itable ι :=
  (s.setInode e ((s.inode e).save d)).setDisk (s.inode e).key d

/-- The process goes on. -/
def advance (ninodes : ℕ) (s : Itable ι) (t : ι) : InodePc → Option (Itable ι)
  | .idle => none
  | .ilockWait e =>
    if (s.inode e).lock = none then
      some ((s.setInode e ((s.inode e).setLock (some t))).goto t
        (if (s.inode e).valid then .idle else .ilockRead e))
    else none
  | .ilockRead e =>
    let s' := ((s.setInode e ((s.inode e).fill (s.disk (s.inode e).key))).setFresh e false).goto t .idle
    some (if (s.disk (s.inode e).key).type = 0 then s'.panic else s')
  | .iputSleep e =>
    if (s.inode e).lock = none then
      some (((s.setInode e ((s.inode e).setLock (some t))).setLock none).goto t (.iputTrunc e))
    else none
  | .iputTrunc e => some ((s.save e (s.inode e).copy.truncated).goto t (.iputFree e))
  | .iputFree e => some ((s.save e ((s.inode e).copy.setType 0)).goto t (.iputValid e))
  | .iputValid e =>
    some ((s.setInode e ((s.inode e).invalidate.setLock none)).goto t (.iputDrop e))
  | .iputDrop e => if s.lock = none then some ((s.lose t e).goto t .idle) else none
  | .iallocScan dev type inum =>
    if inum < ninodes then
      if (s.disk (dev, inum)).type = 0 then
        some ((s.setDisk (dev, inum) (.allocated type)).goto t (.iallocGet (dev, inum)))
      else some (s.goto t (.iallocScan dev type (inum + 1)))
    else some (s.goto t .idle)
  | .iallocGet key => if s.lock = none then some ((s.get t key true).goto t .idle) else none

/-- The effect of a label that is enabled. -/
def step (ninodes : ℕ) (s : Itable ι) (a : InodeAct ι) : Option (Itable ι) :=
  if s.panicked then none
  else match a with
  | .run t => s.advance ninodes t (s.pc t)
  | .iget t key =>
    if s.pc t = .idle ∧ s.lock = none ∧ 0 < (s.disk key).nlink then some (s.get t key false)
    else none
  | .idup t e =>
    if s.pc t = .idle ∧ s.lock = none ∧ e ∈ s.refs t then some (s.gain t e) else none
  | .ilock t e =>
    if s.pc t = .idle ∧ e ∈ s.refs t then
      some (if (s.inode e).ref < 1 then s.panic else s.goto t (.ilockWait e))
    else none
  | .modify t e d =>
    if s.pc t = .idle ∧ (s.inode e).lock = some t ∧ d.type ≠ 0 then
      some (s.setInode e ((s.inode e).change d))
    else none
  | .iupdate t e =>
    if s.pc t = .idle ∧ (s.inode e).lock = some t then some (s.save e (s.inode e).copy) else none
  | .iunlock t e =>
    if s.pc t = .idle ∧ (s.inode e).lock = some t ∧ (s.inode e).dirty = false then
      some (if (s.inode e).ref < 1 then s.panic else s.setInode e ((s.inode e).setLock none))
    else none
  | .iput t e =>
    if s.pc t = .idle ∧ s.lock = none ∧ e ∈ s.refs t
        ∧ ((s.inode e).lock = some t → 2 ≤ (s.refs t).count e) then
      if (s.inode e).ref = 1 ∧ (s.inode e).valid = true ∧ (s.inode e).copy.nlink = 0 then
        some ((s.setLock (some t)).goto t (.iputSleep e))
      else some (s.lose t e)
    else none
  | .ialloc t dev type =>
    if s.pc t = .idle ∧ type ≠ 0 then some (s.goto t (.iallocScan dev type 1)) else none

/-- The table after `iinit`, with some inodes on the disk. -/
def boot (disk : ℕ × ℕ → Dinode) : Itable ι where
  inode := fun _ => ⟨0, 0, 0, none, false, .allocated 0, false⟩
  disk := disk
  lock := none
  pc := fun _ => .idle
  refs := fun _ => []
  fresh := fun _ => false
  panicked := false

end Itable

/-- The table as a transition system, on a disk with `ninodes` inodes. -/
def itableSystem (ι : Type) [DecidableEq ι] (ninodes : ℕ) :
    TransitionSystem (Itable ι) (InodeAct ι) where
  init s := ∃ disk, s = Itable.boot disk
  step := Itable.step ninodes

end Xv6
