import Xv6.Lib.TransitionSystem
import Xv6.Log.Commit

/-!
# Processes sharing the log and the buffer cache

Any number of threads run file-system operations at the same time.  Under `log.lock` they
enter and leave operations and record blocks; under `bcache.lock` they look up buffers and
count references; between these they hold the sleep locks of buffers.  The thread that ends
the last operation commits, without a lock, while others may read.  A step runs from one
acquisition of a lock to the next, and every access to the disk is a step.

The threads choose which blocks they read, change and log.  What is assumed of them is what
the callers of `log_write` keep to: a buffer is changed by a thread that holds it, inside an
operation and outside of the log's area; it is logged before it is released and before the
operation ends; an operation logs at most `MAXOPBLOCKS` blocks.
-/

namespace Xv6

open Function

/-- The index of a buffer in `bcache.buf`. -/
abbrev BufId := Fin NBUF

/-- `struct buf`, with the holder of its sleep lock. -/
structure Buf (P : Type) where
  valid : Bool
  dev : ℕ
  blockno : ℕ
  lock : Option P
  refcnt : ℕ
  data : Block

/-- The places in a round of the loops of `write_log` and `install_trans`. -/
inductive Round where
  | readLog
  | readHome
  | move
  | write
  | unpin
  | dropFirst
  | dropSecond
  deriving DecidableEq

/-- The places in `write_head`. -/
inductive Head where
  | read
  | edit
  | write
  | drop
  deriving DecidableEq

/-- Where a thread stands with respect to the log. -/
inductive Phase where
  /-- Outside of an operation. -/
  | out
  /-- In `begin_op`, about to acquire `log.lock`. -/
  | begin
  /-- In `begin_op`, sleeping on `&log`. -/
  | asleep
  /-- Between `begin_op` and `end_op`. -/
  | op
  /-- At the start of `commit`. -/
  | commit
  | writeLog (tail : ℕ) (place : Round)
  | writeHead (erase : Bool) (place : Head)
  | install (tail : ℕ) (place : Round)
  /-- After `commit`, about to acquire `log.lock`. -/
  | finish
  deriving DecidableEq

/-- Where a thread stands in `bread` or `brelse`. -/
inductive Micro where
  | none
  /-- In `bread`: waiting for the sleep lock of the buffer. -/
  | locking (i : BufId)
  /-- In `bread`: holding the sleep lock, about to read the disk if need be. -/
  | loading (i : BufId)
  /-- In `brelse`: the sleep lock is released, the reference not yet dropped. -/
  | releasing (i : BufId)
  deriving DecidableEq

/-- A thread with the block that its last call of `bread` asked for and the buffers it holds,
the latest first.  The other fields record what it has done: the buffers changed since they
were last logged, the blocks its operation has logged, and the number of commits before the
operation. -/
structure Thread where
  phase : Phase
  micro : Micro
  asked : ℕ
  held : List BufId
  dirty : List BufId
  logged : List ℕ
  epoch : ℕ

/-- A thread that has done nothing yet. -/
def Thread.fresh : Thread where
  phase := .out
  micro := .none
  asked := 0
  held := []
  dirty := []
  logged := []
  epoch := 0

/-- A thread after a wakeup on `&log`. -/
def Thread.wake (t : Thread) : Thread :=
  if t.phase = .asleep then { t with phase := .begin } else t

/-- A thread that has logged the block `b` in buffer `i`. -/
def Thread.record (t : Thread) (i : BufId) (b : ℕ) : Thread :=
  { t with
    dirty := t.dirty.filter (· ≠ i)
    logged := if b ∈ t.logged then t.logged else t.logged ++ [b] }

/-- The log, the buffer cache and the disk.  `order` is the list of the buffers, the most
recently used first.  No step depends on the last four fields: `pinned` lists the blocks
that are pinned, `spec` has the contents last logged for each block, `commits` lists what
each call of `commit` found in the log, and `finished` the operations that have ended, with
the number of commits before each and the blocks it logged. -/
structure LogSys (P : Type) where
  disk : ℕ → Block
  buf : BufId → Buf P
  order : List BufId
  start : ℕ
  outstanding : ℕ
  committing : Bool
  lh : List ℕ
  thread : P → Thread
  panicked : Option String
  pinned : List ℕ
  spec : ℕ → Block
  commits : List (List ℕ)
  finished : List (ℕ × List ℕ)

/-- The labels of the steps. -/
inductive LogAct (P : Type) where
  | beginOp (p : P)
  | endOp (p : P)
  | bread (p : P) (blockno : ℕ)
  | modify (p : P) (i : BufId) (data : Block)
  | logWrite (p : P) (i : BufId)
  | brelse (p : P) (i : BufId)
  /-- The next step inside of a function. -/
  | run (p : P)
  /-- `kkill` makes a sleeping thread runnable. -/
  | kill (p : P)

namespace LogSys

variable {P : Type} [DecidableEq P] (s : LogSys P) (p : P)

def setBuf (i : BufId) (b : Buf P) : LogSys P :=
  { s with buf := update s.buf i b }

def setThread (t : Thread) : LogSys P :=
  { s with thread := update s.thread p t }

def goto (phase : Phase) : LogSys P :=
  s.setThread p { s.thread p with phase }

def panic (msg : String) : LogSys P :=
  { s with panicked := some msg }

/-- `wakeup(&log)`. -/
def wakeup : LogSys P :=
  { s with thread := fun q => (s.thread q).wake }

/-- `bget` up to the release of `bcache.lock`, on the way to a place `next`. -/
def bget (blockno : ℕ) (next : Phase) : LogSys P :=
  match s.order.find? (fun i => (s.buf i).dev = ROOTDEV ∧ (s.buf i).blockno = blockno) with
  | some i =>
    (s.setBuf i { s.buf i with refcnt := (s.buf i).refcnt + 1 }).setThread p
      { s.thread p with phase := next, micro := .locking i, asked := blockno }
  | none =>
    match s.order.reverse.find? (fun i => (s.buf i).refcnt = 0) with
    | some i =>
      (s.setBuf i { s.buf i with dev := ROOTDEV, blockno, valid := false, refcnt := 1 }).setThread
        p { s.thread p with phase := next, micro := .locking i, asked := blockno }
    | none => s.panic "bget: no buffers"

/-- `acquiresleep` in `bget`. -/
def acquiresleep (i : BufId) : Option (LogSys P) :=
  if (s.buf i).lock = none then
    some ((s.setBuf i { s.buf i with lock := some p }).setThread p
      { s.thread p with micro := .loading i })
  else none

/-- The rest of `bread`: read the disk unless the buffer is valid. -/
def load (i : BufId) : LogSys P :=
  (s.setBuf i (if (s.buf i).valid then s.buf i
    else { s.buf i with data := s.disk (s.buf i).blockno, valid := true })).setThread p
      { s.thread p with micro := .none, held := i :: (s.thread p).held }

/-- `brelse` up to `releasesleep`, on the way to a place `next`. -/
def releasesleep (i : BufId) (next : Phase) : LogSys P :=
  (s.setBuf i { s.buf i with lock := none }).setThread p
    { s.thread p with phase := next, micro := .releasing i, held := (s.thread p).held.erase i }

/-- The rest of `brelse`: drop the reference, and put an unused buffer to the front. -/
def unref (i : BufId) : LogSys P :=
  { s.setBuf i { s.buf i with refcnt := (s.buf i).refcnt - 1 } with
    order := if (s.buf i).refcnt = 1 then i :: s.order.erase i else s.order }.setThread p
      { s.thread p with micro := .none }

/-- Change the data of a buffer. -/
def setData (i : BufId) (data : Block) : LogSys P :=
  s.setBuf i { s.buf i with data }

/-- `bwrite`. -/
def bwrite (i : BufId) : LogSys P :=
  { s with disk := update s.disk (s.buf i).blockno (s.buf i).data }

/-- `bunpin`. -/
def bunpin (i : BufId) : LogSys P :=
  { s.setBuf i { s.buf i with refcnt := (s.buf i).refcnt - 1 } with
    pinned := s.pinned.erase (s.buf i).blockno }

/-- `log_write` of the buffer `i`. -/
def logWrite (i : BufId) : LogSys P :=
  let b := (s.buf i).blockno
  if LOGBLOCKS ≤ s.lh.length then s.panic "too big a transaction"
  else if s.outstanding < 1 then s.panic "log_write outside of trans"
  else
    let s := { s with spec := update s.spec b (s.buf i).data }.setThread p
      ((s.thread p).record i b)
    if b ∈ s.lh then s
    else
      { s.setBuf i { s.buf i with refcnt := (s.buf i).refcnt + 1 } with
        lh := s.lh ++ [b], pinned := s.pinned ++ [b] }

/-- `end_op` up to the release of `log.lock`. -/
def endOp : LogSys P :=
  let t := s.thread p
  let s := { s with outstanding := s.outstanding - 1, finished := s.finished ++ [(t.epoch, t.logged)] }
  if s.committing then s.panic "log.committing"
  else if s.outstanding = 0 then
    { s with committing := true, commits := s.commits ++ [s.lh] }.setThread p
      { t with phase := .commit, logged := [] }
  else s.wakeup.setThread p { t with phase := .out, logged := [] }

/-- The next step of a thread that stands outside of `bread` and `brelse`. -/
def advance : Phase → Option (LogSys P)
  | .out | .op | .asleep => none
  | .begin =>
    if s.committing ∨ LOGBLOCKS < s.lh.length + (s.outstanding + 1) * MAXOPBLOCKS then
      some (s.goto p .asleep)
    else
      some ({ s with outstanding := s.outstanding + 1 }.setThread p
        { s.thread p with phase := .op, logged := [], epoch := s.commits.length })
  | .commit => some (s.goto p (if 0 < s.lh.length then .writeLog 0 .readLog else .finish))
  | .writeLog tail .readLog =>
    if tail < s.lh.length then some (s.bget p (s.start + tail + 1) (.writeLog tail .readHome))
    else some (s.goto p (.writeHead false .read))
  | .writeLog tail .readHome => some (s.bget p (s.lh.getD tail 0) (.writeLog tail .move))
  | .writeLog tail .move =>
    match (s.thread p).held with
    | src :: dst :: _ =>
      some ((s.setData dst (s.buf src).data).goto p (.writeLog tail .write))
    | _ => none
  | .writeLog tail .write =>
    match (s.thread p).held with
    | _ :: dst :: _ => some ((s.bwrite dst).goto p (.writeLog tail .dropFirst))
    | _ => none
  | .writeLog tail .dropFirst =>
    match (s.thread p).held with
    | src :: _ => some (s.releasesleep p src (.writeLog tail .dropSecond))
    | _ => none
  | .writeLog tail .dropSecond =>
    match (s.thread p).held with
    | dst :: _ => some (s.releasesleep p dst (.writeLog (tail + 1) .readLog))
    | _ => none
  | .writeLog _ .unpin => none
  | .writeHead erase .read => some (s.bget p s.start (.writeHead erase .edit))
  | .writeHead erase .edit =>
    match (s.thread p).held with
    | i :: _ =>
      some ((s.setData i (encodeHead s.lh (s.buf i).data)).goto p (.writeHead erase .write))
    | _ => none
  | .writeHead erase .write =>
    match (s.thread p).held with
    | i :: _ => some ((s.bwrite i).goto p (.writeHead erase .drop))
    | _ => none
  | .writeHead erase .drop =>
    match (s.thread p).held with
    | i :: _ => some (s.releasesleep p i (if erase then .finish else .install 0 .readLog))
    | _ => none
  | .install tail .readLog =>
    if tail < s.lh.length then some (s.bget p (s.start + tail + 1) (.install tail .readHome))
    else some ({ s with lh := [] }.goto p (.writeHead true .read))
  | .install tail .readHome => some (s.bget p (s.lh.getD tail 0) (.install tail .move))
  | .install tail .move =>
    match (s.thread p).held with
    | dst :: src :: _ => some ((s.setData dst (s.buf src).data).goto p (.install tail .write))
    | _ => none
  | .install tail .write =>
    match (s.thread p).held with
    | dst :: _ => some ((s.bwrite dst).goto p (.install tail .unpin))
    | _ => none
  | .install tail .unpin =>
    match (s.thread p).held with
    | dst :: _ => some ((s.bunpin dst).goto p (.install tail .dropFirst))
    | _ => none
  | .install tail .dropFirst =>
    match (s.thread p).held with
    | _ :: src :: _ => some (s.releasesleep p src (.install tail .dropSecond))
    | _ => none
  | .install tail .dropSecond =>
    match (s.thread p).held with
    | dst :: _ => some (s.releasesleep p dst (.install (tail + 1) .readLog))
    | _ => none
  | .finish => some ({ s with committing := false }.wakeup.goto p .out)

/-- The next step of a thread. -/
def runThread : Option (LogSys P) :=
  match (s.thread p).micro with
  | .locking i => s.acquiresleep p i
  | .loading i => some (s.load p i)
  | .releasing i => some (s.unref p i)
  | .none => s.advance p (s.thread p).phase

/-- A thread that may call the functions of the log and the cache. -/
def atCall : Prop :=
  ((s.thread p).phase = .out ∨ (s.thread p).phase = .op) ∧ (s.thread p).micro = .none

instance : Decidable (s.atCall p) := by unfold atCall; infer_instance

/-- The effect of a label that is enabled. -/
def step (s : LogSys P) (a : LogAct P) : Option (LogSys P) :=
  if s.panicked.isSome then none
  else match a with
  | .beginOp p =>
    if s.atCall p ∧ (s.thread p).phase = .out then some (s.goto p .begin) else none
  | .endOp p =>
    if s.atCall p ∧ (s.thread p).phase = .op ∧ (s.thread p).dirty = [] then some (s.endOp p)
    else none
  | .bread p b => if s.atCall p then some (s.bget p b (s.thread p).phase) else none
  | .modify p i data =>
    if s.atCall p ∧ (s.thread p).phase = .op ∧ i ∈ (s.thread p).held
        ∧ Outside s.start (s.buf i).blockno then
      some ((s.setData i data).setThread p
        { s.thread p with dirty := i :: (s.thread p).dirty })
    else none
  | .logWrite p i =>
    if s.atCall p ∧ (s.thread p).phase = .op ∧ i ∈ (s.thread p).held
        ∧ Outside s.start (s.buf i).blockno
        ∧ ((s.buf i).blockno ∈ (s.thread p).logged ∨ (s.thread p).logged.length < MAXOPBLOCKS) then
      some (s.logWrite p i)
    else none
  | .brelse p i =>
    if s.atCall p ∧ i ∈ (s.thread p).held ∧ i ∉ (s.thread p).dirty then
      some (s.releasesleep p i (s.thread p).phase)
    else none
  | .run p => s.runThread p
  | .kill p => if (s.thread p).phase = .asleep then some (s.goto p .begin) else none

/-- Before the first operation nothing is in use, and the cache agrees with the disk. -/
structure Initial (s : LogSys P) : Prop where
  order : ∀ i, i ∈ s.order
  free : ∀ i, (s.buf i).refcnt = 0 ∧ (s.buf i).lock = none
  unique : ∀ i j, (s.buf i).dev = ROOTDEV → (s.buf j).dev = ROOTDEV →
    (s.buf i).blockno = (s.buf j).blockno → i = j
  clean : ∀ i, (s.buf i).dev = ROOTDEV → (s.buf i).valid → (s.buf i).data = s.disk (s.buf i).blockno
  outstanding : s.outstanding = 0
  committing : s.committing = false
  lh : s.lh = []
  thread : ∀ p, s.thread p = Thread.fresh
  panicked : s.panicked = none
  pinned : s.pinned = []
  spec : s.spec = s.disk
  commits : s.commits = []
  finished : s.finished = []

/-- An empty cache over a disk. -/
def boot (disk : ℕ → Block) (start : ℕ) : LogSys P where
  disk
  buf := fun _ =>
    { valid := false, dev := 0, blockno := 0, lock := none, refcnt := 0, data := fun _ => 0 }
  order := List.finRange NBUF
  start
  outstanding := 0
  committing := false
  lh := []
  thread := fun _ => Thread.fresh
  panicked := none
  pinned := []
  spec := disk
  commits := []
  finished := []

omit [DecidableEq P] in
theorem boot_initial (disk : ℕ → Block) (start : ℕ) : Initial (boot disk start : LogSys P) := by
  constructor
  case order => exact List.mem_finRange
  case free => exact fun _ => ⟨rfl, rfl⟩
  case unique =>
    intro i j hi
    cases hi
  case clean =>
    intro i hi
    cases hi
  all_goals intros; rfl

end LogSys

/-- The log and the cache as a transition system. -/
def logSystem (P : Type) [DecidableEq P] : TransitionSystem (LogSys P) (LogAct P) where
  init := LogSys.Initial
  step := LogSys.step

end Xv6
