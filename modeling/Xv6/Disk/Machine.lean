import Xv6.Lib.Bytes
import Xv6.Lib.Stop
import Xv6.Param

/-!
# One process, the buffer cache and the disk

The machine on which a process runs the functions of `log.c` and `fs.c` by itself: the
disk, the buffers in the cache, and the log.  A buffer that nobody refers to may be recycled
before its block is asked for again; which releases are followed by that is a schedule
`recycle` about which nothing is assumed.  The power fails when more than `limit` blocks
are to be written.  Since the process is alone, it never waits for a lock.
-/

namespace Xv6

open Function

/-- The contents of a disk block. -/
abbrev Block := Bytes BSIZE

/-- A valid buffer of the cache. -/
structure CachedBlock where
  data : Block
  refcnt : ℕ

/-- Why a run stops. -/
inductive Fault where
  | power
  | panic (msg : String)
  deriving DecidableEq

/-- The state of the machine.  `start` and `lh` are the log's, `lh` being the block numbers
`lh.block[0..n)`; `written` lists the blocks written to the disk, the latest first, and
`released` counts the calls of `brelse`. -/
structure Machine where
  disk : ℕ → Block
  cache : ℕ → Option CachedBlock
  start : ℕ
  outstanding : ℕ
  lh : List ℕ
  written : List ℕ
  limit : ℕ
  recycle : ℕ → Bool
  released : ℕ

abbrev Kernel := EStateM Fault Machine

/-- The machine after a reboot, with an empty cache. -/
def Machine.boot (disk : ℕ → Block) (start limit : ℕ) (recycle : ℕ → Bool) : Machine where
  disk := disk
  cache := fun _ => none
  start := start
  outstanding := 0
  lh := []
  written := []
  limit := limit
  recycle := recycle
  released := 0

namespace Machine

/-- What `bread` finds in a block: the buffer if there is one, else the disk. -/
def view (m : Machine) (b : ℕ) : Block :=
  match m.cache b with
  | some buf => buf.data
  | none => m.disk b

/-- The number of references to the buffer of a block. -/
def refs (m : Machine) (b : ℕ) : ℕ :=
  match m.cache b with
  | some buf => buf.refcnt
  | none => 0

def setBuf (m : Machine) (b : ℕ) (buf : Option CachedBlock) : Machine :=
  { m with cache := update m.cache b buf }

end Machine

open Machine

def panic {α : Type} (msg : String) : Kernel α := throw (.panic msg)

/-- `bread`: the contents of a block, whose buffer gets one more reference. -/
def bread (b : ℕ) : Kernel Block := do
  let m ← get
  set (m.setBuf b (some { data := m.view b, refcnt := m.refs b + 1 }))
  return m.view b

/-- The kernel changes the data of a buffer it has got from `bread`. -/
def fill (b : ℕ) (data : Block) : Kernel Unit := do
  let m ← get
  match m.cache b with
  | some buf => set (m.setBuf b (some { buf with data }))
  | none => panic "fill"

/-- `bwrite`: write a buffer to the disk. -/
def bwrite (b : ℕ) : Kernel Unit := do
  let m ← get
  match m.cache b with
  | some buf =>
    if m.written.length < m.limit then
      set { m with disk := update m.disk b buf.data, written := b :: m.written }
    else throw .power
  | none => panic "bwrite"

/-- `brelse`: drop a reference.  A buffer without references may be recycled. -/
def brelse (b : ℕ) : Kernel Unit := do
  let m ← get
  match m.cache b with
  | some buf =>
    let m := { m with released := m.released + 1 }
    if buf.refcnt = 1 ∧ m.recycle m.released then set (m.setBuf b none)
    else set (m.setBuf b (some { buf with refcnt := buf.refcnt - 1 }))
  | none => panic "brelse"

def bpin (b : ℕ) : Kernel Unit := do
  let m ← get
  match m.cache b with
  | some buf => set (m.setBuf b (some { buf with refcnt := buf.refcnt + 1 }))
  | none => panic "bpin"

def bunpin (b : ℕ) : Kernel Unit := do
  let m ← get
  match m.cache b with
  | some buf => set (m.setBuf b (some { buf with refcnt := buf.refcnt - 1 }))
  | none => panic "bunpin"

/-! ### What the operations do -/

/-- What can be observed of a machine: a buffer without references that agrees with the disk
is as good as none. -/
@[ext]
structure Obs where
  disk : ℕ → Block
  view : ℕ → Block
  refs : ℕ → ℕ
  start : ℕ
  outstanding : ℕ
  lh : List ℕ
  written : List ℕ
  limit : ℕ
  recycle : ℕ → Bool

def Machine.obs (m : Machine) : Obs where
  disk := m.disk
  view := m.view
  refs := m.refs
  start := m.start
  outstanding := m.outstanding
  lh := m.lh
  written := m.written
  limit := m.limit
  recycle := m.recycle

namespace Machine

variable (m : Machine) (b : ℕ)

theorem obs_setBuf (slot : Option CachedBlock) :
  (m.setBuf b slot).obs = { m.obs with
    view := update m.view b (slot.elim (m.disk b) CachedBlock.data)
    refs := update m.refs b (slot.elim 0 CachedBlock.refcnt) }
  := by
  simp only [obs, Obs.mk.injEq]
  refine ⟨rfl, ?_, ?_, rfl, rfl, rfl, rfl, rfl, rfl⟩
  all_goals
    funext c
    by_cases hc : c = b
    · subst hc; cases slot <;> simp [view, refs, setBuf]
    · simp [view, refs, setBuf, hc]

theorem obs_setBuf_some (buf : CachedBlock) :
  (m.setBuf b (some buf)).obs = { m.obs with
    view := update m.view b buf.data
    refs := update m.refs b buf.refcnt }
  := m.obs_setBuf b (some buf)

theorem obs_setBuf_none :
  (m.setBuf b none).obs = { m.obs with
    view := update m.view b (m.disk b)
    refs := update m.refs b 0 }
  := m.obs_setBuf b none

theorem obs_setLh (lh : List ℕ) : { m with lh }.obs = { m.obs with lh } := rfl

/-- Writing a buffer changes the disk and not what is found in the block. -/
theorem view_setDisk {buf : CachedBlock} (hbuf : m.cache b = some buf) (w : List ℕ) :
  { m with disk := update m.disk b buf.data, written := w }.view = m.view
  := by
  funext c
  unfold view
  cases hc : m.cache c with
  | none =>
    have hcb : c ≠ b := by rintro rfl; rw [hbuf] at hc; cases hc
    simp [hcb]
  | some _ => rfl

/-- A block that is referred to has a buffer. -/
theorem exists_buf {m : Machine} {b : ℕ} (h : 0 < m.refs b) :
  ∃ buf, m.cache b = some buf ∧ buf.data = m.view b ∧ buf.refcnt = m.refs b
  := by
  unfold refs view at *
  cases hb : m.cache b with
  | none => simp [hb] at h
  | some buf => exact ⟨buf, rfl, rfl, rfl⟩

end Machine

section Rules

open Stop

variable {m : Machine} {b : ℕ} {C : Fault → Machine → Prop}

theorem wp_bread {Q : Block → Machine → Prop}
    (h : ∀ m', m'.obs = { m.obs with refs := update m.obs.refs b (m.obs.refs b + 1) } →
      Q (m.obs.view b) m') :
  wp (bread b) Q C m
  := by
  apply h
  rw [obs_setBuf_some, update_eq_self]
  rfl

variable {Q : Unit → Machine → Prop}

theorem wp_fill {data : Block} (hb : 0 < m.obs.refs b)
    (h : ∀ m', m'.obs = { m.obs with view := update m.obs.view b data } → Q () m') :
  wp (fill b data) Q C m
  := by
  obtain ⟨buf, hbuf, hdata, hrefs⟩ := exists_buf hb
  simp only [fill, wp_bind, wp_get, hbuf, wp_set]
  apply h
  rw [obs_setBuf_some, hrefs, update_eq_self]
  rfl

variable (hb : 0 < m.obs.refs b)

include hb

theorem wp_bwrite (h : ∀ m', m'.obs = { m.obs with
    disk := update m.obs.disk b (m.obs.view b), written := b :: m.obs.written } → Q () m')
    (hC : m.obs.limit ≤ m.obs.written.length → C .power m) :
  wp (bwrite b) Q C m
  := by
  obtain ⟨buf, hbuf, hdata, hrefs⟩ := exists_buf hb
  simp only [bwrite, wp_bind, wp_get, hbuf]
  split_ifs with hlimit
  · simp only [wp_set]
    apply h
    simp only [obs]
    rw [m.view_setDisk b hbuf, hdata]
    rfl
  · simp only [wp_throw]
    apply hC (Nat.le_of_not_lt hlimit)

/-- Whatever becomes of the buffer: it stays, or it is recycled and the block is found on the
disk again. -/
theorem wp_brelse_or (hkeep : ∀ m', m'.obs = { m.obs with
    refs := update m.obs.refs b (m.obs.refs b - 1) } → Q () m')
    (hdrop : m.obs.refs b = 1 → (∃ k, m.obs.recycle k = true) → ∀ m', m'.obs = { m.obs with
    view := update m.obs.view b (m.obs.disk b)
    refs := update m.obs.refs b 0 } → Q () m') :
  wp (brelse b) Q C m
  := by
  obtain ⟨buf, hbuf, hdata, hrefs⟩ := exists_buf hb
  simp only [brelse, wp_bind, wp_get, hbuf]
  split_ifs with hrecycle
  · simp only [wp_set]
    apply hdrop (hrefs.symm.trans hrecycle.1) ⟨_, hrecycle.2⟩
    change (m.setBuf b none).obs = _
    rw [obs_setBuf_none]
    rfl
  · simp only [wp_set]
    apply hkeep
    change (m.setBuf b (some _)).obs = _
    rw [obs_setBuf_some, hrefs, hdata, update_eq_self]
    rfl

/-- A buffer that agrees with the disk, or has other references, is the same afterwards. -/
theorem wp_brelse (hclean : m.obs.refs b ≠ 1 ∨ m.obs.view b = m.obs.disk b)
    (h : ∀ m', m'.obs = { m.obs with refs := update m.obs.refs b (m.obs.refs b - 1) } →
    Q () m') :
  wp (brelse b) Q C m
  := by
  apply wp_brelse_or hb h
  intro hone _ m' hm'
  have hview : m.obs.view b = m.obs.disk b := hclean.resolve_left (not_not_intro hone)
  apply h
  rw [hm', ← hview, update_eq_self, hone]

theorem wp_bpin (h : ∀ m', m'.obs = { m.obs with refs := update m.obs.refs b (m.obs.refs b + 1) } →
    Q () m') :
  wp (bpin b) Q C m
  := by
  obtain ⟨buf, hbuf, hdata, hrefs⟩ := exists_buf hb
  simp only [bpin, wp_bind, wp_get, hbuf, wp_set]
  apply h
  rw [obs_setBuf_some, hrefs, hdata, update_eq_self]
  rfl

theorem wp_bunpin
    (h : ∀ m', m'.obs = { m.obs with refs := update m.obs.refs b (m.obs.refs b - 1) } →
    Q () m') :
  wp (bunpin b) Q C m
  := by
  obtain ⟨buf, hbuf, hdata, hrefs⟩ := exists_buf hb
  simp only [bunpin, wp_bind, wp_get, hbuf, wp_set]
  apply h
  rw [obs_setBuf_some, hrefs, hdata, update_eq_self]
  rfl

end Rules

end Xv6
