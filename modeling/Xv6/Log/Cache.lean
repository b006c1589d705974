import Xv6.Lib.Mutex
import Xv6.Log.Protocol

/-!
# The invariant of the buffer cache

The reference count of a buffer is the number of threads that refer to it, plus one if its
block is pinned.  So a buffer that is recycled is used by nobody and not pinned, and a
thread that has got a buffer keeps its block until it releases it.
-/

namespace Xv6

open Function

/-- `1` if the thread is about to lock, load or give up the buffer. -/
def Micro.refs (i : BufId) : Micro → ℕ
  | locking j | loading j | releasing j => if j = i then 1 else 0
  | none => 0

namespace Thread

/-- The references of a thread to a buffer. -/
def uses (i : BufId) (t : Thread) : ℕ := t.held.count i + t.micro.refs i

/-- The thread holds the sleep lock of a buffer. -/
def locks (i : BufId) (t : Thread) : Prop := i ∈ t.held ∨ t.micro = .loading i

end Thread

section Invariant

variable {P : Type}

/-- `1` if the block of a buffer is pinned. -/
def LogSys.pins (s : LogSys P) (i : BufId) : ℕ :=
  if (s.buf i).dev = ROOTDEV ∧ (s.buf i).blockno ∈ s.pinned then 1 else 0

/-- The number of references of threads to a buffer. -/
def LogSys.users [Fintype P] (s : LogSys P) (i : BufId) : ℕ := tally (Thread.uses i) s.thread

structure CacheInv [Fintype P] (s : LogSys P) : Prop where
  order : ∀ i, i ∈ s.order
  unique : ∀ i j, (s.buf i).dev = ROOTDEV → (s.buf j).dev = ROOTDEV →
    (s.buf i).blockno = (s.buf j).blockno → i = j
  refcnt : ∀ i, (s.buf i).refcnt = s.users i + s.pins i
  dev : ∀ p i, 0 < (s.thread p).uses i → (s.buf i).dev = ROOTDEV
  lock : ∀ i, Guards (s.buf i).lock (Thread.locks i) s.thread
  nodup : ∀ p, (s.thread p).held.Nodup
  loading : ∀ p i, (s.thread p).micro = .loading i → i ∉ (s.thread p).held
  valid : ∀ p, ∀ i ∈ (s.thread p).held, (s.buf i).valid = true
  pinned : ∀ b ∈ s.pinned, ∃ i, (s.buf i).dev = ROOTDEV ∧ (s.buf i).blockno = b
    ∧ (s.buf i).valid = true

end Invariant

namespace CacheInv

variable {P : Type} [Fintype P] {s s' : LogSys P} {p : P} {i j : BufId} {t : Thread} {b : Buf P}

theorem uses_pos (hi : i ∈ t.held) : 0 < t.uses i := by
  have := List.count_pos_iff.mpr hi
  unfold Thread.uses
  omega

/-- A buffer that a thread refers to is counted. -/
theorem refcnt_pos (hI : CacheInv s) (hp : 0 < (s.thread p).uses i) : 0 < (s.buf i).refcnt := by
  have := le_tally (Thread.uses i) s.thread p
  have := hI.refcnt i
  unfold LogSys.users at this
  omega

/-- Changes of data, of the log and of the phases do not concern the cache. -/
theorem congr
    (hI : CacheInv s) (horder : s'.order = s.order) (hpinned : s'.pinned = s.pinned)
    (hbuf : ∀ i, ∃ data, s'.buf i = { s.buf i with data })
    (hheld : ∀ p, (s'.thread p).held = (s.thread p).held)
    (hmicro : ∀ p, (s'.thread p).micro = (s.thread p).micro) :
  CacheInv s'
  := by
  choose data hbuf using hbuf
  have huses : ∀ p i, (s'.thread p).uses i = (s.thread p).uses i := by
    intro p i
    unfold Thread.uses
    rw [hheld, hmicro]
  have hlocks : ∀ p i, (s'.thread p).locks i ↔ (s.thread p).locks i := by
    intro p i
    unfold Thread.locks
    rw [hheld, hmicro]
  constructor
  · rw [horder]
    exact hI.order
  · simp only [hbuf]
    exact hI.unique
  · intro i
    have husers : s'.users i = s.users i := tally_congr (fun p => huses p i)
    have hpins : s'.pins i = s.pins i := by simp only [LogSys.pins, hbuf, hpinned]
    rw [husers, hpins, hbuf]
    exact hI.refcnt i
  · simp only [huses, hbuf]
    exact hI.dev
  · intro i p
    rw [hbuf, hlocks]
    exact hI.lock i p
  · simp only [hheld]
    exact hI.nodup
  · simp only [hheld, hmicro]
    exact hI.loading
  · simp only [hheld, hbuf]
    exact hI.valid
  · simp only [hpinned, hbuf]
    exact hI.pinned

/-- Waking the sleepers does not concern the cache. -/
theorem wake (hI : CacheInv s) : CacheInv s.wakeup := by
  refine hI.congr rfl rfl (fun _ => ⟨_, rfl⟩) ?_ ?_
  · intro q
    apply Thread.wake_held
  · intro q
    apply Thread.wake_micro

variable [DecidableEq P]

/-- Neither do the other steps in which the thread of `p` keeps its buffers. -/
theorem keep
    (hI : CacheInv s) (horder : s'.order = s.order) (hpinned : s'.pinned = s.pinned)
    (hbuf : ∀ i, ∃ data, s'.buf i = { s.buf i with data })
    (hthread : s'.thread = update s.thread p t) (hheld : t.held = (s.thread p).held)
    (hmicro : t.micro = (s.thread p).micro) :
  CacheInv s'
  := by
  apply hI.congr horder hpinned hbuf
  · rw [hthread, Function.forall_update_iff s.thread (p := fun q t => t.held = (s.thread q).held)]
    exact ⟨hheld, fun _ _ => rfl⟩
  · rw [hthread, Function.forall_update_iff s.thread (p := fun q t => t.micro = (s.thread q).micro)]
    exact ⟨hmicro, fun _ _ => rfl⟩

/-- The thread of `p` changes its references to one buffer, which keeps its block. -/
structure Handles (s s' : LogSys P) (p : P) (i : BufId) (b : Buf P) (t : Thread) : Prop where
  buf : s'.buf = update s.buf i b
  thread : s'.thread = update s.thread p t
  order : ∀ j, j ∈ s.order → j ∈ s'.order
  dev : b.dev = (s.buf i).dev
  blockno : b.blockno = (s.buf i).blockno
  valid : (s.buf i).valid = true → b.valid = true
  uses : ∀ j, j ≠ i → t.uses j = (s.thread p).uses j
  count : b.refcnt + (s.thread p).uses i + s.pins i = (s.buf i).refcnt + t.uses i + s'.pins i
  pins : ∀ j, j ≠ i → s'.pins j = s.pins j
  root : 0 < t.uses i → b.dev = ROOTDEV
  lock : Guards b.lock (Thread.locks i) (update s.thread p t)
  locks : ∀ j, j ≠ i → (t.locks j ↔ (s.thread p).locks j)
  nodup : t.held.Nodup
  loading : ∀ j, t.micro = .loading j → j ∉ t.held
  held : ∀ j ∈ t.held, j ∈ (s.thread p).held ∨ j = i ∧ b.valid = true
  pinned : ∀ c ∈ s'.pinned, c ∈ s.pinned ∨ b.dev = ROOTDEV ∧ b.blockno = c ∧ b.valid = true

theorem handles (hI : CacheInv s) (h : Handles s s' p i b t) : CacheInv s' := by
  have hdev : ∀ j, (s'.buf j).dev = (s.buf j).dev := by
    intro j
    rw [h.buf]
    exact update_cases j h.dev (fun _ => rfl)
  have hno : ∀ j, (s'.buf j).blockno = (s.buf j).blockno := by
    intro j
    rw [h.buf]
    exact update_cases j h.blockno (fun _ => rfl)
  have hvalid : ∀ j, (s.buf j).valid = true → (s'.buf j).valid = true := by
    intro j
    rw [h.buf]
    exact update_cases j h.valid (fun _ => id)
  constructor
  · intro j
    exact h.order j (hI.order j)
  · simp only [hdev, hno]
    exact hI.unique
  · intro j
    have htally := tally_update (Thread.uses j) s.thread p t
    have hrefcnt := hI.refcnt j
    unfold LogSys.users at hrefcnt ⊢
    rw [h.thread, h.buf]
    by_cases hj : j = i
    · subst hj
      have := h.count
      rw [update_self]
      omega
    · rw [update_of_ne hj, h.pins j hj]
      have := h.uses j hj
      omega
  · intro q j
    rw [hdev, h.thread]
    refine update_cases q ?_ (fun _ => hI.dev q j)
    intro hq
    by_cases hj : j = i
    · rw [hj] at hq ⊢
      rw [← h.dev]
      exact h.root hq
    · rw [h.uses j hj] at hq
      exact hI.dev p j hq
  · intro j
    rw [h.buf, h.thread]
    exact update_cases j h.lock (fun hj => (hI.lock j).keep (h.locks j hj))
  · intro q
    rw [h.thread]
    exact update_cases q h.nodup (fun _ => hI.nodup q)
  · intro q
    rw [h.thread]
    exact update_cases q h.loading (fun _ => hI.loading q)
  · intro q j
    rw [h.thread]
    refine update_cases q ?_ (fun _ hj => hvalid j (hI.valid q j hj))
    intro hq
    obtain hj | ⟨hj, hv⟩ := h.held j hq
    · exact hvalid j (hI.valid p j hj)
    · rw [h.buf, hj, update_self]
      exact hv
  · intro c hc
    obtain hc | ⟨h1, h2, h3⟩ := h.pinned c hc
    · obtain ⟨j, h1, h2, h3⟩ := hI.pinned c hc
      exact ⟨j, by rw [hdev, h1], by rw [hno, h2], hvalid j h3⟩
    · use i
      rw [h.buf, update_self]
      exact ⟨h1, h2, h3⟩

omit [Fintype P] [DecidableEq P] in
/-- Only the block of a buffer and the pinned blocks decide whether it is pinned. -/
theorem pins_eq (hbuf : s'.buf = update s.buf i b) (hpinned : s'.pinned = s.pinned)
    (hdev : b.dev = (s.buf i).dev) (hno : b.blockno = (s.buf i).blockno) (j : BufId) :
  s'.pins j = s.pins j
  := by
  unfold LogSys.pins
  rw [hbuf, hpinned]
  refine update_cases j ?_ (fun _ => rfl)
  rw [hdev, hno]

/-! ### The operations of the cache -/

section

variable (hI : CacheInv s)

include hI

/-- `bget` finds the block. -/
theorem hit (hm : (s.thread p).micro = .none) (hdev : (s.buf i).dev = ROOTDEV) (b : ℕ)
    (ph : Phase) :
  CacheInv ((s.setBuf i { s.buf i with refcnt := (s.buf i).refcnt + 1 }).setThread p
    { s.thread p with phase := ph, micro := .locking i, asked := b })
  := by
  have hpins : ∀ j, LogSys.pins ((s.setBuf i { s.buf i with refcnt := (s.buf i).refcnt + 1 }).setThread p
      { s.thread p with phase := ph, micro := .locking i, asked := b }) j = s.pins j :=
    pins_eq rfl rfl rfl rfl
  refine hI.handles (i := i) ⟨rfl, rfl, fun _ => id, rfl, rfl, id, ?_, ?_, fun j _ => hpins j,
    fun _ => hdev, ?_, ?_, hI.nodup p, ?_, fun _ => Or.inl, fun _ => Or.inl⟩
  · intro j hj
    simp [Thread.uses, Micro.refs, hm, hj.symm]
  · rw [hpins]
    simp [Thread.uses, Micro.refs, hm]
    omega
  · apply (hI.lock i).keep
    simp [Thread.locks, hm]
  · intro j _
    simp [Thread.locks, hm]
  · intro j hj
    cases hj

/-- The sleep lock of a buffer is acquired. -/
theorem acquire (hm : (s.thread p).micro = .locking i) (hfree : (s.buf i).lock = none) :
  CacheInv ((s.setBuf i { s.buf i with lock := some p }).setThread p
    { s.thread p with micro := .loading i })
  := by
  have hpins : ∀ j, LogSys.pins ((s.setBuf i { s.buf i with lock := some p }).setThread p
      { s.thread p with micro := .loading i }) j = s.pins j := pins_eq rfl rfl rfl rfl
  have hlock := hI.lock i
  rw [hfree] at hlock
  refine hI.handles (i := i) ⟨rfl, rfl, fun _ => id, rfl, rfl, id, ?_, ?_, fun j _ => hpins j, ?_, ?_,
    ?_, hI.nodup p, ?_, fun _ => Or.inl, fun _ => Or.inl⟩
  · intro j _
    simp [Thread.uses, Micro.refs, hm]
  · rw [hpins]
    simp [Thread.uses, Micro.refs, hm]
  · intro _
    apply hI.dev p i
    simp [Thread.uses, Micro.refs, hm]
  · apply hlock.acquire
    exact Or.inr rfl
  · intro j hj
    simp [Thread.locks, hm, hj.symm]
  · intro j hj
    obtain rfl := Micro.loading.inj hj
    intro hheld
    exact hlock.not_inside p (Or.inl hheld)

/-- The buffer is loaded and belongs to the thread. -/
theorem load (hm : (s.thread p).micro = .loading i) : CacheInv (s.load p i) := by
  have hpins : ∀ j, (s.load p i).pins j = s.pins j := by
    refine pins_eq rfl rfl ?_ ?_
    · split_ifs <;> rfl
    · split_ifs <;> rfl
  have hvalid : (if (s.buf i).valid then s.buf i
      else { s.buf i with data := s.disk (s.buf i).blockno, valid := true }).valid = true := by
    split_ifs with h
    · exact h
    · rfl
  refine hI.handles (i := i) ⟨rfl, rfl, fun _ => id, ?_, ?_, fun _ => hvalid, ?_, ?_,
    fun j _ => hpins j, ?_, ?_, ?_, ?_, ?_, ?_, fun _ => Or.inl⟩
  · split_ifs <;> rfl
  · split_ifs <;> rfl
  · intro j hj
    simp [Thread.uses, Micro.refs, hm, hj.symm]
  · rw [hpins]
    simp only [Thread.uses, Micro.refs, hm, List.count_cons, beq_self_eq_true, if_true]
    split_ifs <;> simp
  · intro _
    have hdev : (s.buf i).dev = ROOTDEV := by
      apply hI.dev p i
      simp [Thread.uses, Micro.refs, hm]
    split_ifs
    · exact hdev
    · exact hdev
  · have hlock : (if (s.buf i).valid then s.buf i
        else { s.buf i with data := s.disk (s.buf i).blockno, valid := true }).lock
        = (s.buf i).lock := by
      split_ifs <;> rfl
    rw [hlock]
    apply (hI.lock i).keep
    simp [Thread.locks, hm]
  · intro j hj
    simp [Thread.locks, hm, hj, hj.symm]
  · exact List.nodup_cons.mpr ⟨hI.loading p i hm, hI.nodup p⟩
  · intro j hj
    cases hj
  · intro j hj
    obtain rfl | hj := List.mem_cons.mp hj
    · right
      exact ⟨rfl, hvalid⟩
    · left
      exact hj

/-- The sleep lock of a buffer is released. -/
theorem release (hm : (s.thread p).micro = .none) (hi : i ∈ (s.thread p).held)
    (ph : Phase) :
  CacheInv (s.releasesleep p i ph)
  := by
  have hpins : ∀ j, (s.releasesleep p i ph).pins j = s.pins j := pins_eq rfl rfl rfl rfl
  have hnot : i ∉ (s.thread p).held.erase i := (hI.nodup p).not_mem_erase
  refine hI.handles (i := i) ⟨rfl, rfl, fun _ => id, rfl, rfl, id, ?_, ?_, fun j _ => hpins j, ?_, ?_,
    ?_, (hI.nodup p).erase i, ?_, ?_, fun _ => Or.inl⟩
  · intro j hj
    simp [Thread.uses, Micro.refs, hm, hj.symm, List.count_erase_of_ne hj]
  · rw [hpins]
    have hpos := List.count_pos_iff.mpr hi
    simp only [Thread.uses, Micro.refs, hm, if_true, List.count_erase_self]
    omega
  · intro _
    exact hI.dev p i (uses_pos hi)
  · apply (hI.lock i).release (Or.inl hi)
    simp [Thread.locks, hnot]
  · intro j hj
    simp [Thread.locks, hm, List.mem_erase_of_ne hj]
  · intro j hj
    cases hj
  · intro j hj
    left
    exact List.mem_of_mem_erase hj

/-- The reference to a buffer is dropped. -/
theorem unref (hm : (s.thread p).micro = .releasing i) : CacheInv (s.unref p i) := by
  have hpins : ∀ j, (s.unref p i).pins j = s.pins j := pins_eq rfl rfl rfl rfl
  have huses : 0 < (s.thread p).uses i := by simp [Thread.uses, Micro.refs, hm]
  refine hI.handles (i := i) ⟨rfl, rfl, ?_, rfl, rfl, id, ?_, ?_, fun j _ => hpins j, ?_, ?_, ?_,
    hI.nodup p, ?_, fun _ => Or.inl, fun _ => Or.inl⟩
  · intro j hj
    simp only [LogSys.unref, LogSys.setThread]
    split_ifs
    · by_cases hji : j = i
      · rw [hji]
        exact List.mem_cons_self
      · exact List.mem_cons_of_mem _ ((List.mem_erase_of_ne hji).mpr hj)
    · exact hj
  · intro j hj
    simp [Thread.uses, Micro.refs, hm, hj.symm]
  · rw [hpins]
    have := hI.refcnt_pos huses
    simp only [Thread.uses, Micro.refs, hm, if_true]
    omega
  · intro _
    exact hI.dev p i huses
  · apply (hI.lock i).keep
    simp [Thread.locks, hm]
  · intro j _
    simp [Thread.locks, hm]
  · intro j hj
    cases hj

omit [DecidableEq P] in
/-- The pins of the other buffers do not depend on the block of buffer `i`. -/
theorem pins_of_ne (hdev : (s.buf i).dev = ROOTDEV) (hj : j ≠ i) (pinned : List ℕ)
    (hpinned : ∀ c, c ≠ (s.buf i).blockno → (c ∈ pinned ↔ c ∈ s.pinned)) :
  (if (s.buf j).dev = ROOTDEV ∧ (s.buf j).blockno ∈ pinned then 1 else 0) = s.pins j
  := by
  unfold LogSys.pins
  by_cases hdev' : (s.buf j).dev = ROOTDEV
  · have hne : (s.buf j).blockno ≠ (s.buf i).blockno := by
      intro heq
      exact hj (hI.unique j i hdev' hdev heq)
    simp only [hdev', true_and, hpinned _ hne]
  · simp only [hdev', false_and]

/-- `bpin`: a block that is not pinned gets pinned. -/
theorem pin (hi : i ∈ (s.thread p).held) (hfresh : (s.buf i).blockno ∉ s.pinned)
    (hbuf : s'.buf = update s.buf i { s.buf i with refcnt := (s.buf i).refcnt + 1 })
    (hthread : s'.thread = update s.thread p t) (horder : s'.order = s.order)
    (hpinned : s'.pinned = s.pinned ++ [(s.buf i).blockno]) (hheld : t.held = (s.thread p).held)
    (hmicro : t.micro = (s.thread p).micro) :
  CacheInv s'
  := by
  have hdev := hI.dev p i (uses_pos hi)
  have huses : ∀ j, t.uses j = (s.thread p).uses j := by
    intro j
    rw [Thread.uses, hheld, hmicro, Thread.uses]
  have hlocks : ∀ j, t.locks j ↔ (s.thread p).locks j := by
    intro j
    rw [Thread.locks, hheld, hmicro, Thread.locks]
  refine hI.handles (i := i) ⟨hbuf, hthread, ?_, rfl, rfl, id, fun j _ => huses j, ?_, ?_, fun _ => hdev,
    ?_, fun j _ => hlocks j, ?_, ?_, ?_, ?_⟩
  · rw [horder]
    exact fun _ => id
  · have h0 : s.pins i = 0 := if_neg (fun h => hfresh h.2)
    have h1 : s'.pins i = 1 := by
      unfold LogSys.pins
      rw [hbuf, update_self, hpinned, if_pos]
      exact ⟨hdev, by simp⟩
    rw [huses, h0, h1]
    simp only
    omega
  · intro j hj
    rw [← hI.pins_of_ne hdev hj s'.pinned, LogSys.pins, hbuf, update_of_ne hj]
    intro c hc
    rw [hpinned]
    simp [hc]
  · exact (hI.lock i).keep (hlocks i)
  · rw [hheld]
    exact hI.nodup p
  · rw [hheld, hmicro]
    exact hI.loading p
  · rw [hheld]
    exact fun _ => Or.inl
  · intro c hc
    rw [hpinned] at hc
    obtain hc | hc := List.mem_append.mp hc
    · left
      exact hc
    · right
      rw [List.mem_singleton.mp hc]
      exact ⟨hdev, rfl, hI.valid p i hi⟩

/-- `bunpin` of a block that is pinned. -/
theorem unpin (hi : i ∈ (s.thread p).held) (hmem : (s.buf i).blockno ∈ s.pinned)
    (hnodup : s.pinned.Nodup) (ph : Phase) :
  CacheInv ((s.bunpin i).goto p ph)
  := by
  have hdev := hI.dev p i (uses_pos hi)
  have hbuf : ((s.bunpin i).goto p ph).buf
      = update s.buf i { s.buf i with refcnt := (s.buf i).refcnt - 1 } := rfl
  refine hI.handles (i := i) ⟨hbuf, rfl, fun _ => id, rfl, rfl, id, fun _ _ => rfl, ?_, ?_,
    fun _ => hdev, ?_, fun _ _ => Iff.rfl, hI.nodup p, hI.loading p, fun _ => Or.inl, ?_⟩
  · have h1 : s.pins i = 1 := if_pos ⟨hdev, hmem⟩
    have h0 : ((s.bunpin i).goto p ph).pins i = 0 := by
      unfold LogSys.pins
      rw [hbuf, update_self, if_neg]
      rintro ⟨_, h⟩
      exact hnodup.not_mem_erase h
    have hpos := hI.refcnt_pos (uses_pos hi)
    rw [h0, h1]
    change (s.buf i).refcnt - 1 + (s.thread p).uses i + 1 = (s.buf i).refcnt + (s.thread p).uses i + 0
    omega
  · intro j hj
    rw [← hI.pins_of_ne hdev hj (s.pinned.erase (s.buf i).blockno), LogSys.pins, hbuf,
      update_of_ne hj]
    · rfl
    · intro c hc
      exact List.mem_erase_of_ne hc
  · exact (hI.lock i).keep Iff.rfl
  · intro c hc
    left
    exact List.mem_of_mem_erase hc

omit [DecidableEq P] in
/-- A buffer without references belongs to nobody. -/
theorem unused_of_refcnt (h : (s.buf i).refcnt = 0) :
  (∀ q, (s.thread q).uses i = 0) ∧ s.pins i = 0
  := by
  have hrefcnt := hI.refcnt i
  rw [h] at hrefcnt
  have husers : tally (Thread.uses i) s.thread = 0 := by
    unfold LogSys.users at hrefcnt
    omega
  exact ⟨tally_eq_zero.mp husers, by omega⟩

omit [DecidableEq P] in
/-- A pinned block is not recycled. -/
theorem pinned_ne (h : (s.buf i).refcnt = 0) (hdev : (s.buf j).dev = ROOTDEV)
    (hmem : (s.buf j).blockno ∈ s.pinned) :
  j ≠ i
  := by
  rintro rfl
  have hpins := (hI.unused_of_refcnt h).2
  rw [LogSys.pins, if_pos ⟨hdev, hmem⟩] at hpins
  cases hpins

end

omit [DecidableEq P] in
/-- An unused buffer gets the number of a block that is not cached. -/
theorem relabel (hI : CacheInv s) (hfree : (s.buf i).refcnt = 0)
    (hnone : ∀ j ∈ s.order, ¬ ((s.buf j).dev = ROOTDEV ∧ (s.buf j).blockno = b.blockno))
    (hlock : b.lock = (s.buf i).lock) (hrefcnt : b.refcnt = 0) :
  CacheInv (s.setBuf i b)
  := by
  obtain ⟨hunused, hunpinned⟩ := hI.unused_of_refcnt hfree
  have habsent : ∀ j, (s.buf j).dev = ROOTDEV → (s.buf j).blockno ≠ b.blockno :=
    fun j hdev hno => hnone j (hI.order j) ⟨hdev, hno⟩
  have hb : b.blockno ∉ s.pinned := by
    intro hb
    obtain ⟨j, hdev, hno, _⟩ := hI.pinned _ hb
    exact habsent j hdev hno
  have hused : ∀ q j, 0 < (s.thread q).uses j → j ≠ i := by
    rintro q j hj rfl
    rw [hunused q] at hj
    cases hj
  have hself : (s.setBuf i b).buf i = b := update_self ..
  have hother : ∀ j, j ≠ i → (s.setBuf i b).buf j = s.buf j := fun j hj => update_of_ne hj ..
  constructor
  · exact hI.order
  · intro j k
    simp only [LogSys.setBuf]
    refine update_cases j (update_cases k ?_ ?_) fun _ => update_cases k ?_ ?_
    · exact fun _ _ _ => rfl
    · exact fun _ _ hk hjk => absurd hjk.symm (habsent k hk)
    · exact fun hj _ hjk => absurd hjk (habsent j hj)
    · exact fun _ => hI.unique j k
  · intro j
    by_cases hj : j = i
    · have husers : (s.setBuf i b).users i = 0 := tally_eq_zero.mpr hunused
      rw [hj, husers, LogSys.pins, hself, hrefcnt, if_neg (fun h => hb h.2)]
    · rw [LogSys.pins, hother j hj]
      exact hI.refcnt j
  · intro q j hq
    rw [hother j (hused q j hq)]
    exact hI.dev q j hq
  · intro j
    simp only [LogSys.setBuf]
    refine update_cases j ?_ (fun _ => hI.lock j)
    rw [hlock]
    exact hI.lock i
  · exact hI.nodup
  · exact hI.loading
  · intro q j hj
    rw [hother j (hused q j (uses_pos hj))]
    exact hI.valid q j hj
  · intro c hc
    obtain ⟨j, hdev, hno, hvalid⟩ := hI.pinned c hc
    have hji : j ≠ i := hI.pinned_ne hfree hdev (hno ▸ hc)
    use j
    rw [hother j hji]
    exact ⟨hdev, hno, hvalid⟩

/-- `bget` recycles an unused buffer for a block that is not cached. -/
theorem recycle
    (hI : CacheInv s) (hm : (s.thread p).micro = .none) (hfree : (s.buf i).refcnt = 0) {b : ℕ}
    (hnone : ∀ j ∈ s.order, ¬ ((s.buf j).dev = ROOTDEV ∧ (s.buf j).blockno = b)) (ph : Phase) :
  CacheInv ((s.setBuf i
      { s.buf i with dev := ROOTDEV, blockno := b, valid := false, refcnt := 1 }).setThread p
    { s.thread p with phase := ph, micro := .locking i, asked := b })
  := by
  have hlabel : CacheInv (s.setBuf i { s.buf i with dev := ROOTDEV, blockno := b, valid := false }) :=
    hI.relabel hfree hnone rfl hfree
  have hhit := hlabel.hit (i := i) hm (by simp [LogSys.setBuf]) b ph
  simpa [LogSys.setBuf, LogSys.setThread, hfree] using hhit

end CacheInv

end Xv6
