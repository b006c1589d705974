import Xv6.Itable.Invariant

/-!
# What the inode table guarantees

In every state that processes following the discipline can reach without a panic, there is
at most one entry in use for an inode, its count is the number of references, an entry that
has been read and is not locked agrees with the disk, `iput` does not sleep while it has
`itable.lock`, and nobody uses the copy of an inode that has been freed.
-/

namespace Xv6

namespace Itable

variable {ι : Type} [Fintype ι]

/-- The guarantees. -/
structure Coherent (s : Itable ι) : Prop where
  /-- No two entries in use are for the same inode. -/
  unique : ∀ e e', 0 < (s.inode e).ref → 0 < (s.inode e').ref →
    (s.inode e).key = (s.inode e').key → e = e'
  /-- The count is the number of references that processes have. -/
  ref : ∀ e, (s.inode e).ref = ∑ t, (s.refs t).count e
  /-- A copy that has been read and is not locked is that of the disk. -/
  unlocked : ∀ e, 0 < (s.inode e).ref → (s.inode e).valid = true → (s.inode e).lock = none →
    (s.inode e).copy = s.disk (s.inode e).key
  /-- When a process has the only reference, nobody else has the lock or waits for it. -/
  alone : ∀ e t, e ∈ s.refs t → (s.inode e).ref = 1 → ∀ t', t' ≠ t →
    (s.inode e).lock ≠ some t' ∧ s.pc t' ≠ .ilockWait e
  /-- `iput` finds the lock free when it calls `acquiresleep` with `itable.lock`. -/
  awake : ∀ e t, s.pc t = .iputSleep e → s.lock = some t ∧ (s.inode e).lock = none
  /-- While an inode that `iput` has freed still has its old copy, `iput` has it locked. -/
  freed : ∀ e t, s.pc t = .iputValid e → (s.inode e).lock = some t
  /-- The copy that a process has locked has been read, and it is that of the disk unless the
  process has changed it. -/
  locked : ∀ e t, (s.inode e).lock = some t → s.pc t = .idle →
    (s.inode e).valid = true
      ∧ ((s.inode e).dirty = true ∨ (s.inode e).copy = s.disk (s.inode e).key)

variable [DecidableEq ι] {s : Itable ι}

theorem Inv.coherence (h : s.Inv) : s.Coherent where
  unique := h.unique
  ref := h.ref
  unlocked := by
    intro e hpos hvalid hl
    have hclean : (s.inode e).dirty ≠ true := fun hd => h.dirty e hd hl
    apply (h.coherent e hpos hvalid _).1.resolve_left hclean
    apply h.ne_iputValid
    intro t hl'
    rw [hl] at hl'
    cases hl'
  alone := by
    intro e t he hone t' hne
    constructor
    · intro hl
      exact hne (h.eq_of_ref_one hone he (h.holder e t' hl).1)
    · intro hwait
      apply hne (h.eq_of_ref_one hone he (h.mem_of_entry _))
      rw [hwait]
      rfl
  awake := by
    intro e t hk
    have hok := h.pc t
    rw [hk] at hok
    exact ⟨hok.1, h.lock_none_of_unheld hok.2.1 hok.2.2.1 hok.2.2.2.2.2⟩
  freed := by
    intro e t hk
    have hok := h.pc t
    rw [hk] at hok
    exact hok.1
  locked := by
    intro e t hl hpc
    refine ⟨?_, (h.of_locked hpc hl (by simp) (by simp)).1⟩
    have := (h.holder e t hl).2
    rw [hpc] at this
    simpa using this

/-- A state that has not panicked satisfies the invariant. -/
theorem inv_of_reachable {ninodes : ℕ} (hs : (itableSystem ι ninodes).Reachable s)
    (hok : s.panicked = false) :
  s.Inv
  := by
  have hinv : s.panicked = false → s.Inv := by
    apply hs.invariant (I := fun s => s.panicked = false → s.Inv)
    · rintro _ ⟨disk, rfl⟩ _
      exact Inv.boot disk
    · intro s a s' ih hstep hok'
      exact (ih (running hstep)).step (step_effect hstep hok')
  exact hinv hok

end Itable

/-- The inode table keeps its guarantees in every state that has not panicked. -/
theorem itable_coherent
    {ι : Type} [Fintype ι] [DecidableEq ι] {ninodes : ℕ} {s : Itable ι}
    (hs : (itableSystem ι ninodes).Reachable s) (hok : s.panicked = false) :
  s.Coherent
  := (Itable.inv_of_reachable hs hok).coherence

/-- One process frees an inode, and before it has given up its reference another one
allocates the inode again and locks it. -/
def reuse : List (InodeAct (Fin 2)) :=
  [.ialloc 0 1 T_FILE, .run 0, .run 0, .ilock 0 0, .run 0, .run 0, .iunlock 0 0, .iput 0 0, .run 0,
    .run 0, .run 0, .ialloc 1 1 T_DIR, .run 1, .run 1, .ilock 1 0, .run 0, .run 1, .run 1]

theorem itable_coherent_reuse :
  ∃ s, (itableSystem (Fin 2) 3).exec (Itable.boot fun _ => .allocated 0) reuse = some s
    ∧ s.pc 0 = .iputDrop 0 ∧ (s.inode 0).lock = some 1 ∧ (s.inode 0).copy = .allocated T_DIR
    ∧ s.Coherent
  := by
  have hrun : ((itableSystem (Fin 2) 3).exec (Itable.boot fun _ => .allocated 0) reuse).map
      (fun s => (s.pc 0, (s.inode 0).lock, (s.inode 0).copy, s.panicked))
      = some (.iputDrop 0, some 1, .allocated T_DIR, false) := by
    decide
  obtain ⟨s, hs, hobs⟩ := Option.map_eq_some_iff.mp hrun
  obtain ⟨hpc, hl, hcopy, hok⟩ : s.pc 0 = .iputDrop 0 ∧ (s.inode 0).lock = some 1
      ∧ (s.inode 0).copy = .allocated T_DIR ∧ s.panicked = false := by
    simpa only [Prod.mk.injEq] using hobs
  have hboot : (itableSystem (Fin 2) 3).Reachable (Itable.boot fun _ => .allocated 0) :=
    .init ⟨_, rfl⟩
  exact ⟨s, hs, hpc, hl, hcopy, itable_coherent (hboot.exec hs) hok⟩

end Xv6
