import Xv6.Itable.System

/-!
# What a step of the inode table does

One constructor for each way in which a function of the table goes on without a panic, with
what has been checked on the way there.  Every effect ends with the place the process is in
then, also where that is the place it was in.
-/

namespace Xv6

open Function

namespace Itable

variable {ι : Type} [DecidableEq ι] {t : ι} {key : ℕ × ℕ} {fresh : Bool}

/-- `iget` has found the inode in the table, or recycled an entry for it. -/
inductive Got (s : Itable ι) (t : ι) (key : ℕ × ℕ) (fresh : Bool) : Itable ι → Prop where
  | found {e : InodePtr} (hfind : s.find key = some e) :
      Got s t key fresh ((s.gain t e).setFresh e (fresh || s.fresh e))
  | recycled {e : InodePtr} (hfind : s.find key = none) (hempty : s.empty = some e) :
      Got s t key fresh
        (((s.setInode e ((s.inode e).recycle key)).setRefs t (e :: s.refs t)).setFresh e fresh)

/-- The effect of a step. -/
inductive Effect (ninodes : ℕ) (s : Itable ι) : InodeAct ι → Itable ι → Prop where
  | iget {t : ι} {key : ℕ × ℕ} {s' : Itable ι} (hpc : s.pc t = .idle) (hfree : s.lock = none)
      (hlink : 0 < (s.disk key).nlink) (hgot : s.Got t key false s') :
      Effect ninodes s (.iget t key) (s'.goto t .idle)
  | idup {t : ι} {e : InodePtr} (hpc : s.pc t = .idle) (hfree : s.lock = none)
      (he : e ∈ s.refs t) :
      Effect ninodes s (.idup t e) (((s.gain t e).setFresh e (s.fresh e)).goto t .idle)
  | ilock {t : ι} {e : InodePtr} (hpc : s.pc t = .idle) (he : e ∈ s.refs t) :
      Effect ninodes s (.ilock t e) (s.goto t (.ilockWait e))
  | modify {t : ι} {e : InodePtr} {d : Dinode} (hpc : s.pc t = .idle)
      (hl : (s.inode e).lock = some t) (htype : d.type ≠ 0) :
      Effect ninodes s (.modify t e d) ((s.setInode e ((s.inode e).change d)).goto t .idle)
  | iupdate {t : ι} {e : InodePtr} (hpc : s.pc t = .idle) (hl : (s.inode e).lock = some t) :
      Effect ninodes s (.iupdate t e) ((s.save e (s.inode e).copy).goto t .idle)
  | iunlock {t : ι} {e : InodePtr} (hpc : s.pc t = .idle) (hl : (s.inode e).lock = some t)
      (hclean : (s.inode e).dirty = false) :
      Effect ninodes s (.iunlock t e) ((s.setInode e ((s.inode e).setLock none)).goto t .idle)
  /-- `iput` has found the last reference to an inode without links. -/
  | last {t : ι} {e : InodePtr} (hpc : s.pc t = .idle) (hfree : s.lock = none)
      (he : e ∈ s.refs t) (hkept : (s.inode e).lock = some t → 2 ≤ (s.refs t).count e)
      (hone : (s.inode e).ref = 1) (hvalid : (s.inode e).valid = true)
      (hnlink : (s.inode e).copy.nlink = 0) :
      Effect ninodes s (.iput t e) ((s.setLock (some t)).goto t (.iputSleep e))
  | iput {t : ι} {e : InodePtr} (hpc : s.pc t = .idle) (hfree : s.lock = none)
      (he : e ∈ s.refs t) (hkept : (s.inode e).lock = some t → 2 ≤ (s.refs t).count e)
      (hmore : ¬ ((s.inode e).ref = 1 ∧ (s.inode e).valid = true ∧ (s.inode e).copy.nlink = 0)) :
      Effect ninodes s (.iput t e) ((s.lose t e).goto t .idle)
  | ialloc {t : ι} {dev type : ℕ} (hpc : s.pc t = .idle) (htype : type ≠ 0) :
      Effect ninodes s (.ialloc t dev type) (s.goto t (.iallocScan dev type 1))
  /-- `acquiresleep` in `ilock`. -/
  | lock {t : ι} {e : InodePtr} (hpc : s.pc t = .ilockWait e) (hl : (s.inode e).lock = none) :
      Effect ninodes s (.run t) ((s.setInode e ((s.inode e).setLock (some t))).goto t
        (if (s.inode e).valid then .idle else .ilockRead e))
  | read {t : ι} {e : InodePtr} (hpc : s.pc t = .ilockRead e)
      (htype : (s.disk (s.inode e).key).type ≠ 0) :
      Effect ninodes s (.run t)
        (((s.setInode e ((s.inode e).fill (s.disk (s.inode e).key))).setFresh e false).goto t .idle)
  /-- `acquiresleep` in `iput`. -/
  | wake {t : ι} {e : InodePtr} (hpc : s.pc t = .iputSleep e) (hl : (s.inode e).lock = none) :
      Effect ninodes s (.run t)
        (((s.setInode e ((s.inode e).setLock (some t))).setLock none).goto t (.iputTrunc e))
  | trunc {t : ι} {e : InodePtr} (hpc : s.pc t = .iputTrunc e) :
      Effect ninodes s (.run t) ((s.save e (s.inode e).copy.truncated).goto t (.iputFree e))
  | free {t : ι} {e : InodePtr} (hpc : s.pc t = .iputFree e) :
      Effect ninodes s (.run t) ((s.save e ((s.inode e).copy.setType 0)).goto t (.iputValid e))
  | invalidate {t : ι} {e : InodePtr} (hpc : s.pc t = .iputValid e) :
      Effect ninodes s (.run t)
        ((s.setInode e ((s.inode e).invalidate.setLock none)).goto t (.iputDrop e))
  | drop {t : ι} {e : InodePtr} (hpc : s.pc t = .iputDrop e) (hfree : s.lock = none) :
      Effect ninodes s (.run t) ((s.lose t e).goto t .idle)
  /-- `ialloc` has found a free inode. -/
  | allocate {t : ι} {dev type inum : ℕ} (hpc : s.pc t = .iallocScan dev type inum)
      (hlt : inum < ninodes) (htype : (s.disk (dev, inum)).type = 0) :
      Effect ninodes s (.run t)
        ((s.setDisk (dev, inum) (.allocated type)).goto t (.iallocGet (dev, inum)))
  /-- `ialloc` looks further, or has looked at every inode. -/
  | scan {t : ι} {dev type inum : ℕ} {k : InodePc} (hpc : s.pc t = .iallocScan dev type inum)
      (hnext : k = .iallocScan dev type (inum + 1) ∨ k = .idle) :
      Effect ninodes s (.run t) (s.goto t k)
  /-- `ialloc` calls `iget`. -/
  | handOut {t : ι} {key : ℕ × ℕ} {s' : Itable ι} (hpc : s.pc t = .iallocGet key)
      (hfree : s.lock = none) (hgot : s.Got t key true s') :
      Effect ninodes s (.run t) (s'.goto t .idle)

theorem got_of_get {s : Itable ι} (hok : (s.get t key fresh).panicked = false) :
  s.Got t key fresh (s.get t key fresh)
  := by
  unfold get at hok ⊢
  cases hfind : s.find key with
  | some e => exact .found hfind
  | none =>
    rw [hfind] at hok
    cases hempty : s.empty with
    | some e => exact .recycled hfind hempty
    | none =>
      rw [hempty] at hok
      cases hok

variable {s s' : Itable ι}

theorem Got.pc_eq (h : s.Got t key fresh s') : s'.pc = s.pc := by
  cases h <;> rfl

/-- An idle process stays where it is. -/
theorem goto_idle {s : Itable ι} (s' : Itable ι) (hpc : s.pc t = .idle) (hs' : s'.pc = s.pc) :
  s'.goto t .idle = s'
  := by
  unfold goto
  rw [← hpc, ← hs', update_eq_self]

omit [DecidableEq ι] in
theorem setFresh_self (s s' : Itable ι) (e : InodePtr) (hs' : s'.fresh = s.fresh) :
  s'.setFresh e (s.fresh e) = s'
  := by
  unfold setFresh
  rw [← hs', update_eq_self]

variable {ninodes : ℕ} {a : InodeAct ι}

/-- The effect of a process that goes on. -/
theorem advance_effect
    (hstep : s.advance ninodes t (s.pc t) = some s') (hok : s'.panicked = false) :
  s.Effect ninodes (.run t) s'
  := by
  cases hpc : s.pc t with simp only [hpc, advance] at hstep
  | idle => cases hstep
  | ilockWait e =>
    split at hstep
    · rename_i hl
      cases hstep
      exact .lock hpc hl
    · cases hstep
  | ilockRead e =>
    cases hstep
    split at hok
    · cases hok
    · rename_i htype
      rw [if_neg htype]
      exact .read hpc htype
  | iputSleep e =>
    split at hstep
    · rename_i hl
      cases hstep
      exact .wake hpc hl
    · cases hstep
  | iputTrunc e =>
    cases hstep
    exact .trunc hpc
  | iputFree e =>
    cases hstep
    exact .free hpc
  | iputValid e =>
    cases hstep
    exact .invalidate hpc
  | iputDrop e =>
    split at hstep
    · rename_i hfree
      cases hstep
      exact .drop hpc hfree
    · cases hstep
  | iallocScan dev type inum =>
    split at hstep
    · rename_i hlt
      split at hstep
      · rename_i htype
        cases hstep
        exact .allocate hpc hlt htype
      · cases hstep
        exact .scan hpc (.inl rfl)
    · cases hstep
      exact .scan hpc (.inr rfl)
  | iallocGet key =>
    split at hstep
    · rename_i hfree
      cases hstep
      exact .handOut hpc hfree (got_of_get hok)
    · cases hstep

/-- Every step has one of the effects, unless it panics. -/
theorem step_effect (hstep : s.step ninodes a = some s') (hok : s'.panicked = false) :
  s.Effect ninodes a s'
  := by
  unfold step at hstep
  split at hstep
  · cases hstep
  cases a with simp only at hstep
  | run t => exact advance_effect hstep hok
  | iget t key =>
    split at hstep
    · rename_i hg
      cases hstep
      have hgot := got_of_get hok
      rw [← goto_idle _ hg.1 hgot.pc_eq]
      exact .iget hg.1 hg.2.1 hg.2.2 hgot
    · cases hstep
  | idup t e =>
    split at hstep
    · rename_i hg
      cases hstep
      rw [← setFresh_self s (s.gain t e) e rfl,
        ← goto_idle ((s.gain t e).setFresh e (s.fresh e)) hg.1 rfl]
      exact .idup hg.1 hg.2.1 hg.2.2
    · cases hstep
  | ilock t e =>
    split at hstep
    · rename_i hg
      cases hstep
      split at hok
      · cases hok
      · rename_i href
        rw [if_neg href]
        exact .ilock hg.1 hg.2
    · cases hstep
  | modify t e d =>
    split at hstep
    · rename_i hg
      cases hstep
      rw [← goto_idle (s.setInode _ _) hg.1 rfl]
      exact .modify hg.1 hg.2.1 hg.2.2
    · cases hstep
  | iupdate t e =>
    split at hstep
    · rename_i hg
      cases hstep
      rw [← goto_idle (s.save _ _) hg.1 rfl]
      exact .iupdate hg.1 hg.2
    · cases hstep
  | iunlock t e =>
    split at hstep
    · rename_i hg
      cases hstep
      split at hok
      · cases hok
      · rename_i href
        rw [if_neg href, ← goto_idle (s.setInode _ _) hg.1 rfl]
        exact .iunlock hg.1 hg.2.1 hg.2.2
    · cases hstep
  | iput t e =>
    split at hstep
    · rename_i hg
      split at hstep
      · rename_i hlast
        cases hstep
        exact .last hg.1 hg.2.1 hg.2.2.1 hg.2.2.2 hlast.1 hlast.2.1 hlast.2.2
      · rename_i hmore
        cases hstep
        rw [← goto_idle (s.lose _ _) hg.1 rfl]
        exact .iput hg.1 hg.2.1 hg.2.2.1 hg.2.2.2 hmore
    · cases hstep
  | ialloc t dev type =>
    split at hstep
    · rename_i hg
      cases hstep
      exact .ialloc hg.1 hg.2
    · cases hstep

/-- There are no steps after a panic. -/
theorem running (hstep : s.step ninodes a = some s') : s.panicked = false := by
  cases hp : s.panicked with
  | false => rfl
  | true =>
    have hnone : s.step ninodes a = none := if_pos hp
    rw [hnone] at hstep
    cases hstep

/-- A count drops to 0 in `iput` only: at once, or at its end. -/
theorem Effect.of_ref_zero {e : InodePtr}
    (h : s.Effect ninodes a s') (hpos : 0 < (s.inode e).ref) (hzero : (s'.inode e).ref = 0) :
  (∃ t, s.pc t = .idle ∧ e ∈ s.refs t ∧ ((s.inode e).lock = some t → 2 ≤ (s.refs t).count e)
      ∧ (s.inode e).ref = 1
      ∧ ¬ ((s.inode e).ref = 1 ∧ (s.inode e).valid = true ∧ (s.inode e).copy.nlink = 0)
      ∧ a = .iput t e ∧ s'.disk = s.disk)
    ∨ ∃ t, s.pc t = .iputDrop e ∧ s'.disk = s.disk
  := by
  have hkept : ∀ {e₁ ip}, (0 < (s.inode e₁).ref → 0 < ip.ref) →
      (update s.inode e₁ ip e).ref ≠ 0 := by
    intro e₁ ip hip
    by_cases he : e = e₁
    · subst he
      rw [update_self]
      exact (hip hpos).ne'
    · rw [update_of_ne he]
      exact hpos.ne'
  have hlost : ∀ {e₁},
      (update s.inode e₁ ((s.inode e₁).setRef ((s.inode e₁).ref - 1)) e).ref = 0 →
      e = e₁ ∧ (s.inode e).ref = 1 := by
    intro e₁ h0
    by_cases he : e = e₁
    · subst he
      rw [update_self] at h0
      simp only [InCore.setRef] at h0
      exact ⟨rfl, by omega⟩
    · rw [update_of_ne he] at h0
      omega
  cases h with
  | iget _ _ _ hgot | handOut _ _ hgot =>
    cases hgot with
    | found => exact absurd hzero (hkept fun _ => Nat.succ_pos _)
    | recycled => exact absurd hzero (hkept fun _ => one_pos)
  | idup => exact absurd hzero (hkept fun _ => Nat.succ_pos _)
  | ilock | last | ialloc | allocate | scan => exact absurd hzero hpos.ne'
  | modify | iupdate | iunlock | lock | read | wake | trunc | free | invalidate =>
    exact absurd hzero (hkept id)
  | iput hpc _ he hk hmore =>
    obtain ⟨rfl, hone⟩ := hlost hzero
    exact .inl ⟨_, hpc, he, hk, hone, hmore, rfl, rfl⟩
  | drop hpc _ =>
    obtain ⟨rfl, -⟩ := hlost hzero
    exact .inr ⟨_, hpc, rfl⟩

end Itable

end Xv6
