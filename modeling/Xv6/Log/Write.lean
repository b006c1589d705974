import Xv6.Log.Commit

/-!
# Logging a modified block

`log_write` takes the place of `bwrite` in the file system: it records the number of the
block and pins its buffer in the cache.  Reading a block, changing it, logging it and
releasing its buffer has an effect on what can be observed that is given by `Obs.log`, and
the functions of the file system are described by the blocks they log.
-/

namespace Xv6

open Machine Stop Function

/-- `log_write`: record the block number of a buffer and pin it in the cache. -/
def logWrite (b : ℕ) : Kernel Unit := do
  let m ← get
  if LOGBLOCKS ≤ m.lh.length then panic "too big a transaction"
  else if m.outstanding < 1 then panic "log_write outside of trans"
  else if b ∈ m.lh then pure ()
  else do
    bpin b
    modify fun m => { m with lh := m.lh ++ [b] }

/-- The faults of `log_write`. -/
def LogFault (e : Fault) (m : Machine) : Prop :=
  e = .panic "too big a transaction" ∧ LOGBLOCKS ≤ m.lh.length
    ∨ e = .panic "log_write outside of trans" ∧ m.outstanding < 1

/-- The condition accepts the faults of `log_write`. -/
def Tolerates (C : Fault → Machine → Prop) : Prop := ∀ e m, LogFault e m → C e m

/-- The condition accepts every fault but the panic of `bfree`, the one that the file system
has to rule out. -/
def Benign {σ : Type} (C : Fault → σ → Prop) : Prop :=
  ∀ e s, e ≠ .panic "freeing free block" → C e s

theorem Benign.tolerates {C : Fault → Machine → Prop} (h : Benign C) : Tolerates C := by
  rintro e m (⟨rfl, -⟩ | ⟨rfl, -⟩)
  · exact h _ m (by decide)
  · exact h _ m (by decide)

theorem LogFault.tolerates : Tolerates LogFault := fun _ _ h => h

namespace Obs

variable (o : Obs) (b : ℕ) (data : Block)

/-- One more reference to the buffer of a block. -/
def hold : Obs := { o with refs := update o.refs b (o.refs b + 1) }

/-- The buffer of a block gets new contents. -/
def setView : Obs := { o with view := update o.view b data }

/-- The block gets new contents and is in the log, where it is pinned. -/
def log : Obs where
  disk := o.disk
  view := update o.view b data
  refs := if b ∈ o.lh then o.refs else update o.refs b (o.refs b + 1)
  start := o.start
  outstanding := o.outstanding
  lh := if b ∈ o.lh then o.lh else o.lh ++ [b]
  written := o.written
  limit := o.limit
  recycle := o.recycle

/-- Recycling the buffer of the block does not change what is found in it. -/
def Settled : Prop := 0 < o.refs b ∨ o.view b = o.disk b

/-- The blocks in the log have their buffers pinned. -/
def Pinned : Prop := ∀ b ∈ o.lh, 0 < o.refs b

/-! ### The effect of logging -/

@[simp] theorem hold_view : (o.hold b).view = o.view := rfl

@[simp] theorem hold_lh : (o.hold b).lh = o.lh := rfl

@[simp] theorem log_view : (o.log b data).view = update o.view b data := rfl

@[simp] theorem log_disk : (o.log b data).disk = o.disk := rfl

variable {o b data} {c : ℕ}

theorem log_lh : (o.log b data).lh = if b ∈ o.lh then o.lh else o.lh ++ [b] := rfl

theorem log_refs :
  (o.log b data).refs = if b ∈ o.lh then o.refs else update o.refs b (o.refs b + 1)
  := rfl

theorem mem_log_lh : c ∈ (o.log b data).lh ↔ c ∈ o.lh ∨ c = b := by
  rw [log_lh]
  split_ifs with hb
  · constructor
    · exact Or.inl
    · rintro (hc | rfl)
      · exact hc
      · exact hb
  · simp

theorem nodup_log_lh (h : o.lh.Nodup) : (o.log b data).lh.Nodup := by
  rw [log_lh]
  split_ifs with hb
  · exact h
  · apply List.nodup_append.mpr
    simp [h]
    rintro c hc rfl
    exact hb hc

theorem le_log_refs (c : ℕ) : o.refs c ≤ (o.log b data).refs c := by
  rw [log_refs]
  split_ifs with hb
  · exact Nat.le_refl _
  · by_cases hc : c = b
    · subst hc
      simp
    · simp [hc]

theorem le_hold_refs (b c : ℕ) : o.refs c ≤ (o.hold b).refs c := by
  unfold hold
  by_cases hc : c = b
  · subst hc
    simp
  · simp [hc]

theorem Pinned.hold (h : o.Pinned) : (o.hold b).Pinned := by
  intro c hc
  exact Nat.lt_of_lt_of_le (h c hc) (le_hold_refs b c)

theorem Settled.hold (h : o.Settled c) : (o.hold b).Settled c := by
  apply h.imp_left
  intro hpos
  exact Nat.lt_of_lt_of_le hpos (le_hold_refs b c)

theorem Pinned.log (h : o.Pinned) : (o.log b data).Pinned := by
  intro c hc
  rw [mem_log_lh] at hc
  rcases hc with hc | rfl
  · exact Nat.lt_of_lt_of_le (h c hc) (le_log_refs c)
  · by_cases hcl : c ∈ o.lh
    · exact Nat.lt_of_lt_of_le (h c hcl) (le_log_refs c)
    · simp [log_refs, hcl]

theorem Pinned.settled (h : o.Pinned) (hc : c ∈ o.lh) : o.Settled c := Or.inl (h c hc)

/-- A block that was settled stays so, and the logged block is settled. -/
theorem Settled.log (hp : o.Pinned) (h : o.Settled c ∨ c = b) : (o.log b data).Settled c := by
  by_cases hc : c = b
  · apply hp.log.settled
    rw [mem_log_lh]
    exact Or.inr hc
  · rcases h.resolve_right hc with h | h
    · left
      exact Nat.lt_of_lt_of_le h (le_log_refs c)
    · right
      simpa [hc] using h

theorem setView_setView (data' : Block) :
  (o.setView b data).setView b data' = o.setView b data'
  := by
  simp only [setView, update_idem]

/-- Logging the contents a buffer has got. -/
theorem setView_log : (o.setView b data).log b ((o.setView b data).view b) = o.log b data := by
  apply Obs.ext
  case view => simp [setView]
  all_goals rfl

/-- A reference can be taken before or after a block is logged. -/
theorem log_hold : (o.hold c).log b data = (o.log b data).hold c := by
  unfold log hold
  simp only [Obs.mk.injEq, true_and, and_true]
  split_ifs with hb
  · rfl
  · by_cases hc : c = b
    · subst hc
      simp
    · simp [update_of_ne hc, update_of_ne (Ne.symm hc), update_comm hc]

end Obs

/-! ### Rules -/

section Rules

variable {m : Machine} {o : Obs} {b : ℕ} {data : Block} {C : Fault → Machine → Prop}
  {Q : Unit → Machine → Prop}

theorem wp_bread_hold {Q : Block → Machine → Prop} (hm : m.obs = o)
    (h : ∀ m', m'.obs = o.hold b → Q (o.view b) m') :
  wp (bread b) Q C m
  := by
  subst hm
  apply wp_bread h

theorem wp_fill_hold (hm : m.obs = o.hold b) (h : ∀ m', m'.obs = (o.setView b data).hold b → Q () m') :
  wp (fill b data) Q C m
  := by
  apply wp_fill
  · simp [hm, Obs.hold]
  · intro m' hm'
    apply h
    rw [hm', hm]
    rfl

/-- Releasing a buffer that is settled without the reference. -/
theorem wp_brelse_hold (hm : m.obs = o.hold b) (hs : o.Settled b) (h : ∀ m', m'.obs = o → Q () m') :
  wp (brelse b) Q C m
  := by
  apply wp_brelse
  · simp [hm, Obs.hold]
  · rcases hs with hs | hs
    · left
      simp [hm, Obs.hold]
      omega
    · right
      simpa [hm, Obs.hold] using hs
  · intro m' hm'
    apply h
    simp [hm', hm, Obs.hold]

/-- Releasing any buffer: without other references it may be recycled. -/
theorem wp_brelse_hold_or (hm : m.obs = o.hold b) (hkeep : ∀ m', m'.obs = o → Q () m')
    (hdrop : (∃ k, o.recycle k = true) → o.refs b = 0 →
      ∀ m', m'.obs = o.setView b (o.disk b) → Q () m') :
  wp (brelse b) Q C m
  := by
  apply wp_brelse_or
  · simp [hm, Obs.hold]
  · intro m' hm'
    apply hkeep
    simp [hm', hm, Obs.hold]
  · intro hone hrec m' hm'
    rw [hm] at hone hrec
    have hrefs : o.refs b = 0 := by simpa [Obs.hold] using hone
    apply hdrop hrec hrefs
    rw [hm', hm]
    simp [Obs.hold, Obs.setView, ← hrefs]

theorem wp_logWrite
    (hC : Tolerates C) (hm : m.obs = o.hold b)
    (h : ∀ m', m'.obs = (o.log b (o.view b)).hold b → m'.obs.lh.length ≤ LOGBLOCKS → Q () m') :
  wp (logWrite b) Q C m
  := by
  have hlh : m.lh = o.lh := congrArg Obs.lh hm
  simp only [logWrite, wp_bind, wp_get]
  split_ifs with hlen hout hb
  · exact hC _ m (Or.inl ⟨rfl, hlen⟩)
  · exact hC _ m (Or.inr ⟨rfl, hout⟩)
  · rw [wp_pure]
    rw [hlh] at hb hlen
    apply h
    · rw [hm]
      simp [Obs.log, hb]
    · rw [hm]
      exact Nat.le_of_not_le hlen
  · rw [hlh] at hb hlen
    rw [wp_bind]
    apply wp_bpin
    · simp [hm, Obs.hold]
    · intro m' hm'
      rw [wp_modify]
      have hobs : { m' with lh := m'.lh ++ [b] }.obs = (o.log b (o.view b)).hold b := by
        have hlh' : m'.lh = o.lh := by
          rw [← hlh]
          exact congrArg Obs.lh hm'
        rw [obs_setLh, hm', hm, hlh']
        simp [Obs.log, Obs.hold, hb]
      apply h _ hobs
      rw [hobs]
      simp [Obs.log, hb]
      omega

/-- Changing, logging and releasing a buffer. -/
theorem wp_log_block
    (hC : Tolerates C) (hm : m.obs = o.hold b) (hp : o.Pinned)
    (h : ∀ m', m'.obs = o.log b data → m'.obs.lh.length ≤ LOGBLOCKS → Q () m') :
  wp (fill b data) (fun _ m => wp (logWrite b) (fun _ m => wp (brelse b) Q C m) C m) C m
  := by
  apply wp_fill_hold hm
  intro m₁ h₁
  apply wp_logWrite hC h₁
  intro m₂ h₂ hlen
  rw [Obs.setView_log] at h₂
  apply wp_brelse_hold h₂
  · apply Obs.Settled.log hp (Or.inr rfl)
  · intro m₃ h₃
    apply h m₃ h₃
    rw [h₃]
    rw [h₂] at hlen
    exact hlen

end Rules

end Xv6
