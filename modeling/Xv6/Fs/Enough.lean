import Xv6.Fs.Array

/-!
# The blocks for a write

A `writei` writes all its bytes exactly if there are enough free blocks for the cells of its range
that are empty.  That they suffice is a part of what `writei` does to the contents; here they are
seen to be necessary, since the cells have been given blocks that were free.
-/

namespace Xv6

open Machine Stop Superblock Function

section Enough

variable {sb : Superblock} {o o' : Obs} {f f' : ℕ → Inode} {i off n : ℕ} {m : Machine}

/-- The cells of a range that were empty have got blocks that were free. -/
theorem Grown.enough (h : Grown sb i o f o' f') (hcons : Consistent sb o f)
    (hcells : ∀ q ∈ rangeCells i off n, sb.cell o'.view f' q ≠ 0) :
  sb.Enough o.view f i off n
  := by
  apply Finset.card_le_card_of_injOn (sb.cell o'.view f')
  · intro q hq
    obtain ⟨hrange, hempty⟩ := Finset.mem_filter.mp hq
    have hne := hcells q hrange
    have hdata := h.consistent.owned.data hne
    apply Finset.mem_coe.mpr
    apply Finset.mem_filter.mpr
    refine ⟨Finset.mem_range.mpr hdata.2, ?_⟩
    -- a block in use was in a cell, and has stayed there
    by_contra hbit
    rw [Bool.not_eq_false] at hbit
    obtain ⟨-, q', hq'⟩ := hcons.owned.own.owned _ ⟨hdata.1, div_le_of_lt hdata.2, hbit⟩
    have hkept := h.cells q' (by rw [hq']; exact hne)
    have heq := h.consistent.owned.own.unique q q' hne (by rw [hkept, hq'])
    rw [← heq, hempty] at hq'
    exact hne hq'.symm
  · intro q hq q' _ heq
    have hne := hcells q (Finset.mem_filter.mp hq).1
    exact h.consistent.owned.own.unique q q' hne heq

/-- When the blocks of a range are there, so is the indirect block they need. -/
theorem rangeCells_ne_zero (hi : sb.Live f i) (hn : 0 < n) (hmax : off + n ≤ MAXFILE * BSIZE)
    (h : ∀ bn < MAXFILE, off < (bn + 1) * BSIZE → bn * BSIZE < off + n →
      sb.cell o.view f (blockCell i bn) ≠ 0) :
  ∀ q ∈ rangeCells i off n, sb.cell o.view f q ≠ 0
  := by
  intro q hq
  rcases Finset.mem_union.mp hq with hq | hq
  · obtain ⟨bn, hbn, rfl⟩ := Finset.mem_image.mp hq
    obtain ⟨hlt, hin, hend⟩ := Finset.mem_filter.mp hbn
    exact h bn (Finset.mem_range.mp hlt) hin hend
  · split_ifs at hq with hind
    · rw [Finset.mem_singleton.mp hq, cell_last hi]
      have hlast : (off + n - 1) / BSIZE < MAXFILE ∧ NDIRECT ≤ (off + n - 1) / BSIZE
          ∧ off < ((off + n - 1) / BSIZE + 1) * BSIZE ∧ (off + n - 1) / BSIZE * BSIZE < off + n := by
        simp only [MAXFILE, NDIRECT, NINDIRECT, BSIZE] at *
        omega
      obtain ⟨hlt, hge, hin, hend⟩ := hlast
      have hne := h _ hlt hin hend
      rw [blockCell, if_neg (Nat.not_lt.mpr hge)] at hne
      intro h0
      apply hne
      exact if_neg (fun hlive => hlive.2 h0)
    · cases hq

/-- A `writei` that has written all its bytes had enough blocks for them. -/
theorem wp_writei_enough (s : Source) (src : ℕ) (hfiles : Files sb m.obs f) (hi : sb.Live f i)
    (hoff : off ≤ (f i).size) (hn : 0 < n) (hmax : off + n ≤ MAXFILE * BSIZE) :
  wp (writei sb (f i) s src off n) (fun r _ => r.1 = n → sb.Enough m.obs.view f i off n)
    (fun _ _ => True) m
  := by
  have hwrap : (off + n) % 2 ^ 32 = off + n := by
    simp only [MAXFILE, NDIRECT, NINDIRECT, BSIZE] at hmax
    omega
  have hcons := hfiles.consistent
  unfold writei
  rw [hwrap, if_neg (by omega), if_neg (by omega), wp_bind]
  apply wp_writeiLoop_grown (fun _ _ _ => trivial) hmax rfl hcons hi
  intro tot f₁ m₁ _ hgrown hcells
  rw [wp_bind]
  apply wp_skip
  intro _ _ htot
  obtain rfl : tot = n := Int.ofNat_inj.mp htot
  apply hgrown.enough hcons
  apply rangeCells_ne_zero (hgrown.live.mpr hi) hn hmax
  intro bn hbn hin hend
  rcases Nat.lt_or_ge (bn * BSIZE) off with hlt | hge
  · obtain ⟨c, hc⟩ := hfiles.filled i hi (bn * BSIZE) (Nat.lt_of_lt_of_le hlt hoff)
    have hne := (cell_of_byte hi hc).2.1
    rw [Nat.mul_div_cancel _ (by decide : 0 < BSIZE)] at hne
    rw [hgrown.cells _ hne]
    exact hne
  · exact hcells bn hbn hge hend

end Enough

end Xv6
