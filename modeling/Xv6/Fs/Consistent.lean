import Xv6.Fs.Blocks

/-!
# Consistent file systems

The file system is consistent when the cells own the data blocks in use, the logged blocks
are pinned, and no recycled buffer can change the free map, an inode or an indirect block.
The other data blocks may have buffers that differ from the disk.  Every change of a block
that the functions of the file system make is one of a few kinds, each of which keeps the
file system consistent.
-/

namespace Xv6

open Ownership Superblock Function

/-- A block of the inodes or of the free map, or an indirect block. -/
def Superblock.Tight (sb : Superblock) (f : ℕ → Inode) (b : ℕ) : Prop :=
  sb.inodestart ≤ b ∧ b < sb.nmeta ∨ b ≠ 0 ∧ ∃ i, sb.Live f i ∧ (f i).indirect = b

/-- The logged blocks are pinned, and the blocks with `T` settled. -/
structure Cached (sb : Superblock) (o : Obs) (T : ℕ → Prop) : Prop where
  pinned : o.Pinned
  settled : ∀ b, T b → o.Settled b
  range : ∀ b ∈ o.lh, sb.inodestart ≤ b ∧ b < sb.size
  nodup : o.lh.Nodup

theorem Cached.log {sb : Superblock} {o : Obs} {T T' : ℕ → Prop} (h : Cached sb o T) {b : ℕ}
    {data : Block} (hb : sb.inodestart ≤ b ∧ b < sb.size) (hT : ∀ c, T' c → T c ∨ c = b) :
  Cached sb (o.log b data) T'
  := by
  refine ⟨h.pinned.log, ?_, ?_, Obs.nodup_log_lh h.nodup⟩
  · intro c hc
    apply Obs.Settled.log h.pinned
    exact (hT c hc).imp_left (h.settled c)
  · intro c hc
    rcases Obs.mem_log_lh.mp hc with hc | rfl
    · exact h.range c hc
    · exact hb

/-- The inodes are what their numbers say, with fields in the ranges of their types. -/
def Superblock.Inodes (sb : Superblock) (f : ℕ → Inode) : Prop :=
  ∀ i < sb.ninodes, (f i).Fits ∧ (f i).inum = i

theorem Superblock.Inodes.update {sb : Superblock} {f : ℕ → Inode} (h : sb.Inodes f) {i : ℕ} {ip : Inode}
    (hip : i < sb.ninodes → ip.Fits ∧ ip.inum = i) :
  sb.Inodes (update f i ip)
  := by
  apply (Function.forall_update_iff f (p := fun j ip => j < sb.ninodes → ip.Fits ∧ ip.inum = j)).mpr
  exact ⟨hip, fun j _ => h j⟩

/-- The file system with the inodes `f` is consistent. -/
structure Consistent (sb : Superblock) (o : Obs) (f : ℕ → Inode) : Prop where
  layout : sb.Layout o.start
  owned : Owned sb o.view (sb.cell o.view f)
  wf : sb.Inodes f
  cached : Cached sb o (sb.Tight f)
  length : o.lh.length ≤ LOGBLOCKS

namespace Consistent

variable {sb : Superblock} {o : Obs} {f : ℕ → Inode} {i b r : ℕ} {data : Block}
  {k : Fin (NDIRECT + 1)}

section

variable (h : Consistent sb o f)
include h

theorem pinned : o.Pinned := h.cached.pinned

/-- The blocks of the free map are settled. -/
theorem settled_bblock (hb : b < sb.size) : o.Settled (sb.bblock b) := by
  apply h.cached.settled
  left
  have := h.layout.inodestart_lt
  have := bblock_bounds (div_le_of_lt hb)
  omega

theorem settled_iblock (hi : i < sb.ninodes) : o.Settled (sb.iblock i) := by
  apply h.cached.settled
  left
  have := h.layout.iblock_bounds hi
  have : sb.bmapstart < sb.nmeta := bmapstart_lt
  omega

theorem settled_indirect (hi : sb.Live f i) (h0 : (f i).indirect ≠ 0) : o.Settled (f i).indirect := by
  apply h.cached.settled
  right
  exact ⟨h0, i, hi, rfl⟩

/-- A data block is where the log may be. -/
theorem range_data (hb : sb.Data b) : sb.inodestart ≤ b ∧ b < sb.size := by
  have := h.layout.inodestart_lt
  have : sb.bmapstart < sb.nmeta := bmapstart_lt
  have := hb.1
  exact ⟨by omega, hb.2⟩

theorem range_bblock (hb : b < sb.size) : sb.inodestart ≤ sb.bblock b ∧ sb.bblock b < sb.size := by
  have := h.layout.inodestart_lt
  have := h.layout.bitmap
  have := bblock_bounds (div_le_of_lt hb)
  omega

theorem range_iblock (hi : i < sb.ninodes) : sb.inodestart ≤ sb.iblock i ∧ sb.iblock i < sb.size := by
  have := h.layout.bitmap
  have := h.layout.iblock_bounds hi
  have : sb.bmapstart < sb.nmeta := bmapstart_lt
  omega

theorem data_addr (hi : sb.Live f i) (h0 : (f i).addrs k ≠ 0) : sb.Data ((f i).addrs k) := by
  rw [← cell_addr hi k] at h0 ⊢
  exact h.owned.data h0

theorem bit_addr (hi : sb.Live f i) (h0 : (f i).addrs k ≠ 0) :
  sb.bit o.view ((f i).addrs k) = true
  := by
  rw [← cell_addr hi k] at h0 ⊢
  exact h.owned.bit_eq h0

theorem data_indirect (hi : sb.Live f i) (h0 : (f i).indirect ≠ 0) : sb.Data (f i).indirect := by
  exact h.data_addr hi h0

/-- Indirect blocks are not shared. -/
theorem indirect_unique {j : ℕ} (hi : sb.Live f i) (h0 : (f i).indirect ≠ 0) (hj : sb.Live f j)
    (heq : (f j).indirect = (f i).indirect) :
  j = i
  := by
  have := h.owned.own.unique (.addr j (Fin.last NDIRECT)) (.addr i (Fin.last NDIRECT))
  rw [cell_last hi, cell_last hj] at this
  exact (Cell.addr.inj (this (heq ▸ h0) heq)).1

/-- A metadata block is no indirect block. -/
theorem indirect_ne_of_lt (hb : b < sb.nmeta) (j : ℕ) (hj : sb.Live f j) (h0 : (f j).indirect ≠ 0) :
  (f j).indirect ≠ b
  := by
  have := (h.data_indirect hj h0).1
  omega

/-- The block in a cell for data is no indirect block. -/
theorem indirect_ne_of_cell {q : Cell} (hq : ∀ j, q ≠ .addr j (Fin.last NDIRECT))
    (hb : sb.cell o.view f q ≠ 0) (j : ℕ) (hj : sb.Live f j) :
  (f j).indirect ≠ sb.cell o.view f q
  := by
  intro heq
  apply hq j
  apply h.owned.own.unique _ _ hb
  rw [cell_last hj, heq]

end

/-! ### Allocating a block -/

section Alloc

variable (h : Consistent sb o f) (hr : r < sb.size) (hclear : sb.bit o.view r = false)
include h hr hclear

theorem indirect_ne_of_clear (j : ℕ) (hj : sb.Live f j) : (f j).indirect ≠ r := by
  have hdata := h.owned.data_of_clear hr hclear
  rw [← cell_last hj]
  exact h.owned.own.ne_of_not_mem (Owned.not_mem_of_clear hclear) (Owned.data_ne_zero hdata) _

theorem bit_alloc (c : ℕ) (hc : c / BPB ≤ sb.size / BPB) :
  sb.bit (o.alloc sb r).view c = if c = r then true else sb.bit o.view c
  := by
  rw [Obs.alloc, Obs.log_view, bit_update (h.owned.data_of_clear hr hclear).1 hc]
  exact bit_mark

/-- No cell changes until the block is stored in one. -/
theorem cell_alloc : sb.cell (o.alloc sb r).view f = sb.cell o.view f := by
  rw [Obs.alloc, Obs.log_view, cell_update (fun j hj _ => h.indirect_ne_of_clear hr hclear j hj)]
  exact cell_update (h.indirect_ne_of_lt (bblock_bounds (div_le_of_lt hr)).2)

theorem cached_alloc : Cached sb (o.alloc sb r) (fun c => sb.Tight f c ∨ c = r) := by
  have hmark : Cached sb (o.mark sb r true) (sb.Tight f) :=
    h.cached.log (h.range_bblock hr) (fun _ hc => Or.inl hc)
  exact hmark.log (h.range_data (h.owned.data_of_clear hr hclear)) (fun _ hc => hc)

theorem inode_alloc (hi : i < sb.ninodes) : sb.inode (o.alloc sb r).view i = sb.inode o.view i := by
  rw [Obs.alloc, Obs.log_view, h.layout.inode_update_data (h.owned.data_of_clear hr hclear) hi]
  exact h.layout.inode_update (bblock_bounds (div_le_of_lt hr)).1 hi

omit hclear in
theorem lt_two_pow : r < 2 ^ 32 := Nat.lt_trans hr h.layout.size_lt

/-- The block is stored in `addrs[]`. -/
theorem alloc_addr (hi : sb.Live f i) (h0 : (f i).addrs k = 0)
    (hlen : (o.alloc sb r).lh.length ≤ LOGBLOCKS) :
  Consistent sb (o.alloc sb r) (update f i ((f i).setAddr k r))
    ∧ sb.cell (o.alloc sb r).view (update f i ((f i).setAddr k r))
      = update (sb.cell o.view f) (.addr i k) r
  := by
  have hcell : sb.cell (o.alloc sb r).view (update f i ((f i).setAddr k r))
      = update (sb.cell o.view f) (.addr i k) r := by
    rw [← h.cell_alloc hr hclear]
    by_cases hk : k = Fin.last NDIRECT
    · subst hk
      apply cell_setIndirect hi h0
      intro j
      rw [Obs.alloc, Obs.log_view, update_self]
      exact Bytes.load_zero _ _
    · exact cell_setAddr hk hi r
  refine ⟨⟨h.layout, ?_, ?_, ?_, hlen⟩, hcell⟩
  · rw [hcell]
    apply h.owned.alloc h.layout hr hclear _ (h.bit_alloc hr hclear)
    rw [cell_addr hi, h0]
  · apply h.wf.update
    intro hlt
    exact ⟨(h.wf i hlt).1.setAddr k (h.lt_two_pow hr), (h.wf i hlt).2⟩
  · have hcached := h.cached_alloc hr hclear
    refine ⟨hcached.pinned, ?_, hcached.range, hcached.nodup⟩
    rintro c (hc | ⟨hc0, j, hj, rfl⟩)
    · exact hcached.settled c (Or.inl (Or.inl hc))
    · apply hcached.settled
      rw [live_setAddr] at hj
      by_cases hji : j = i
      · subst hji
        rw [update_self] at hc0 ⊢
        by_cases hk : k = Fin.last NDIRECT
        · subst hk
          right
          exact Inode.setAddr_last_indirect _ _
        · rw [Inode.setAddr_indirect hk] at hc0 ⊢
          exact Or.inl (Or.inr ⟨hc0, j, hj, rfl⟩)
      · rw [update_of_ne hji] at hc0 ⊢
        exact Or.inl (Or.inr ⟨hc0, j, hj, rfl⟩)

/-- The block is stored in the indirect block. -/
theorem alloc_entry {l : Fin NINDIRECT} (hi : sb.Live f i) (ha : (f i).indirect ≠ 0)
    (h0 : entry (o.view (f i).indirect) l = 0)
    (hlen : ((o.alloc sb r).log (f i).indirect
      ((o.view (f i).indirect).store (4 * l) 4 r)).lh.length ≤ LOGBLOCKS) :
  Consistent sb ((o.alloc sb r).log (f i).indirect ((o.view (f i).indirect).store (4 * l) 4 r)) f
    ∧ sb.cell ((o.alloc sb r).log (f i).indirect ((o.view (f i).indirect).store (4 * l) 4 r)).view f
      = update (sb.cell o.view f) (.entry i l) r
  := by
  have hdata := h.data_indirect hi ha
  have hview : (o.alloc sb r).view (f i).indirect = o.view (f i).indirect := by
    have hlt := (bblock_bounds (div_le_of_lt hr)).2
    have hne := h.indirect_ne_of_lt hlt i hi ha
    rw [Obs.alloc, Obs.log_view, update_of_ne (h.indirect_ne_of_clear hr hclear i hi)]
    exact update_of_ne hne _ _
  have hcell : sb.cell
      ((o.alloc sb r).log (f i).indirect ((o.view (f i).indirect).store (4 * l) 4 r)).view f
      = update (sb.cell o.view f) (.entry i l) r := by
    rw [← hview, Obs.log_view, ← h.cell_alloc hr hclear]
    apply cell_setEntry hi ha _ l (h.lt_two_pow hr)
    intro j hj heq
    exact h.indirect_unique hi ha hj heq
  refine ⟨⟨h.layout, ?_, h.wf, ?_, hlen⟩, hcell⟩
  · rw [hcell]
    apply h.owned.alloc h.layout hr hclear
    · rw [cell_entry hi ha, h0]
    · intro c hc
      rw [Obs.log_view, bit_update hdata.1 hc]
      exact h.bit_alloc hr hclear c hc
  · exact (h.cached_alloc hr hclear).log (h.range_data hdata) (fun c hc => Or.inl (Or.inl hc))

end Alloc

/-! ### Freeing a block -/

section Free

/-- A direct address is cleared and its block freed. -/
theorem free_addr (h : Consistent sb o f) (hk : k ≠ Fin.last NDIRECT)
    (hi : sb.Live f i) (h0 : (f i).addrs k ≠ 0)
    (hlen : (o.mark sb ((f i).addrs k) false).lh.length ≤ LOGBLOCKS) :
  Consistent sb (o.mark sb ((f i).addrs k) false) (update f i ((f i).setAddr k 0))
    ∧ sb.cell (o.mark sb ((f i).addrs k) false).view (update f i ((f i).setAddr k 0))
      = update (sb.cell o.view f) (.addr i k) 0
  := by
  have hq : sb.cell o.view f (.addr i k) = (f i).addrs k := cell_addr hi k
  have hdata := h.data_addr hi h0
  have hcell : sb.cell (o.mark sb ((f i).addrs k) false).view
      (update f i ((f i).setAddr k 0)) = update (sb.cell o.view f) (.addr i k) 0 := by
    rw [cell_setAddr hk hi]
    congr 1
    exact cell_update (h.indirect_ne_of_lt (bblock_bounds (div_le_of_lt hdata.2)).2)
  refine ⟨⟨h.layout, ?_, ?_, ?_, hlen⟩, hcell⟩
  · rw [hcell]
    exact h.owned.free hq h0 (fun _ => bit_mark)
  · apply h.wf.update
    intro hlt
    exact ⟨(h.wf i hlt).1.setAddr k (by decide), (h.wf i hlt).2⟩
  · apply h.cached.log (h.range_bblock hdata.2)
    rintro c (hc | ⟨hc0, j, hj, rfl⟩)
    · exact Or.inl (Or.inl hc)
    · left
      right
      rw [live_setAddr] at hj
      refine ⟨hc0, j, hj, ?_⟩
      by_cases hji : j = i
      · subst hji
        rw [update_self, Inode.setAddr_indirect hk]
      · rw [update_of_ne hji]

end Free

/-! ### Writing data and inodes -/

section Write

variable (h : Consistent sb o f)
include h

/-- The buffer of a data block that is no indirect block is changed, or recycled. -/
theorem setView_data (hb : sb.Data b) (hne : ∀ j, sb.Live f j → (f j).indirect ≠ b) :
  Consistent sb (o.setView b data) f
    ∧ sb.cell (o.setView b data).view f = sb.cell o.view f
  := by
  have hcell : sb.cell (o.setView b data).view f = sb.cell o.view f :=
    cell_update (fun j hj _ => hne j hj)
  refine ⟨⟨h.layout, ?_, h.wf, ?_, h.length⟩, hcell⟩
  · rw [hcell]
    apply h.owned.congr h.layout
    intro c hc
    exact bit_update hb.1 hc
  · refine ⟨h.pinned, ?_, h.cached.range, h.cached.nodup⟩
    intro c hc
    have hcb : c ≠ b := by
      rintro rfl
      rcases hc with ⟨_, hc⟩ | ⟨_, j, hj, heq⟩
      · exact absurd hb.1 (Nat.not_le_of_lt hc)
      · exact hne j hj heq
    apply (h.cached.settled c hc).imp_right
    intro heq
    exact (update_of_ne hcb _ _).trans heq

/-- A data block that is no indirect block is changed and logged. -/
theorem log_data (hb : sb.Data b) (hne : ∀ j, sb.Live f j → (f j).indirect ≠ b)
    (hlen : (o.log b data).lh.length ≤ LOGBLOCKS) :
  Consistent sb (o.log b data) f ∧ sb.cell (o.log b data).view f = sb.cell o.view f
  := by
  obtain ⟨hset, hcell⟩ := h.setView_data hb hne
  refine ⟨⟨h.layout, hset.owned, h.wf, ?_, hlen⟩, hcell⟩
  exact h.cached.log (h.range_data hb) (fun _ hc => Or.inl hc)

/-- An inode is copied to its block. -/
theorem iupdate (hi : i < sb.ninodes)
    (hlen : (o.log (sb.iblock i) ((f i).store (o.view (sb.iblock i)))).lh.length ≤ LOGBLOCKS) :
  Consistent sb (o.log (sb.iblock i) ((f i).store (o.view (sb.iblock i)))) f
    ∧ sb.cell (o.log (sb.iblock i) ((f i).store (o.view (sb.iblock i)))).view f = sb.cell o.view f
  := by
  have hlt : sb.iblock i < sb.nmeta := Nat.lt_trans (h.layout.iblock_bounds hi).2 bmapstart_lt
  have hcell : sb.cell (o.log (sb.iblock i) ((f i).store (o.view (sb.iblock i)))).view f
      = sb.cell o.view f := cell_update (h.indirect_ne_of_lt hlt)
  refine ⟨⟨h.layout, ?_, h.wf, ?_, hlen⟩, hcell⟩
  · rw [hcell]
    apply h.owned.congr h.layout
    intro c _
    exact h.layout.bit_update_iblock hi
  · exact h.cached.log (h.range_iblock hi) (fun _ hc => Or.inl hc)

/-- The copy that was written is read back, and the other inodes are not disturbed. -/
theorem inode_iupdate (hi : i < sb.ninodes) :
  sb.inode (update o.view (sb.iblock i) ((f i).store (o.view (sb.iblock i))))
    = update (sb.inode o.view) i (f i)
  := by
  have hstore : sb.inode (update o.view (sb.iblock (f i).inum)
        ((f i).store (o.view (sb.iblock (f i).inum))))
      = update (sb.inode o.view) (f i).inum (f i) := inode_store (h.wf i hi).1
  rwa [(h.wf i hi).2] at hstore

section

variable {ip : Inode} (hfits : ip.Fits) (hinum : ip.inum = i)

include hfits hinum

/-- An inode is changed without a change of its cells. -/
theorem set (hcell : sb.cell o.view (update f i ip) = sb.cell o.view f)
    (htight : ∀ b, sb.Tight (update f i ip) b → sb.Tight f b) :
  Consistent sb o (update f i ip)
  := by
  refine ⟨h.layout, ?_, h.wf.update (fun _ => ⟨hfits, hinum⟩), ?_, h.length⟩
  · rw [hcell]
    exact h.owned
  · exact ⟨h.pinned, fun b hb => h.cached.settled b (htight b hb), h.cached.range, h.cached.nodup⟩

/-- An inode is changed, but neither its type nor its addresses. -/
theorem setFields (htype : ip.type = (f i).type)
    (haddrs : ip.addrs = (f i).addrs) :
  Consistent sb o (update f i ip)
    ∧ sb.cell o.view (update f i ip) = sb.cell o.view f
  := by
  have hind : ∀ j, (update f i ip j).indirect = (f j).indirect := by
    intro j
    unfold Inode.indirect
    by_cases hj : j = i
    · subst hj
      rw [update_self, haddrs]
    · rw [update_of_ne hj]
  have hcell : sb.cell o.view (update f i ip) = sb.cell o.view f :=
    cell_setFields htype haddrs
  refine ⟨h.set hfits hinum hcell ?_, hcell⟩
  intro b hb
  simpa only [Tight, live_setFields htype, hind] using hb

/-- An inode without blocks is allocated or freed. -/
theorem setEmpty (hold : sb.Live f i → ∀ k, (f i).addrs k = 0) (hnew : ∀ k, ip.addrs k = 0) :
  Consistent sb o (update f i ip)
    ∧ sb.cell o.view (update f i ip) = sb.cell o.view f
  := by
  have hcell : sb.cell o.view (update f i ip) = sb.cell o.view f := cell_setEmpty hold hnew
  refine ⟨h.set hfits hinum hcell ?_, hcell⟩
  rintro b (hb | ⟨hb, j, hj, rfl⟩)
  · exact Or.inl hb
  · right
    by_cases hji : j = i
    · subst hji
      rw [update_self] at hb
      exact absurd (hnew _) hb
    · rw [Live, update_of_ne hji] at hj
      rw [update_of_ne hji] at hb ⊢
      exact ⟨hb, j, hj, rfl⟩

end

/-- Only the inodes with numbers below `ninodes` matter. -/
theorem congr_inodes {f' : ℕ → Inode} (hf : ∀ j < sb.ninodes, f' j = f j) :
  Consistent sb o f' ∧ sb.cell o.view f' = sb.cell o.view f
  := by
  have hlive : ∀ j, sb.Live f' j ↔ sb.Live f j := by
    intro j
    apply and_congr_right
    intro hj
    rw [hf j hj]
  have hcell : sb.cell o.view f' = sb.cell o.view f := by
    funext q
    cases q with
    | addr j k =>
      simp only [cell, hlive]
      split_ifs with hj
      · rw [hf j hj.1]
      · rfl
    | entry j l =>
      by_cases hj : sb.Live f j
      · simp only [cell, hlive, hf j hj.1]
      · simp only [cell, hlive, hj, false_and, if_false]
  refine ⟨⟨h.layout, ?_, ?_, ?_, h.length⟩, hcell⟩
  · rw [hcell]
    exact h.owned
  · intro j hj
    rw [hf j hj]
    exact h.wf j hj
  · refine ⟨h.pinned, ?_, h.cached.range, h.cached.nodup⟩
    rintro b (hb | ⟨hb, j, hj, rfl⟩)
    · exact h.cached.settled b (Or.inl hb)
    · have hj' := (hlive j).mp hj
      rw [hf j hj'.1] at hb ⊢
      exact h.settled_indirect hj' hb

end Write

end Consistent

end Xv6
