import Xv6.Fs.Alloc
import Xv6.Lib.Ownership

/-!
# Who owns the blocks

A block number is stored in `addrs[]` of an inode or in the indirect block of an inode; the
places where one may be stored are the cells.  The data blocks whose bits are set in the
free map are the ones in use, and in a consistent file system the cells own them.

An inode that is being changed differs from its copy on the disk until `iupdate` is called,
so the cells are those of given inodes `f`, which are the inodes on the disk but for the
ones being changed.
-/

namespace Xv6

open Ownership Function

/-- A place where a block number is stored. -/
inductive Cell where
  | addr (inum : ℕ) (k : Fin (NDIRECT + 1))
  | entry (inum : ℕ) (j : Fin NINDIRECT)
  deriving DecidableEq

/-- The inode a cell belongs to. -/
def Cell.inum : Cell → ℕ
  | .addr i _ => i
  | .entry i _ => i

/-- The cell for a block of a file. -/
def blockCell (i bn : ℕ) : Cell :=
  if bn < NDIRECT then .addr i (Fin.ofNat _ bn) else .entry i (Fin.ofNat _ (bn - NDIRECT))

@[simp] theorem blockCell_inum (i bn : ℕ) : (blockCell i bn).inum = i := by
  unfold blockCell
  split_ifs <;> rfl

/-- The blocks of a file are not its indirect block. -/
theorem blockCell_ne_last (i bn j : ℕ) : blockCell i bn ≠ .addr j (Fin.last NDIRECT) := by
  unfold blockCell
  split_ifs with hbn
  · intro heq
    have hval := congrArg Fin.val (Cell.addr.inj heq).2
    rw [Fin.val_ofNat, Nat.mod_eq_of_lt (Nat.lt_succ_of_lt hbn), Fin.val_last] at hval
    exact Nat.ne_of_lt hbn hval
  · intro heq
    cases heq

/-- Different blocks of a file have different cells. -/
theorem blockCell_inj {i bn bn' : ℕ} (hbn : bn < MAXFILE) (hbn' : bn' < MAXFILE)
    (h : blockCell i bn = blockCell i bn') :
  bn = bn'
  := by
  unfold blockCell at h
  unfold MAXFILE at hbn hbn'
  split_ifs at h with h₁ h₂ h₂
  · have hval := congrArg Fin.val (Cell.addr.inj h).2
    rwa [Fin.val_ofNat, Fin.val_ofNat, Nat.mod_eq_of_lt (Nat.lt_succ_of_lt h₁),
      Nat.mod_eq_of_lt (Nat.lt_succ_of_lt h₂)] at hval
  · have hval := congrArg Fin.val (Cell.entry.inj h).2
    rw [Fin.val_ofNat, Fin.val_ofNat, Nat.mod_eq_of_lt (by omega), Nat.mod_eq_of_lt (by omega)] at hval
    omega

namespace Inode

/-- The address of the indirect block. -/
def indirect (ip : Inode) : ℕ := ip.addrs (Fin.last NDIRECT)

def setAddr (ip : Inode) (k : Fin (NDIRECT + 1)) (b : ℕ) : Inode :=
  { ip with addrs := update ip.addrs k b }

@[simp] theorem setAddr_addrs (ip : Inode) (k : Fin (NDIRECT + 1)) (b : ℕ) :
  (ip.setAddr k b).addrs = update ip.addrs k b := rfl

@[simp] theorem setAddr_type (ip : Inode) (k : Fin (NDIRECT + 1)) (b : ℕ) :
  (ip.setAddr k b).type = ip.type := rfl

theorem setAddr_indirect {ip : Inode} {k : Fin (NDIRECT + 1)} (hk : k ≠ Fin.last NDIRECT) (b : ℕ) :
  (ip.setAddr k b).indirect = ip.indirect
  := update_of_ne (Ne.symm hk) _ _

theorem setAddr_last_indirect (ip : Inode) (b : ℕ) :
  (ip.setAddr (Fin.last NDIRECT) b).indirect = b
  := by
  simp [indirect, setAddr]

def setSize (ip : Inode) (n : ℕ) : Inode := { ip with size := n }

/-- The size does not become less. -/
theorem setSize_max (ip : Inode) (n : ℕ) :
  (if ip.size < n then ip.setSize n else ip) = ip.setSize (max ip.size n)
  := by
  split_ifs with hlt
  · rw [Nat.max_eq_right (Nat.le_of_lt hlt)]
  · rw [Nat.max_eq_left (Nat.le_of_not_lt hlt)]
    rfl

theorem Fits.setSize {ip : Inode} (h : ip.Fits) {n : ℕ} (hn : n < 2 ^ 32) : (ip.setSize n).Fits :=
  ⟨h.type, h.major, h.minor, h.nlink, hn, h.addrs⟩

def setType (ip : Inode) (n : ℕ) : Inode := { ip with type := n }

theorem Fits.setType {ip : Inode} (h : ip.Fits) {n : ℕ} (hn : n < 2 ^ 16) : (ip.setType n).Fits :=
  ⟨hn, h.major, h.minor, h.nlink, h.size, h.addrs⟩

theorem Fits.setAddr {ip : Inode} (h : ip.Fits) (k : Fin (NDIRECT + 1)) {b : ℕ} (hb : b < 2 ^ 32) :
  (ip.setAddr k b).Fits
  := by
  refine ⟨h.type, h.major, h.minor, h.nlink, h.size, ?_⟩
  intro j
  by_cases hj : j = k
  · subst hj
    simpa [Inode.setAddr] using hb
  · simpa [Inode.setAddr, hj] using h.addrs j

end Inode

namespace Superblock

variable (sb : Superblock)

/-- An inode on the disk. -/
def inode (view : ℕ → Block) (i : ℕ) : Inode := Inode.load (view (sb.iblock i)) i

/-- An allocated inode. -/
def Live (f : ℕ → Inode) (i : ℕ) : Prop := i < sb.ninodes ∧ (f i).type ≠ 0

instance (f : ℕ → Inode) (i : ℕ) : Decidable (sb.Live f i) := inferInstanceAs (Decidable (_ ∧ _))

/-- What a cell contains, `0` if it is empty or its inode is free. -/
def cell (view : ℕ → Block) (f : ℕ → Inode) : Cell → ℕ
  | .addr i k => if sb.Live f i then (f i).addrs k else 0
  | .entry i j => if sb.Live f i ∧ (f i).indirect ≠ 0 then entry (view (f i).indirect) j else 0

/-- The blocks behind the metadata whose bits are set. -/
def used (view : ℕ → Block) : Set ℕ :=
  { b | sb.nmeta ≤ b ∧ b / BPB ≤ sb.size / BPB ∧ sb.bit view b = true }

/-! ### The places of the metadata -/

variable {sb} {start d i b : ℕ} (hl : sb.Layout start)
include hl

theorem Layout.inodestart_lt : sb.inodestart < sb.bmapstart :=
  Nat.lt_of_le_of_lt (Nat.le_add_right _ _) hl.inodes

theorem Layout.iblock_bounds {i : ℕ} (hi : i < sb.ninodes) :
  sb.inodestart ≤ sb.iblock i ∧ sb.iblock i < sb.bmapstart
  := by
  have hdiv : i / IPB ≤ sb.ninodes / IPB := Nat.div_le_div_right (Nat.le_of_lt hi)
  constructor
  · exact Nat.le_add_left _ _
  · apply Nat.lt_of_le_of_lt (Nat.add_le_add_right hdiv _)
    rw [Nat.add_comm]
    exact hl.inodes

omit hl in
theorem bblock_bounds (hb : b / BPB ≤ sb.size / BPB) :
  sb.bmapstart ≤ sb.bblock b ∧ sb.bblock b < sb.nmeta
  := by
  constructor
  · exact Nat.le_add_left _ _
  · apply Nat.lt_succ_of_le
    rw [Nat.add_comm]
    exact Nat.add_le_add_right hb _

omit hl in
theorem bmapstart_lt : sb.bmapstart < sb.nmeta := Nat.lt_succ_of_le (Nat.le_add_right _ _)

omit hl in
theorem div_le_of_lt (hb : b < sb.size) : b / BPB ≤ sb.size / BPB :=
  Nat.div_le_div_right (Nat.le_of_lt hb)

variable {view : ℕ → Block} {data : Block}

omit hl in
/-- Writing a data block does not change the free map. -/
theorem bit_update {d c : ℕ} (hd : sb.nmeta ≤ d)
    (hc : c / BPB ≤ sb.size / BPB) :
  sb.bit (update view d data) c = sb.bit view c
  := by
  have := (bblock_bounds hc).2
  unfold bit
  rw [update_of_ne (by omega)]

theorem Layout.bit_update_iblock {i c : ℕ} (hi : i < sb.ninodes) :
  sb.bit (update view (sb.iblock i) data) c = sb.bit view c
  := by
  have hne : sb.bblock c ≠ sb.iblock i := by
    apply Nat.ne_of_gt
    exact Nat.lt_of_lt_of_le (hl.iblock_bounds hi).2 (Nat.le_add_left _ _)
  unfold bit
  rw [update_of_ne hne]

/-- Writing a block behind the inodes does not change the inodes. -/
theorem Layout.inode_update (hd : sb.bmapstart ≤ d) (hi : i < sb.ninodes) :
  sb.inode (update view d data) i = sb.inode view i
  := by
  have := (hl.iblock_bounds hi).2
  unfold inode
  rw [update_of_ne (by omega)]

theorem Layout.inode_update_data (hd : sb.Data d) (hi : i < sb.ninodes) :
  sb.inode (update view d data) i = sb.inode view i
  := by
  apply hl.inode_update _ hi
  exact Nat.le_trans (Nat.le_of_lt bmapstart_lt) hd.1

omit hl in
/-- An inode that is written to its block is read back, and the other inodes are not
disturbed. -/
theorem inode_store {ip : Inode} (hfits : ip.Fits) :
  sb.inode (update view (sb.iblock ip.inum) (ip.store (view (sb.iblock ip.inum))))
    = update (sb.inode view) ip.inum ip
  := by
  funext j
  unfold inode
  by_cases hj : j = ip.inum
  · subst hj
    rw [update_self, update_self, ip.load_store _ hfits]
  · rw [update_of_ne hj]
    by_cases hblock : sb.iblock j = sb.iblock ip.inum
    · rw [hblock, update_self, Inode.load_store_of_ne]
      intro hmod
      apply hj
      have hdiv : j / IPB = ip.inum / IPB := Nat.add_right_cancel hblock
      rw [← Nat.div_add_mod j IPB, hdiv, hmod, Nat.div_add_mod]
    · rw [update_of_ne hblock]

omit hl in
/-- Changing a bit of the free map. -/
theorem bit_mark {b c : ℕ} {v : Bool} :
  sb.bit (update view (sb.bblock b) ((view (sb.bblock b)).setBit (b % BPB) v)) c
    = if c = b then v else sb.bit view c
  := by
  unfold bit
  by_cases hblock : sb.bblock c = sb.bblock b
  · have hmod : b % BPB < 8 * BSIZE := by
      rw [Nat.mul_comm]
      exact Nat.mod_lt _ (by decide)
    have hiff : c % BPB = b % BPB ↔ c = b := by
      simp only [bblock, BPB, BSIZE] at *
      omega
    rw [hblock, update_self, Bytes.testBit_setBit _ _ hmod]
    simp only [hiff]
  · have hne : c ≠ b := by
      rintro rfl
      exact hblock rfl
    rw [update_of_ne hblock, if_neg hne]

end Superblock

open Superblock

/-! ### Cells -/

section Cells

variable {sb : Superblock} {view : ℕ → Block} {f : ℕ → Inode} {i b : ℕ} {ip : Inode}
  {k : Fin (NDIRECT + 1)}

theorem cell_addr (hi : sb.Live f i) (k : Fin (NDIRECT + 1)) :
  sb.cell view f (.addr i k) = (f i).addrs k
  := if_pos hi

theorem cell_last (hi : sb.Live f i) : sb.cell view f (.addr i (Fin.last NDIRECT)) = (f i).indirect :=
  if_pos hi

theorem cell_entry (hi : sb.Live f i) (ha : (f i).indirect ≠ 0) (l : Fin NINDIRECT) :
  sb.cell view f (.entry i l) = entry (view (f i).indirect) l
  := if_pos ⟨hi, ha⟩

/-- Only an allocated inode has blocks. -/
theorem live_of_cell {q : Cell} (h : sb.cell view f q ≠ 0) : sb.Live f q.inum := by
  by_contra hlive
  cases q with
  | addr j k => exact h (if_neg hlive)
  | entry j l => exact h (if_neg (fun hand => hlive hand.1))

@[simp] theorem live_setAddr {b j : ℕ} :
  sb.Live (update f i ((f i).setAddr k b)) j ↔ sb.Live f j
  := by
  unfold Live
  by_cases hj : j = i
  · subst hj
    rw [update_self, Inode.setAddr_type]
  · rw [update_of_ne hj]

/-- Writing a block that is no indirect block changes no cell. -/
theorem cell_update {data : Block}
    (h : ∀ i, sb.Live f i → (f i).indirect ≠ 0 → (f i).indirect ≠ b) :
  sb.cell (update view b data) f = sb.cell view f
  := by
  funext q
  cases q with
  | addr i k => rfl
  | entry i j =>
    simp only [cell]
    split_ifs with hlive
    · rw [update_of_ne (h i hlive.1 hlive.2)]
    · rfl

/-- A direct address is changed. -/
theorem cell_setAddr (hk : k ≠ Fin.last NDIRECT) (hi : sb.Live f i) (b : ℕ) :
  sb.cell view (update f i ((f i).setAddr k b))
    = update (sb.cell view f) (.addr i k) b
  := by
  funext q
  cases q with
  | addr j k' =>
    by_cases hj : j = i
    · subst hj
      by_cases hk' : k' = k
      · subst hk'
        simp [cell, hi]
      · simp [cell, hi, hk']
    · simp [cell, hj]
  | entry j l =>
    by_cases hj : j = i
    · subst hj
      simp [cell, Inode.setAddr_indirect hk]
    · simp [cell, hj]

/-- An empty indirect block is added. -/
theorem cell_setIndirect (hi : sb.Live f i) (h0 : (f i).indirect = 0)
    (hb : ∀ j, entry (view b) j = 0) :
  sb.cell view (update f i ((f i).setAddr (Fin.last NDIRECT) b))
    = update (sb.cell view f) (.addr i (Fin.last NDIRECT)) b
  := by
  funext q
  cases q with
  | addr j k =>
    by_cases hj : j = i
    · subst hj
      by_cases hk : k = Fin.last NDIRECT
      · subst hk
        simp [cell, hi]
      · simp [cell, hi, hk]
    · simp [cell, hj]
  | entry j l =>
    by_cases hj : j = i
    · subst hj
      simp [cell, hi, Inode.setAddr_last_indirect, h0, hb]
    · simp [cell, hj]

/-- An entry of an indirect block is changed. -/
theorem cell_setEntry (hi : sb.Live f i) (h0 : (f i).indirect ≠ 0)
    (hone : ∀ j, sb.Live f j → (f j).indirect = (f i).indirect → j = i)
    (l : Fin NINDIRECT) (hb : b < 2 ^ 32) :
  sb.cell (update view (f i).indirect ((view (f i).indirect).store (4 * l) 4 b)) f
    = update (sb.cell view f) (.entry i l) b
  := by
  have hl : l.val < 256 := l.isLt
  funext q
  cases q with
  | addr j k => simp [cell]
  | entry j l' =>
    by_cases hj : j = i
    · subst hj
      rw [cell_entry hi h0, update_self]
      by_cases hl' : l' = l
      · subst hl'
        rw [update_self]
        apply Bytes.load_store
        · simp only [BSIZE]
          omega
        · exact hb
      · rw [update_of_ne (by simpa using hl'), cell_entry hi h0]
        apply Bytes.load_store_of_disjoint
        have : l'.val ≠ l.val := Fin.val_ne_of_ne hl'
        omega
    · have hne : Cell.entry j l' ≠ .entry i l := by simp [hj]
      rw [update_of_ne hne]
      simp only [cell]
      split_ifs with hlive
      · rw [update_of_ne]
        intro heq
        exact hj (hone j hlive.1 heq)
      · rfl

/-- Neither the type nor the addresses of an inode are changed. -/
theorem live_setFields (htype : ip.type = (f i).type) (j : ℕ) :
  sb.Live (update f i ip) j ↔ sb.Live f j
  := by
  unfold Live
  by_cases hj : j = i
  · subst hj
    rw [update_self, htype]
  · rw [update_of_ne hj]

theorem cell_setFields (htype : ip.type = (f i).type) (haddrs : ip.addrs = (f i).addrs) :
  sb.cell view (update f i ip) = sb.cell view f
  := by
  have haddrs' : ∀ j, (update f i ip j).addrs = (f j).addrs := by
    intro j
    by_cases hj : j = i
    · subst hj
      rw [update_self, haddrs]
    · rw [update_of_ne hj]
  have hind : ∀ j, (update f i ip j).indirect = (f j).indirect :=
    fun j => congrFun (haddrs' j) _
  funext q
  cases q <;> simp only [cell, live_setFields htype, haddrs', hind]

/-- An inode without blocks is allocated or freed. -/
theorem cell_setEmpty (hold : sb.Live f i → ∀ k, (f i).addrs k = 0) (hnew : ∀ k, ip.addrs k = 0) :
  sb.cell view (update f i ip) = sb.cell view f
  := by
  have hind : ip.indirect = 0 := hnew _
  have hother : ∀ j, j ≠ i → (sb.Live (update f i ip) j ↔ sb.Live f j) := by
    intro j hj
    unfold Live
    rw [update_of_ne hj]
  funext q
  cases q with
  | addr j k =>
    by_cases hj : j = i
    · subst hj
      simp only [cell, update_self, hnew, ite_self]
      split_ifs with hlive
      · exact (hold hlive k).symm
      · rfl
    · simp only [cell, hother j hj, update_of_ne hj]
  | entry j l =>
    by_cases hj : j = i
    · subst hj
      have hnone : ¬ (sb.Live f j ∧ (f j).indirect ≠ 0) := fun h => h.2 (hold h.1 _)
      simp only [cell, update_self, hind, ne_eq, not_true_eq_false, and_false, if_false]
      rw [if_neg hnone]
    · simp only [cell, hother j hj, update_of_ne hj]

end Cells

/-! ### Ownership -/

/-- The cells own the data blocks in use, and the bits of the metadata are set. -/
structure Owned (sb : Superblock) (view : ℕ → Block) (cell : Cell → ℕ) : Prop where
  own : Own { b | sb.Data b } (sb.used view) cell
  metadata : ∀ b < sb.nmeta, sb.bit view b = true

namespace Owned

variable {sb : Superblock} {start : ℕ} {view view' : ℕ → Block} {cell : Cell → ℕ} {q : Cell} {b : ℕ}

theorem congr (h : Owned sb view cell) (hl : sb.Layout start)
    (hbit : ∀ c, c / BPB ≤ sb.size / BPB → sb.bit view' c = sb.bit view c) :
  Owned sb view' cell
  := by
  have hused : sb.used view' = sb.used view := by
    ext c
    simp only [used, Set.mem_ofPred_eq]
    constructor
    · rintro ⟨hc, hmap, hset⟩
      exact ⟨hc, hmap, hbit c hmap ▸ hset⟩
    · rintro ⟨hc, hmap, hset⟩
      exact ⟨hc, hmap, (hbit c hmap).symm ▸ hset⟩
  constructor
  · rw [hused]
    exact h.own
  · intro c hc
    rw [hbit c (div_le_of_lt (Nat.lt_of_lt_of_le hc hl.bitmap)), h.metadata c hc]

/-- A block with a clear bit is a data block. -/
theorem data_of_clear (h : Owned sb view cell) (hb : b < sb.size) (hclear : sb.bit view b = false) :
  sb.Data b
  := by
  refine ⟨?_, hb⟩
  apply Nat.le_of_not_lt
  intro hlt
  rw [h.metadata b hlt] at hclear
  cases hclear

theorem not_mem_of_clear (hclear : sb.bit view b = false) : b ∉ sb.used view := by
  rintro ⟨_, _, hset⟩
  rw [hclear] at hset
  cases hset

theorem data_ne_zero (hb : sb.Data b) : b ≠ 0 := by
  rintro rfl
  exact Nat.not_succ_le_zero _ hb.1

variable (h : Owned sb view cell)

include h

/-- An empty cell gets a block whose bit was clear. -/
theorem alloc (hl : sb.Layout start) (hb : b < sb.size)
    (hclear : sb.bit view b = false) (hq : cell q = 0)
    (hbit : ∀ c, c / BPB ≤ sb.size / BPB → sb.bit view' c = if c = b then true else sb.bit view c) :
  Owned sb view' (update cell q b)
  := by
  have hdata := h.data_of_clear hb hclear
  have hused : sb.used view' = insert b (sb.used view) := by
    ext c
    simp only [used, Set.mem_ofPred_eq, Set.mem_insert_iff]
    constructor
    · rintro ⟨hc, hmap, hset⟩
      rw [hbit c hmap] at hset
      by_cases hcb : c = b
      · exact Or.inl hcb
      · rw [if_neg hcb] at hset
        exact Or.inr ⟨hc, hmap, hset⟩
    · rintro (rfl | ⟨hc, hmap, hset⟩)
      · refine ⟨hdata.1, div_le_of_lt hb, ?_⟩
        rw [hbit c (div_le_of_lt hb), if_pos rfl]
      · refine ⟨hc, hmap, ?_⟩
        rw [hbit c hmap, hset, ite_self]
  constructor
  · rw [hused]
    exact h.own.alloc hdata (data_ne_zero hdata) (not_mem_of_clear hclear) hq
  · intro c hc
    rw [hbit c (div_le_of_lt (Nat.lt_of_lt_of_le hc hl.bitmap)), h.metadata c hc, ite_self]

/-- A cell is emptied and the bit of its block cleared. -/
theorem free (hq : cell q = b) (hb0 : b ≠ 0)
    (hbit : ∀ c, sb.bit view' c = if c = b then false else sb.bit view c) :
  Owned sb view' (update cell q 0)
  := by
  have hdata : sb.Data b := hq ▸ h.own.mem_area q (hq ▸ hb0)
  have hused : sb.used view' = sb.used view \ {b} := by
    ext c
    simp only [used, Set.mem_ofPred_eq, Set.mem_sdiff, Set.mem_singleton_iff, hbit c]
    by_cases hcb : c = b
    · simp [hcb]
    · simp [hcb]
  constructor
  · rw [hused]
    exact h.own.free hq hb0
  · intro c hc
    have hne : c ≠ b := by
      rintro rfl
      exact absurd hdata.1 (Nat.not_le_of_lt hc)
    rw [hbit c, if_neg hne, h.metadata c hc]

/-- The bit of a block in a cell is set. -/
theorem bit_eq (hq : cell q ≠ 0) : sb.bit view (cell q) = true :=
  (h.own.mem_used q hq).2.2

theorem data (hq : cell q ≠ 0) : sb.Data (cell q) := h.own.mem_area q hq

end Owned

end Xv6
