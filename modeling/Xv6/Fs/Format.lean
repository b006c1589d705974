import Xv6.Fs.Array

/-!
# Formatted disks

A disk is given by its inodes, by what is in its data blocks, and by the number of blocks in use,
which are the first ones.  The inodes are in one block and the free map is in one block.
-/

namespace Xv6

open Superblock

/-- The bits before `top` are set. -/
def markedBelow (top : ℕ) : Block := fun i => UInt8.ofNat (2 ^ min 8 (top - 8 * i.val) - 1)

/-- A block of inodes. -/
def inodeBlock : List Inode → Block
  | [] => fun _ => 0
  | ip :: l => ip.store (inodeBlock l)

/-- A file system of `2000` blocks. -/
def formatSb : Superblock where
  size := 2000
  ninodes := 6
  inodestart := 33
  bmapstart := 34

def format (inodes : List Inode) (top : ℕ) (content : ℕ → Block) (b : ℕ) : Block :=
  if b = 33 then inodeBlock inodes else if b = 34 then markedBelow top else content b

theorem markedBelow_testBit (top : ℕ) {j : ℕ} (hj : j < BPB) :
  (markedBelow top).testBit j = decide (j < top)
  := by
  have hbyte : j / 8 < BSIZE := by
    simp only [BPB] at hj
    omega
  have hlt : 2 ^ min 8 (top - 8 * (j / 8)) - 1 < 256 := by
    have := Nat.pow_le_pow_right (show 0 < 2 by decide) (Nat.min_le_left 8 (top - 8 * (j / 8)))
    omega
  rw [Bytes.testBit, Bytes.byteAt, dif_pos hbyte, markedBelow, ← BitVec.testBit_toNat]
  change (UInt8.ofNat _).toNat.testBit _ = _
  rw [UInt8.toNat_ofNat_of_lt' hlt, Nat.testBit_two_pow_sub_one, decide_eq_decide]
  omega

section Format

variable {inodes : List Inode} {top i : ℕ} {content : ℕ → Block} {ip : Inode}

/-- The inodes have different places in one block. -/
structure InodeList (inodes : List Inode) : Prop where
  lt : ∀ ip ∈ inodes, ip.inum < formatSb.ninodes
  fits : ∀ ip ∈ inodes, ip.Fits
  distinct : inodes.Pairwise (fun ip jp => ip.inum ≠ jp.inum)

theorem InodeList.tail (h : InodeList (ip :: inodes)) : InodeList inodes :=
  ⟨fun jp hjp => h.lt jp (List.mem_cons_of_mem ip hjp), fun jp hjp => h.fits jp (List.mem_cons_of_mem ip hjp),
    (List.pairwise_cons.mp h.distinct).2⟩

theorem slot_ne {j : ℕ} (hi : i < formatSb.ninodes) (hj : j < formatSb.ninodes) (hne : i ≠ j) : i % IPB ≠ j % IPB := by
  simp only [formatSb, IPB, BSIZE] at *
  omega

theorem load_inodeBlock (h : InodeList inodes) (hip : ip ∈ inodes) : Inode.load (inodeBlock inodes) ip.inum = ip := by
  induction inodes with
  | nil => cases hip
  | cons jp inodes ih =>
    rcases List.mem_cons.mp hip with rfl | hmem
    · exact Inode.load_store _ _ (h.fits _ List.mem_cons_self)
    · have hne := (List.pairwise_cons.mp h.distinct).1 ip hmem
      rw [inodeBlock, Inode.load_store_of_ne _ _ (slot_ne (h.lt ip hip) (h.lt jp List.mem_cons_self) hne.symm)]
      exact ih h.tail hmem

theorem load_inodeBlock_type (h : InodeList inodes) (hi : i < formatSb.ninodes) (hfree : ∀ ip ∈ inodes, ip.inum ≠ i) :
  (Inode.load (inodeBlock inodes) i).type = 0
  := by
  induction inodes with
  | nil => exact Bytes.load_zero _ _
  | cons jp inodes ih =>
    have hne := hfree jp List.mem_cons_self
    rw [inodeBlock, Inode.load_store_of_ne _ _ (slot_ne hi (h.lt jp List.mem_cons_self) hne.symm)]
    exact ih h.tail (fun ip hip => hfree ip (List.mem_cons_of_mem jp hip))

theorem format_inode (hi : i < formatSb.ninodes) :
  formatSb.inode (format inodes top content) i = Inode.load (inodeBlock inodes) i
  := by
  have hblock : formatSb.iblock i = 33 := by
    simp only [iblock, formatSb, IPB, BSIZE] at *
    omega
  rw [Superblock.inode, hblock]
  rfl

theorem format_inode_of_mem (h : InodeList inodes) (hip : ip ∈ inodes) :
  formatSb.inode (format inodes top content) ip.inum = ip
  := by rw [format_inode (h.lt ip hip), load_inodeBlock h hip]

theorem format_live (h : InodeList inodes) (hlive : formatSb.Live (formatSb.inode (format inodes top content)) i) :
  ∃ ip ∈ inodes, ip.inum = i
  := by
  by_contra hnone
  apply hlive.2
  rw [format_inode hlive.1]
  apply load_inodeBlock_type h hlive.1
  intro ip hip heq
  exact hnone ⟨ip, hip, heq⟩

theorem format_bit {b : ℕ} (hb : b < BPB) :
  formatSb.bit (format inodes top content) b = decide (b < top)
  := by
  have hblock : formatSb.bblock b = 34 := by
    simp only [bblock, formatSb, BPB, BSIZE] at *
    omega
  rw [Superblock.bit, hblock, Nat.mod_eq_of_lt hb]
  exact markedBelow_testBit top hb

/-- A disk whose cells own the blocks in use is one to boot from. -/
theorem format_clean {cell : Cell → ℕ}
    (hcell : formatSb.cell (format inodes top content) (formatSb.inode (format inodes top content)) = cell)
    (htop : 35 ≤ top) (hsize : top ≤ 2000) (hdata : ∀ q, cell q ≠ 0 → 35 ≤ cell q ∧ cell q < top)
    (hunique : ∀ q q', cell q ≠ 0 → cell q = cell q' → q = q')
    (howned : ∀ b, 35 ≤ b → b < top → ∃ q, cell q = b)
    (hhole : ∀ i, formatSb.Live (formatSb.inode (format inodes top content)) i →
      NoHole formatSb (format inodes top content) (formatSb.inode (format inodes top content)) i) :
  CleanImage formatSb 2 (format inodes top content)
  := by
  have hmap : ∀ {b}, b < top → b < BPB ∧ b / BPB ≤ formatSb.size / BPB := by
    intro b hb
    simp only [BPB, BSIZE, formatSb]
    omega
  refine ⟨⟨⟨by decide, by decide, by decide, by decide, by decide⟩, ?_⟩, ?_, hhole⟩
  · rw [hcell]
    refine ⟨?_, ?_, hunique, ?_⟩
    · intro q hq
      obtain ⟨hge, hlt⟩ := hdata q hq
      exact ⟨hge, hlt.trans_le hsize⟩
    · intro q hq
      obtain ⟨hge, hlt⟩ := hdata q hq
      refine ⟨hge, (hmap hlt).2, ?_⟩
      rw [format_bit (hmap hlt).1]
      exact decide_eq_true hlt
    · rintro b ⟨hge, hdiv, hset⟩
      have hge : 35 ≤ b := hge
      have hb : b < BPB := by
        simp only [BPB, BSIZE, formatSb] at *
        omega
      rw [format_bit hb, decide_eq_true_eq] at hset
      exact ⟨by omega, howned b hge hset⟩
  · intro b hb
    have hlt : b < top := Nat.lt_of_lt_of_le hb htop
    rw [format_bit (hmap hlt).1]
    exact decide_eq_true hlt

end Format

end Xv6
