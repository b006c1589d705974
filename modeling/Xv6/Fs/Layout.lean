import Xv6.Disk.Machine

/-!
# The file system on the disk

The disk starts with the boot block, the super block and the log; then come the blocks of
the inodes, the blocks of the free map, and the data blocks.  An inode has 64 bytes, and an
indirect block is an array of 32-bit block numbers.
-/

namespace Xv6

/-- The fields of `struct superblock` that the kernel uses. -/
structure Superblock where
  size : ℕ
  ninodes : ℕ
  inodestart : ℕ
  bmapstart : ℕ

namespace Superblock

variable (sb : Superblock)

/-- `IBLOCK`: the block that contains an inode. -/
def iblock (inum : ℕ) : ℕ := inum / IPB + sb.inodestart

/-- `BBLOCK`: the block of the free map that contains the bit for a block. -/
def bblock (b : ℕ) : ℕ := b / BPB + sb.bmapstart

/-- The first data block. -/
def nmeta : ℕ := sb.bmapstart + sb.size / BPB + 1

/-- A data block. -/
def Data (b : ℕ) : Prop := sb.nmeta ≤ b ∧ b < sb.size

instance (b : ℕ) : Decidable (sb.Data b) := inferInstanceAs (Decidable (_ ∧ _))

/-- The layout that `mkfs` computes, with the log at `start`. -/
structure Layout (start : ℕ) : Prop where
  boot : 2 ≤ start
  log : start + LOGBLOCKS < sb.inodestart
  inodes : sb.inodestart + sb.ninodes / IPB < sb.bmapstart
  bitmap : sb.nmeta ≤ sb.size
  size_lt : sb.size < 2 ^ 32

/-- The bits of one block of the free map. -/
theorem bblock_add {b bi : ℕ} (hb : b % BPB = 0) (hbi : bi < BPB) :
  sb.bblock (b + bi) = sb.bblock b ∧ (b + bi) % BPB = bi
  := by
  simp only [bblock, BPB, BSIZE] at *
  omega

end Superblock

/-- `struct inode`, as far as it is a copy of the one on the disk. -/
@[ext]
structure Inode where
  inum : ℕ
  type : ℕ
  major : ℕ
  minor : ℕ
  nlink : ℕ
  size : ℕ
  addrs : Fin (NDIRECT + 1) → ℕ
  deriving DecidableEq

namespace Inode

/-- The fields have the ranges of their types. -/
structure Fits (ip : Inode) : Prop where
  type : ip.type < 2 ^ 16
  major : ip.major < 2 ^ 16
  minor : ip.minor < 2 ^ 16
  nlink : ip.nlink < 2 ^ 16
  size : ip.size < 2 ^ 32
  addrs : ∀ k, ip.addrs k < 2 ^ 32

/-- The place of an inode in its block. -/
def offset (inum : ℕ) : ℕ := 64 * (inum % IPB)

/-- Copy an inode from its block. -/
def load (block : Block) (inum : ℕ) : Inode where
  inum
  type := block.load (offset inum) 2
  major := block.load (offset inum + 2) 2
  minor := block.load (offset inum + 4) 2
  nlink := block.load (offset inum + 6) 2
  size := block.load (offset inum + 8) 4
  addrs := fun k => block.load (offset inum + 12 + 4 * k) 4

/-- Copy an inode to its block. -/
def store (ip : Inode) (block : Block) : Block :=
  (((((block.store (offset ip.inum) 2 ip.type).store (offset ip.inum + 2) 2 ip.major).store
    (offset ip.inum + 4) 2 ip.minor).store (offset ip.inum + 6) 2 ip.nlink).store
    (offset ip.inum + 8) 4 ip.size).storeAll (offset ip.inum + 12) 4 (List.ofFn ip.addrs)

theorem fits_load (block : Block) (inum : ℕ) : (load block inum).Fits := by
  constructor
  case addrs => exact fun k => block.load_lt _ 4
  case size => exact block.load_lt _ 4
  all_goals exact block.load_lt _ 2

theorem offset_add_le (inum : ℕ) : offset inum + 64 ≤ BSIZE := by
  have : inum % IPB < IPB := Nat.mod_lt _ (by decide)
  simp only [offset, IPB, BSIZE] at *
  omega

/-- Storing an inode changes its own bytes only. -/
theorem load_store_of_disjoint
    (ip : Inode) (block : Block) {off w : ℕ}
    (h : off + w ≤ offset ip.inum ∨ offset ip.inum + 64 ≤ off) :
  (ip.store block).load off w = block.load off w
  := by
  unfold store
  rw [Bytes.load_storeAll_of_disjoint]
  · iterate 5 rw [Bytes.load_store_of_disjoint]
    all_goals omega
  · rw [List.length_ofFn, NDIRECT]
    omega

/-- An inode that was stored is read back. -/
theorem load_store (ip : Inode) (block : Block) (h : ip.Fits) :
  load (ip.store block) ip.inum = ip
  := by
  have hoff : offset ip.inum + 64 ≤ BSIZE := offset_add_le ip.inum
  have haddrs : ∀ k, (ip.store block).load (offset ip.inum + 12 + 4 * k.val) 4 = ip.addrs k := by
    intro k
    unfold store
    have hk : k.val < (List.ofFn ip.addrs).length := by
      rw [List.length_ofFn]
      exact k.isLt
    rw [Bytes.load_storeAll _ _ _ hk, List.getElem_ofFn]
    · rw [List.length_ofFn, NDIRECT]
      omega
    · intro v hv
      obtain ⟨j, rfl⟩ := List.mem_ofFn.mp hv
      exact h.addrs j
  apply Inode.ext
  case inum => rfl
  case addrs => exact funext haddrs
  all_goals
    simp only [load, store]
    rw [Bytes.load_storeAll_of_disjoint _ _ (Or.inl (by omega))]
    repeat rw [Bytes.load_store_of_disjoint _ (Or.inl (by omega))]
    apply Bytes.load_store _ (by omega)
  · exact h.type
  · exact h.major
  · exact h.minor
  · exact h.nlink
  · exact h.size

/-- The other inodes of the block are not disturbed. -/
theorem load_store_of_ne (ip : Inode) (block : Block) {inum : ℕ} (h : inum % IPB ≠ ip.inum % IPB) :
  load (ip.store block) inum = load block inum
  := by
  have hdisj : offset inum + 64 ≤ offset ip.inum ∨ offset ip.inum + 64 ≤ offset inum := by
    unfold offset
    omega
  apply Inode.ext
  case inum => rfl
  case addrs =>
    funext k
    apply load_store_of_disjoint
    have : k.val < 13 := k.isLt
    omega
  all_goals
    apply load_store_of_disjoint
    omega

end Inode

instance : NeZero NINDIRECT := ⟨by decide⟩

/-- Entry `j` of an indirect block. -/
def entry (block : Block) (j : ℕ) : ℕ := block.load (4 * j) 4

end Xv6
