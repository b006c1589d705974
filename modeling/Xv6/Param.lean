import Mathlib.Tactic

/-!
# Parameters

The constants of `kernel/param.h` and `kernel/fs.h`.
-/

namespace Xv6

/-- Maximum number of processes. -/
abbrev NPROC : ℕ := 64

/-- Maximum number of blocks any file-system operation writes. -/
abbrev MAXOPBLOCKS : ℕ := 10

/-- Maximum number of data blocks in the on-disk log. -/
abbrev LOGBLOCKS : ℕ := MAXOPBLOCKS * 3

/-- Size of the disk block cache. -/
abbrev NBUF : ℕ := MAXOPBLOCKS * 3

/-- Maximum number of active inodes. -/
abbrev NINODE : ℕ := 50

/-- Open files per process. -/
abbrev NOFILE : ℕ := 16

/-- Open files per system. -/
abbrev NFILE : ℕ := 100

/-- The device number of the file system's disk. -/
abbrev ROOTDEV : ℕ := 1

/-- Block size in bytes. -/
abbrev BSIZE : ℕ := 1024

/-- Page size in bytes. -/
abbrev PGSIZE : ℕ := 4096

/-- One beyond the highest possible virtual address. -/
abbrev MAXVA : ℕ := 2 ^ (9 + 9 + 9 + 12 - 1)

/-- Number of direct block addresses of an inode. -/
abbrev NDIRECT : ℕ := 12

/-- Number of block addresses in an indirect block. -/
abbrev NINDIRECT : ℕ := BSIZE / 4

/-- Maximum number of blocks of a file. -/
abbrev MAXFILE : ℕ := NDIRECT + NINDIRECT

/-- Inodes per block. -/
abbrev IPB : ℕ := BSIZE / 64

/-- Bitmap bits per block. -/
abbrev BPB : ℕ := BSIZE * 8

/-- Size of the name in a directory entry. -/
abbrev DIRSIZ : ℕ := 14

/-- The types of inodes, `0` being a free one. -/
abbrev T_DIR : ℕ := 1

abbrev T_FILE : ℕ := 2

abbrev T_DEVICE : ℕ := 3

/-- Size of the buffer of a pipe. -/
abbrev PIPESIZE : ℕ := 512

/-! The indices of the tables have a first element. -/

instance (priority := high) neZero_nproc : NeZero NPROC := ⟨by decide⟩

instance (priority := high) neZero_nbuf : NeZero NBUF := ⟨by decide⟩

instance (priority := high) neZero_ninode : NeZero NINODE := ⟨by decide⟩

instance (priority := high) neZero_ndirect : NeZero (NDIRECT + 1) := ⟨by decide⟩

/-- For runs of two threads. -/
instance (priority := high) neZero_two : NeZero 2 := ⟨by decide⟩

end Xv6
