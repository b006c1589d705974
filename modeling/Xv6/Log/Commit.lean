import Xv6.Disk.Machine

/-!
# Committing and recovering

The functions of `log.c` that write the log, install it and read it back after a crash, as
they run on the machine.  The header block holds the number of logged blocks and then their
block numbers, as 32-bit fields.
-/

namespace Xv6

open Machine

/-- A 32-bit field read as an `int`. -/
def toInt (v : ℕ) : ℤ := Int.bmod v (2 ^ 32)

/-- The field `n` of the header in a block. -/
def headCount (block : Block) : ℤ := toInt (block.load 0 4)

/-- The block numbers `read_head` takes from a header. -/
def decodeHead (block : Block) : List ℕ :=
  (List.range (headCount block).toNat).map (fun i => block.load (4 + 4 * i) 4)

/-- The header block after the loop of `write_head`, which leaves the rest of the block. -/
def encodeHead (lh : List ℕ) (block : Block) : Block :=
  (block.store 0 4 lh.length).storeAll 4 4 lh

/-- Block `b` is neither the header nor one of the blocks of the log. -/
def Outside (start b : ℕ) : Prop := b < start ∨ start + LOGBLOCKS < b

instance (start b : ℕ) : Decidable (Outside start b) :=
  inferInstanceAs (Decidable (b < start ∨ start + LOGBLOCKS < b))

/-- `read_head`: read the log header from disk into the in-memory log header. -/
def readHead : Kernel Unit := do
  let m ← get
  let buf ← bread m.start
  modify fun m => { m with lh := decodeHead buf }
  brelse m.start

/-- `write_head`: write the in-memory log header to disk. -/
def writeHead : Kernel Unit := do
  let m ← get
  let buf ← bread m.start
  fill m.start (encodeHead m.lh buf)
  bwrite m.start
  brelse m.start

/-- `install_trans`: copy committed blocks from the log to their home location. -/
def installTrans (recovering : Bool) : Kernel Unit := do
  let m ← get
  m.lh.zipIdx.forM fun (dst, tail) => do
    let lbuf ← bread (m.start + tail + 1)
    let _ ← bread dst
    fill dst lbuf
    bwrite dst
    if recovering = false then bunpin dst
    brelse (m.start + tail + 1)
    brelse dst

/-- `write_log`: copy modified blocks from the cache to the log. -/
def writeLog : Kernel Unit := do
  let m ← get
  m.lh.zipIdx.forM fun (src, tail) => do
    let _ ← bread (m.start + tail + 1)
    let data ← bread src
    fill (m.start + tail + 1) data
    bwrite (m.start + tail + 1)
    brelse src
    brelse (m.start + tail + 1)

/-- Set `log.lh.n` to zero. -/
def clearHead : Kernel Unit := modify fun m => { m with lh := [] }

def recoverFromLog : Kernel Unit := do
  readHead
  installTrans true
  clearHead
  writeHead

def commit : Kernel Unit := do
  let m ← get
  if 0 < m.lh.length then
    writeLog
    writeHead
    installTrans false
    clearHead
    writeHead

/-! ### The place of the log -/

section

variable {start b i : ℕ}

theorem Outside.ne_start (h : Outside start b) : b ≠ start := by
  unfold Outside at h
  omega

theorem Outside.ne_log (h : Outside start b) (hi : i < LOGBLOCKS) : start + i + 1 ≠ b := by
  unfold Outside at h
  omega

end

/-! ### The header block -/

theorem headCount_encodeHead {lh : List ℕ} (hlen : lh.length ≤ LOGBLOCKS) (block : Block) :
  headCount (encodeHead lh block) = lh.length
  := by
  have hlt : lh.length < 2 ^ 31 := lt_of_le_of_lt hlen (by decide)
  rw [headCount, encodeHead, Bytes.load_storeAll_of_disjoint _ _ (Or.inl (Nat.le_refl 4)), Bytes.load_store]
  · apply Int.bmod_eq_of_le
    · omega
    · omega
  · decide
  · omega

/-- A header that was written is read back, whatever else its block holds. -/
theorem decodeHead_encodeHead
    {lh : List ℕ} (hlen : lh.length ≤ LOGBLOCKS) (hlt : ∀ b ∈ lh, b < 2 ^ 32) (block : Block) :
  decodeHead (encodeHead lh block) = lh
  := by
  apply List.ext_getElem
  · simp [decodeHead, headCount_encodeHead hlen]
  · intro i _ hi
    simp only [decodeHead, List.getElem_map, List.getElem_range]
    apply Bytes.load_storeAll
    · have : lh.length ≤ 30 := hlen
      simp only [BSIZE]
      omega
    · exact hlt

end Xv6
