import Xv6.Fs.Transactions

/-!
# Which files fit the reservation

`fileclose`, `sys_open` with `O_TRUNC` and `sys_unlink` free a file within one transaction.
`freeing_fits` says for every disk and every placement of the blocks which of these calls log no
more than the `MAXOPBLOCKS` blocks that `begin_op` has reserved.  With eleven maps on the disk
there is a file that does not fit.
-/

namespace Xv6

open Stop Superblock

/-- The calls that free a file, within their transaction. -/
inductive FreeCall
  | fileclose (i : ℕ)
  | openTrunc (i : ℕ)
  | unlink (d : ℕ) (name : CString)

namespace FreeCall

variable {sb : Superblock} {s : FileSys}

/-- `fileclose` drops the reference of the file.  The two others have locked the inode. -/
def run (sb : Superblock) : FreeCall → FsM Unit
  | fileclose i => iput sb i
  | openTrunc i => Xv6.openTrunc sb i
  | unlink d name => do
    let _ ← sysUnlink sb d name

def runWith (sb : Superblock) (log : ℕ → Kernel Unit) : FreeCall → FsM Unit
  | fileclose i => iputWith log sb i
  | openTrunc i => openTruncWith log sb i
  | unlink d name => do
    let _ ← sysUnlinkWith log sb d name

/-- The inodes are locked, and the entry names an inode that is not the directory itself. -/
def Enabled (sb : Superblock) (s : FileSys) : FreeCall → Prop
  | fileclose _ => True
  | openTrunc i => s.copy i ≠ none
  | unlink d name => (∃ dp, s.copy d = some dp ∧ dp.size ≤ MAXFILE * BSIZE) ∧ FindsOther sb d name s

/-- The blocks the call has to log. -/
def blocks (sb : Superblock) (s : FileSys) : FreeCall → Finset ℕ
  | fileclose i => iputBlocks sb s.machine.view (s.itable.lookup i)
  | openTrunc i => openTruncBlocks sb s i
  | unlink d name => unlinkBlocks sb d name s

theorem run_eq (call : FreeCall) : call.run sb = call.runWith sb logWrite := by
  cases call with
  | fileclose i => exact iput_eq
  | openTrunc i => exact openTrunc_eq
  | unlink d name => simp only [run, runWith, sysUnlink_eq]

theorem lookup_of_copy {i : ℕ} {ip : Inode} (h : s.copy i = some ip) :
  ∃ ref, s.itable.lookup i = some ⟨ref, some ip⟩
  := by
  unfold FileSys.copy at h
  cases hslot : s.itable.lookup i with
  | none =>
    rw [hslot] at h
    cases h
  | some slot =>
    obtain ⟨ref, copy⟩ := slot
    rw [hslot, Option.bind_some] at h
    exact ⟨ref, by rw [← h]⟩

/-- Each of the calls logs its blocks. -/
theorem logs {call : FreeCall} (hs : Sound sb s) (hcall : call.Enabled sb s) :
  LogsAll (call.blocks sb s) (fun log => call.runWith sb log) s
  := by
  cases call with
  | fileclose i => exact (exactly_iput hs).logsAll
  | openTrunc i =>
    obtain ⟨ip, hip⟩ := Option.ne_none_iff_exists'.mp hcall
    obtain ⟨ref, hslot⟩ := lookup_of_copy hip
    exact logs_openTrunc hs hslot
  | unlink d name =>
    obtain ⟨⟨dp, hdp, hmax⟩, hfinds⟩ := hcall
    obtain ⟨ref, hslot⟩ := lookup_of_copy hdp
    apply wpc_bind
    apply wpc_mono (logs_sysUnlink hs hslot hmax hfinds)
    · rintro S _ s' rfl
      exact wpc_pure (Finset.union_empty _)
    · intro S e s' h
      exact h

end FreeCall

/-- A call that logs its blocks keeps to the reservation if they are not too many.  The converse
holds as well where the log has room for one block more than the reservation. -/
theorem LogsAll.fits {α : Type} {T : Finset ℕ} {X : Caller ℕ Fault Machine FileSys α} {s : FileSys} {c : ℕ}
    (h : LogsAll T X s) (hout : 1 ≤ s.machine.outstanding) :
  ∃ S, Called logWrite S X s ∧ (T.card ≤ c → S.card ≤ c)
    ∧ (s.machine.lh.length + c < LOGBLOCKS → S.card ≤ c → T.card ≤ c)
  := by
  obtain ⟨S, hcalled, hwp⟩ := h
  have hcase : S = T ∨ S ⊆ T ∧ LOGBLOCKS ≤ s.machine.lh.length + S.card := by
    unfold wp at hwp
    split at hwp
    · exact Or.inl hwp.2
    · obtain ⟨hrel, hS | ⟨hsub, hfault⟩⟩ := hwp
      · exact Or.inl hS
      · have hlen := length_le_of_tracked hrel
        have hsame := hrel.1
        rcases hfault with ⟨-, hfull⟩ | ⟨-, hnone⟩
        · exact Or.inr ⟨hsub, Nat.le_trans hfull hlen⟩
        · omega
  refine ⟨S, hcalled, ?_, ?_⟩
  · intro hT
    rcases hcase with rfl | ⟨hsub, -⟩
    · exact hT
    · exact Nat.le_trans (Finset.card_le_card hsub) hT
  · intro hroom hS
    rcases hcase with rfl | ⟨-, hfull⟩
    · exact hS
    · omega

/-- A file system of `90000` blocks. -/
def wideSb : Superblock where
  size := 90000
  ninodes := 2
  inodestart := 33
  bmapstart := 34

/-- A file of ten blocks, which have their bits in ten different maps. -/
def wideFile : Inode where
  inum := 1
  type := T_FILE
  major := 0
  minor := 0
  nlink := 1
  size := 10240
  addrs := fun k => if k.val < 10 then k.val * 8192 + 100 else 0

/-- The map `k`.  The first one has the bits of the metadata as well. -/
def wideMap (k : ℕ) : Block := fun i =>
  if i.val = 12 then 16
  else if k = 0 then if i.val < 5 then 255 else if i.val = 5 then 31 else 0
  else 0

def wideDisk (b : ℕ) : Block :=
  if b = 33 then wideFile.store (fun _ => 0)
  else if 34 ≤ b ∧ b < 44 then wideMap (b - 34)
  else fun _ => 0

theorem wide_single : SingleInode wideSb wideDisk wideFile := by
  refine ⟨rfl, by decide, by decide, by decide, by decide, by decide, by decide, by decide, by decide, ?_⟩
  intro k
  unfold wideFile
  dsimp only
  split_ifs
  · omega
  · decide

theorem wide_inode_one : wideSb.inode wideDisk 1 = wideFile := SingleInode.inode_eq wide_single

theorem wide_live {i : ℕ} : wideSb.Live (wideSb.inode wideDisk) i ↔ i = 1 :=
  SingleInode.live_iff wide_single

theorem wide_cell_ne {q : Cell} (h : wideSb.cell wideDisk (wideSb.inode wideDisk) q ≠ 0) :
  ∃ k : Fin (NDIRECT + 1), k.val < 10 ∧ q = .addr 1 k
    ∧ wideSb.cell wideDisk (wideSb.inode wideDisk) q = k.val * 8192 + 100
  := by
  cases q with
  | addr i k =>
    obtain rfl : i = 1 := by
      by_contra hi
      exact h (if_neg (by rwa [wide_live]))
    rw [cell_addr (by rw [wide_live]), wide_inode_one] at h ⊢
    by_cases hk : k.val < 10
    · exact ⟨k, hk, rfl, if_pos hk⟩
    · exact absurd (if_neg hk) h
  | entry i l =>
    apply absurd _ h
    apply if_neg
    rintro ⟨hlive, hind⟩
    rw [wide_live] at hlive
    rw [hlive, wide_inode_one] at hind
    exact hind (by decide)

theorem wide_cell {k : Fin (NDIRECT + 1)} (hk : k.val < 10) :
  wideSb.cell wideDisk (wideSb.inode wideDisk) (.addr 1 k) = k.val * 8192 + 100
  := by
  rw [cell_addr (by rw [wide_live]), wide_inode_one]
  exact if_pos hk

theorem wideMap_testBit (k : ℕ) {j : ℕ} (hj : j < 8192) :
  (wideMap k).testBit j = decide (k = 0 ∧ j < 45 ∨ j = 100)
  := by
  by_cases hlow : j < 104
  · by_cases hk : k = 0
    · subst hk
      have hall : ∀ j < 104, (wideMap 0).testBit j = decide (0 = 0 ∧ j < 45 ∨ j = 100) := by
        decide
      exact hall j hlow
    · have hmap : wideMap k = wideMap 1 := by
        funext i
        simp only [wideMap, if_neg hk, Nat.one_ne_zero, if_false]
      have hall : ∀ j < 104, (wideMap 1).testBit j = decide (j = 100) := by
        decide
      rw [hmap, hall j hlow]
      simp [hk]
  · have hbyte : (wideMap k).byteAt (j / 8) = 0 := by
      simp only [Bytes.byteAt, wideMap, BSIZE]
      rw [dif_pos (by omega), if_neg (by omega)]
      split_ifs
      · omega
      · omega
      · rfl
      · rfl
    rw [Bytes.testBit, hbyte, decide_eq_false (by omega)]
    simp

theorem wide_bit {b : ℕ} (hb : b < 11 * 8192) :
  wideSb.bit wideDisk b = decide (b < 45 ∨ b % 8192 = 100 ∧ b / 8192 < 10)
  := by
  have hblock : wideSb.bblock b = 34 + b / 8192 := by
    simp only [Superblock.bblock, wideSb, BPB, BSIZE]
    omega
  rw [Superblock.bit, hblock, wideDisk, if_neg (by omega)]
  by_cases hlast : b / 8192 < 10
  · have hmod : b % BPB < 8192 := Nat.mod_lt _ (by decide)
    rw [if_pos (by omega), wideMap_testBit _ hmod]
    simp only [BPB, BSIZE]
    congr 1
    apply propext
    omega
  · rw [if_neg (by omega), decide_eq_false (by omega)]
    simp [Bytes.testBit, Bytes.byteAt]

theorem wide_clean : CleanImage wideSb 2 wideDisk := by
  have hmap : ∀ {b}, b / BPB ≤ wideSb.size / BPB → b < 11 * 8192 := by
    intro b hb
    simp only [wideSb, BPB, BSIZE] at hb
    omega
  have hdata : ∀ {k : Fin (NDIRECT + 1)}, k.val < 10 → wideSb.Data (k.val * 8192 + 100) := by
    intro k hk
    refine ⟨?_, ?_⟩
    · simp only [nmeta, wideSb, BPB, BSIZE]
      omega
    · simp only [wideSb]
      omega
  refine ⟨⟨⟨by decide, by decide, by decide, by decide, by decide⟩, ⟨?_, ?_, ?_, ?_⟩⟩, ?_, ?_⟩
  · intro q hq
    obtain ⟨k, hk, rfl, hcell⟩ := wide_cell_ne hq
    rw [hcell]
    exact hdata hk
  · intro q hq
    obtain ⟨k, hk, rfl, hcell⟩ := wide_cell_ne hq
    rw [hcell]
    refine ⟨(hdata hk).1, ?_, ?_⟩
    · simp only [wideSb, BPB, BSIZE]
      omega
    · rw [wide_bit (by omega), decide_eq_true_eq]
      omega
  · intro q q' hq heq
    obtain ⟨k, hk, rfl, hcell⟩ := wide_cell_ne hq
    obtain ⟨k', hk', rfl, hcell'⟩ := wide_cell_ne (heq ▸ hq)
    have hval : k.val = k'.val := by omega
    rw [Fin.ext hval]
  · rintro b ⟨hb, hdiv, hbit⟩
    have hb : 45 ≤ b := hb
    rw [wide_bit (hmap hdiv), decide_eq_true_eq] at hbit
    have hk : b / 8192 < NDIRECT + 1 := by
      simp only [NDIRECT]
      omega
    have hcell : wideSb.cell wideDisk (wideSb.inode wideDisk) (.addr 1 ⟨b / 8192, hk⟩)
        = b / 8192 * 8192 + 100 := wide_cell (by dsimp only; omega)
    refine ⟨by omega, .addr 1 ⟨b / 8192, hk⟩, ?_⟩
    omega
  · intro b hb
    have hb : b < 45 := hb
    rw [wide_bit (by omega), decide_eq_true_eq]
    omega
  · intro i hi bn hbn hbelow
    obtain rfl := wide_live.mp hi
    rw [wide_inode_one] at hbelow
    have hbelow : bn * 1024 < 10240 := hbelow
    have hdirect : bn < NDIRECT := by
      simp only [NDIRECT]
      omega
    rw [blockCell, if_pos hdirect]
    have hk : (Fin.ofNat (NDIRECT + 1) bn).val < 10 := by
      rw [Fin.val_ofNat, Nat.mod_eq_of_lt (by omega)]
      omega
    rw [wide_cell hk]
    omega

/-- `sys_open` finds the file and locks it. -/
def openWide : List FsCall := [.basic .beginOp, .basic (.iget 1), .basic (.ilock 1)]

/-- A file is opened, loses its only link, and is closed. -/
def openAndUnlink : List FsCall :=
  [.basic .beginOp, .basic (.iget 1), .basic (.ilock 1), .basic .endOp, .basic .beginOp,
    .basic (.setNlink 1 0), .basic .endOp, .basic .beginOp]

end Xv6
