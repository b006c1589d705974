import Xv6.Fs.Unlink

/-!
# Reading does not allocate

`readi` finds the blocks of a file with `bmap`, which allocates a block where there is none.
`bmapWith alloc log` is `bmap` with other programs in the place of `balloc` and `log_write`, and
so on for the functions that read.  As long as no file has a hole these run in the same way
whatever the two programs are, so `balloc` and `log_write` are not reached.
-/

namespace Xv6

open Stop Superblock

/-! ### The functions with other programs inside -/

def bmapIndirectWith (alloc : Kernel ℕ) (log : ℕ → Kernel Unit) (ip : Inode) (l : Fin NINDIRECT) :
    Kernel (ℕ × Inode) := do
  let a ← bread ip.indirect
  if entry a l = 0 then
    let addr ← alloc
    if addr ≠ 0 then
      fill ip.indirect (a.store (4 * l) 4 addr)
      log ip.indirect
    brelse ip.indirect
    return (addr, ip)
  else
    brelse ip.indirect
    return (entry a l, ip)

def bmapWith (alloc : Kernel ℕ) (log : ℕ → Kernel Unit) (ip : Inode) (bn : ℕ) :
    Kernel (ℕ × Inode) := do
  if bn < NDIRECT then
    if ip.addrs (Fin.ofNat _ bn) = 0 then
      let addr ← alloc
      if addr = 0 then return (0, ip)
      else return (addr, ip.setAddr (Fin.ofNat _ bn) addr)
    else return (ip.addrs (Fin.ofNat _ bn), ip)
  else if bn - NDIRECT < NINDIRECT then
    if ip.indirect = 0 then
      let addr ← alloc
      if addr = 0 then return (0, ip)
      else
        bmapIndirectWith alloc log (ip.setAddr (Fin.last NDIRECT) addr) (Fin.ofNat _ (bn - NDIRECT))
    else bmapIndirectWith alloc log ip (Fin.ofNat _ (bn - NDIRECT))
  else panic "bmap: out of range"

/-- The loop of `readi` over the function `map` that finds the blocks. -/
def readiLoopWith (map : Inode → ℕ → Kernel (ℕ × Inode)) (dst : ℕ → ℕ → Bool) (off n : ℕ) :
    ℕ → ℕ → List UInt8 → Inode → Kernel (ℤ × List UInt8 × Inode)
  | 0, tot, acc, ip => return (tot, acc, ip)
  | fuel + 1, tot, acc, ip => do
    if tot < n then
      let (addr, ip) ← map ip ((off + tot) / BSIZE)
      if addr = 0 then return (tot, acc, ip)
      else
        let data ← bread addr
        let m := pieceLength off n tot
        let piece := (List.range m).map (fun k => data.byteAt ((off + tot) % BSIZE + k))
        brelse addr
        if dst tot m = false then return (-1, acc, ip)
        else readiLoopWith map dst off n fuel (tot + m) (acc ++ piece) ip
    else return (tot, acc, ip)

def readiWith (map : Inode → ℕ → Kernel (ℕ × Inode)) (ip : Inode) (dst : ℕ → ℕ → Bool) (off n : ℕ) :
    Kernel (ℤ × List UInt8 × Inode) := do
  if ip.size < off ∨ (off + n) % 2 ^ 32 < off then return (0, [], ip)
  else
    let n := if ip.size < off + n then ip.size - off else n
    readiLoopWith map dst off n n 0 [] ip

/-- `readi` on an inode that is locked. -/
def readInode (map : Inode → ℕ → Kernel (ℕ × Inode)) (i : ℕ) (dst : ℕ → ℕ → Bool) (off n : ℕ) :
    FsM (ℤ × List UInt8) :=
  withInode i fun ip => do
    let (r, out, ip) ← readiWith map ip dst off n
    return ((r, out), ip)

/-- The loop of `dirlookup` over the function `read` that reads an entry. -/
def dirlookupFromWith (read : ℕ → FsM (ℤ × List UInt8)) (size : ℕ) (name : CString) :
    ℕ → ℕ → FsM (Option (ℕ × ℕ))
  | 0, _ => return none
  | fuel + 1, off => do
    if off < size then
      let (r, de) ← read off
      if r ≠ DIRENT then throw (.panic "dirlookup read")
      else if direntInum de = 0 then dirlookupFromWith read size name fuel (off + DIRENT)
      else if namecmp name (direntName de) = 0 then
        iget (direntInum de)
        return some (direntInum de, off)
      else dirlookupFromWith read size name fuel (off + DIRENT)
    else return none

def dirlookupWith (map : Inode → ℕ → Kernel (ℕ × Inode)) (d : ℕ) (name : CString) :
    FsM (Option (ℕ × ℕ)) := do
  let dp ← inodeOf d
  if dp.type ≠ T_DIR then throw (.panic "dirlookup not DIR")
  else
    dirlookupFromWith (fun off => readInode map d (fun _ _ => true) off DIRENT) dp.size name dp.size 0

def isdiremptyWith (map : Inode → ℕ → Kernel (ℕ × Inode)) (d : ℕ) : FsM Bool := do
  let dp ← inodeOf d
  isdiremptyFrom (fun off => readInode map d (fun _ _ => true) off DIRENT) dp.size dp.size (2 * DIRENT)

/-! ### With `balloc` and `log_write` -/

section Source

variable {sb : Superblock}

/-- The source has `balloc` and `log_write` there. -/
theorem bmap_eq (sb : Superblock) : bmap sb = bmapWith (balloc sb) logWrite := rfl

theorem readiLoop_eq (dst : ℕ → ℕ → Bool) (off n fuel tot : ℕ) (acc : List UInt8) (ip : Inode) :
  readiLoop sb dst off n fuel tot acc ip = readiLoopWith (bmap sb) dst off n fuel tot acc ip
  := by
  induction fuel generalizing tot acc ip with
  | zero => rfl
  | succ fuel ih =>
    unfold readiLoop readiLoopWith
    simp only [ih]

theorem readi_eq : readi sb = readiWith (bmap sb) := by
  funext ip dst off n
  unfold readi readiWith
  simp only [readiLoop_eq]

theorem readDirent_eq (d off : ℕ) :
  readDirent sb d off = readInode (bmap sb) d (fun _ _ => true) off DIRENT
  := by
  unfold readDirent readInode
  rw [readi_eq]

theorem dirlookupFrom_eq (d size : ℕ) (name : CString) (fuel off : ℕ) :
  dirlookupFrom sb d size name fuel off = dirlookupFromWith (readDirent sb d) size name fuel off
  := by
  induction fuel generalizing off with
  | zero => rfl
  | succ fuel ih =>
    unfold dirlookupFrom dirlookupFromWith
    simp only [ih]

theorem dirlookup_eq (d : ℕ) (name : CString) :
  dirlookup sb d name = dirlookupWith (bmap sb) d name
  := by
  have hread : readDirent sb d = fun off => readInode (bmap sb) d (fun _ _ => true) off DIRENT := by
    funext off
    exact readDirent_eq d off
  unfold dirlookup dirlookupWith
  simp only [dirlookupFrom_eq, hread]

theorem isdirempty_eq (d : ℕ) : isdirempty sb d = isdiremptyWith (bmap sb) d := by
  have hread : readDirent sb d = fun off => readInode (bmap sb) d (fun _ _ => true) off DIRENT := by
    funext off
    exact readDirent_eq d off
  unfold isdirempty isdiremptyWith
  rw [hread]

end Source

/-! ### Without holes -/

section Kernel

variable {sb : Superblock} {alloc : Kernel ℕ} {log : ℕ → Kernel Unit} {m : Machine} {o : Obs}
  {f : ℕ → Inode} {i off n : ℕ} {dst : ℕ → ℕ → Bool}

/-- A block that is there is found without the two programs. -/
theorem bmapWith_run {bn : ℕ} (hi : sb.Live f i)
    (hne : bn < MAXFILE → sb.cell m.obs.view f (blockCell i bn) ≠ 0) :
  bmap sb (f i) bn m = bmapWith alloc log (f i) bn m
  := by
  unfold bmap bmapWith
  by_cases hdirect : bn < NDIRECT
  · have hne := hne (Nat.lt_of_lt_of_le hdirect (Nat.le_add_right _ _))
    rw [blockCell, if_pos hdirect, cell_addr hi] at hne
    rw [if_pos hdirect, if_pos hdirect, if_neg hne, if_neg hne]
  · rw [if_neg hdirect, if_neg hdirect]
    by_cases hbn : bn - NDIRECT < NINDIRECT
    · have hne := hne (by unfold MAXFILE; omega)
      rw [blockCell, if_neg hdirect] at hne
      have ha : (f i).indirect ≠ 0 := by
        intro ha
        exact hne (if_neg (fun h => h.2 ha))
      rw [cell_entry hi ha] at hne
      rw [if_pos hbn, if_pos hbn, if_neg ha, if_neg ha]
      unfold bmapIndirect bmapIndirectWith
      apply run_bind_congr (C := fun _ _ => True) rfl
      apply wp_bread_hold rfl
      intro m' _
      rw [if_neg hne, if_neg hne]
    · rw [if_neg hbn, if_neg hbn]

theorem readiLoopWith_run (hi : sb.Live f i)
    (hno : NoHole sb o.view f i) (hend : off + n ≤ (f i).size) {fuel tot : ℕ} {acc : List UInt8}
    (hm : Unmoved sb o f m.obs) :
  readiLoopWith (bmap sb) dst off n fuel tot acc (f i) m
    = readiLoopWith (bmapWith alloc log) dst off n fuel tot acc (f i) m
  := by
  induction fuel generalizing tot acc m with
  | zero => simp only [readiLoopWith]
  | succ fuel ih =>
    unfold readiLoopWith
    by_cases hlt : tot < n
    · have hne : (off + tot) / BSIZE < MAXFILE →
          sb.cell m.obs.view f (blockCell i ((off + tot) / BSIZE)) ≠ 0 := by
        intro hbn
        rw [hm.cells]
        apply hno _ hbn
        have := Nat.div_mul_le_self (off + tot) BSIZE
        omega
      rw [if_pos hlt, if_pos hlt]
      apply run_bind_congr (C := fun _ _ => True) (bmapWith_run hi hne)
      apply wp_bmap (fun _ _ _ _ => trivial) (Or.inr (fun _ => trivial)) rfl hm.consistent hi
      intro hbn addr f₁ m₁ hmapped
      obtain ⟨_, hobs, rfl⟩ := hmapped.fresh.resolve_right (fun hzero => hne hbn hzero.1)
      have hcell := hmapped.cell
      rw [hobs] at hcell
      have haddr : addr ≠ 0 := hcell ▸ hne hbn
      dsimp only
      rw [if_neg haddr, if_neg haddr]
      apply run_bind_congr (C := fun _ _ => True) rfl
      apply wp_bread_hold hobs
      intro m₂ h₂
      apply run_bind_congr (C := fun _ _ => True) rfl
      have hrelease := hm.wp_brelse (C := fun _ _ => True) (m := m₂) (blockCell_ne_last i _) (hne hbn)
        (hcell ▸ h₂)
      rw [hcell] at hrelease
      apply wp_mono hrelease _ (fun _ _ he => he)
      intro _ m₃ h₃
      split_ifs
      · rfl
      · exact ih h₃
    · rw [if_neg hlt, if_neg hlt]

theorem readiWith_run (hm : m.obs = o) (hcons : Consistent sb o f)
    (hi : sb.Live f i) (hno : NoHole sb o.view f i) :
  readiWith (bmap sb) (f i) dst off n m = readiWith (bmapWith alloc log) (f i) dst off n m
  := by
  have hrefl : Unmoved sb o f m.obs := by
    rw [hm]
    exact Unmoved.refl hcons
  unfold readiWith
  by_cases hrange : (f i).size < off ∨ (off + n) % 2 ^ 32 < off
  · rw [if_pos hrange, if_pos hrange]
  · rw [if_neg hrange, if_neg hrange]
    apply readiLoopWith_run hi hno _ hrefl
    rw [not_or] at hrange
    split_ifs <;> omega

end Kernel

/-! ### The calls -/

/-- The programs run alike in a sound file system. -/
def Alike {α : Type} (sb : Superblock) (x x' : FsM α) : Prop := ∀ s, Sound sb s → x s = x' s

section Calls

variable {α β : Type} {sb : Superblock} {alloc : Kernel ℕ} {log : ℕ → Kernel Unit} {i d : ℕ}

theorem Alike.refl (x : FsM α) : Alike sb x x := fun _ _ => rfl

theorem Alike.bind {x x' : FsM α} {f f' : α → FsM β} (hx : Alike sb x x') (hsafe : Safe sb x)
    (hf : ∀ a, Alike sb (f a) (f' a)) :
  Alike sb (x >>= f) (x' >>= f')
  := by
  intro s hs
  apply run_bind_congr (hx s hs)
  apply wp_mono (hsafe s hs) _ (fun _ _ he => he)
  intro a s' hs'
  exact hf a s' hs'

theorem alike_withInode {g g' : Inode → Kernel (α × Inode)}
    (h : ∀ m : Machine, Consistent sb m.obs (sb.inode m.obs.view) →
      sb.Live (sb.inode m.obs.view) i → NoHole sb m.obs.view (sb.inode m.obs.view) i →
      g (sb.inode m.obs.view i) m = g' (sb.inode m.obs.view i) m) :
  Alike sb (withInode i g) (withInode i g')
  := by
  intro s hs
  unfold withInode
  apply run_bind_congr (C := fun _ _ => True) rfl
  rw [wp_get]
  cases hslot : s.itable.lookup i with
  | none => rfl
  | some slot =>
    obtain ⟨ref, _ | ip⟩ := slot
    · rfl
    · obtain ⟨hlive, rfl⟩ := hs.copies i ip (copy_of_lookup hslot)
      have hsame : onDisk (g (s.inodes sb i)) s = onDisk (g' (s.inodes sb i)) s := by
        unfold onDisk
        rw [h s.machine hs.consistent hlive (hs.noHole i hlive)]
      dsimp only
      apply run_bind_congr (C := fun _ _ => True) hsame
      exact wp_mono wp_trivial (fun _ _ _ => rfl) (fun _ _ he => he)

theorem alike_readInode (dst : ℕ → ℕ → Bool) (off n : ℕ) :
  Alike sb (readInode (bmap sb) i dst off n) (readInode (bmapWith alloc log) i dst off n)
  := by
  apply alike_withInode
  intro m hcons hlive hno
  apply run_bind_congr (C := fun _ _ => True) (readiWith_run rfl hcons hlive hno)
  exact wp_mono wp_trivial (fun _ _ _ => rfl) (fun _ _ he => he)

theorem safe_readInode (dst : ℕ → ℕ → Bool) (off n : ℕ) : Safe sb (readInode (bmap sb) i dst off n) := by
  unfold readInode
  rw [← readi_eq]
  exact safe_readi

section

variable {read read' : ℕ → FsM (ℤ × List UInt8)} (hread : ∀ off, Alike sb (read off) (read' off))
  (hsafe : ∀ off, Safe sb (read off))
include hread hsafe

theorem alike_dirlookupFrom (size : ℕ) (name : CString) (fuel off : ℕ) :
  Alike sb (dirlookupFromWith read size name fuel off) (dirlookupFromWith read' size name fuel off)
  := by
  induction fuel generalizing off with
  | zero => exact Alike.refl _
  | succ fuel ih =>
    unfold dirlookupFromWith
    split_ifs
    · apply (hread off).bind (hsafe off)
      rintro ⟨r, de⟩
      dsimp only
      split_ifs
      · exact Alike.refl _
      · exact ih _
      · exact Alike.refl _
      · exact ih _
    · exact Alike.refl _

theorem alike_isdiremptyFrom (size fuel off : ℕ) :
  Alike sb (isdiremptyFrom read size fuel off) (isdiremptyFrom read' size fuel off)
  := by
  induction fuel generalizing off with
  | zero => exact Alike.refl _
  | succ fuel ih =>
    unfold isdiremptyFrom
    split_ifs
    · apply (hread off).bind (hsafe off)
      rintro ⟨r, de⟩
      dsimp only
      split_ifs
      · exact Alike.refl _
      · exact Alike.refl _
      · exact ih _
    · exact Alike.refl _

end

theorem alike_dirlookup (name : CString) :
  Alike sb (dirlookupWith (bmap sb) d name) (dirlookupWith (bmapWith alloc log) d name)
  := by
  apply Alike.bind (Alike.refl _) safe_inodeOf
  intro dp
  split_ifs
  · exact Alike.refl _
  · exact alike_dirlookupFrom (fun off => alike_readInode _ off _) (fun off => safe_readInode _ off _) _ _ _ _

theorem alike_isdirempty :
  Alike sb (isdiremptyWith (bmap sb) d) (isdiremptyWith (bmapWith alloc log) d)
  := by
  apply Alike.bind (Alike.refl _) safe_inodeOf
  intro dp
  exact alike_isdiremptyFrom (fun off => alike_readInode _ off _) (fun off => safe_readInode _ off _) _ _ _

end Calls

/-- From an image where the cells own the blocks in use, no file ever has a hole, and the
functions that read run in the same way whatever stands in the place of `balloc` and `log_write`,
inside and outside of transactions. -/
theorem reading_allocates_nothing {sb : Superblock} {start limit : ℕ} {disk : ℕ → Block}
    {recycle : ℕ → Bool} (himage : CleanImage sb start disk) {calls : List FsCall} {s : FileSys}
    (hrun : (callSystem sb).exec (FileSys.boot disk start limit recycle) calls = some s) :
  HoleFree sb s.machine.view
    ∧ ∀ (alloc : Kernel ℕ) (log : ℕ → Kernel Unit),
        (∀ i dst off n,
          (withInode i fun ip => do
            let (r, out, ip) ← readi sb ip dst off n
            return ((r, out), ip)) s = readInode (bmapWith alloc log) i dst off n s)
        ∧ (∀ d name, dirlookup sb d name s = dirlookupWith (bmapWith alloc log) d name s)
        ∧ ∀ d, isdirempty sb d s = isdiremptyWith (bmapWith alloc log) d s
  := by
  have hsound : Sound sb s := sound_of_exec (himage.sound limit recycle) hrun
  refine ⟨hsound.noHole, fun alloc log => ⟨?_, ?_, ?_⟩⟩
  · intro i dst off n
    rw [readi_eq]
    exact alike_readInode dst off n s hsound
  · intro d name
    rw [dirlookup_eq]
    exact alike_dirlookup name s hsound
  · intro d
    rw [isdirempty_eq]
    exact alike_isdirempty s hsound

/-- A file grows, is read and is removed from the table. -/
def growAndRead : List FsCall :=
  [.basic .beginOp, .basic (.iget 1), .basic (.ilock 1),
    .basic (.writei 1 (.kernel fun _ => 7) 0 10 1020), .basic .endOp,
    .readi 1 (fun _ _ => true) 0 1030, .basic (.iput 1)]

theorem reading_allocates_nothing_small :
  ∃ s, (callSystem smallSb).exec (FileSys.boot smallDisk 2 100 fun _ => true) growAndRead = some s
    ∧ HoleFree smallSb s.machine.view
  := by
  have hrun : ((callSystem smallSb).exec (FileSys.boot smallDisk 2 100 fun _ => true)
      growAndRead).isSome = true := by
    decide +kernel
  obtain ⟨s, hs⟩ := Option.isSome_iff_exists.mp hrun
  exact ⟨s, hs, (reading_allocates_nothing small_clean hs).1⟩

/-! ### An image with a block that is used twice -/

/-- A file system with two inodes for files. -/
def crossSb : Superblock := { smallSb with ninodes := 3 }

/-- A file whose block is the block of the inodes. -/
def crossFile : Inode where
  inum := 1
  type := T_FILE
  major := 0
  minor := 0
  nlink := 1
  size := 1024
  addrs := fun k => if k = 0 then 33 else 0

def crossDisk (b : ℕ) : Block :=
  if b = 33 then crossFile.store (fun _ => 0) else if b = 34 then smallMap else fun _ => 0

/-- The bytes of an inode of a file with one byte and no block. -/
def holeBytes (k : ℕ) : UInt8 := if k = 0 then 2 else if k = 6 ∨ k = 8 then 1 else 0

theorem cross_single : SingleInode crossSb crossDisk crossFile := by
  refine ⟨rfl, by decide, by decide, by decide, by decide, by decide, by decide, by decide, by decide, ?_⟩
  intro k
  unfold crossFile
  dsimp only
  split_ifs <;> decide

theorem cross_holeFree : HoleFree crossSb crossDisk := by
  have hone : crossSb.inode crossDisk 1 = crossFile := SingleInode.inode_eq cross_single
  intro i hlive bn _ hbelow
  obtain rfl : i = 1 := by
    rwa [SingleInode.live_iff cross_single] at hlive
  rw [hone] at hbelow
  have hbelow : bn * 1024 < 1024 := hbelow
  obtain rfl : bn = 0 := by omega
  rw [blockCell, if_pos (by decide), cell_addr hlive, hone]
  decide

/-- When a block is used twice, a write to one file makes a hole in another one. -/
theorem writei_makes_hole :
  HoleFree crossSb crossDisk
    ∧ ∃ s, (callSystem crossSb).exec (FileSys.boot crossDisk 2 100 fun _ => false)
        [.basic .beginOp, .basic (.iget 1), .basic (.ilock 1),
          .basic (.writei 1 (.kernel holeBytes) 0 128 64)] = some s
      ∧ ¬ HoleFree crossSb s.machine.view
  := by
  refine ⟨cross_holeFree, ?_⟩
  have hrun : ((callSystem crossSb).exec (FileSys.boot crossDisk 2 100 fun _ => false)
      [.basic .beginOp, .basic (.iget 1), .basic (.ilock 1),
        .basic (.writei 1 (.kernel holeBytes) 0 128 64)]).map
      (fun s => ((crossSb.inode s.machine.view 2).type, (crossSb.inode s.machine.view 2).size,
        (crossSb.inode s.machine.view 2).addrs 0)) = some (2, 1, 0) := by
    decide
  obtain ⟨s, hs, hinode⟩ := Option.map_eq_some_iff.mp hrun
  obtain ⟨htype, hrest⟩ := Prod.mk.inj hinode
  obtain ⟨hsize, haddr⟩ := Prod.mk.inj hrest
  refine ⟨s, hs, ?_⟩
  intro hfree
  have hlive : crossSb.Live (crossSb.inode s.machine.view) 2 := ⟨by decide, by rw [htype]; decide⟩
  have hne := hfree 2 hlive 0 (by decide) (by rw [hsize]; decide)
  rw [blockCell, if_pos (by decide), cell_addr hlive] at hne
  exact hne haddr

end Xv6
