import Xv6.Fs.Content
import Xv6.Fs.Fits

/-!
# Files as arrays of bytes

The contents of an inode are a list of bytes.  `writei` overwrites a part of the list, which may
get longer, and leaves the contents of the other inodes alone; `readi` returns a part of the list.
A `writei` that cannot go on, since the disk is full or the source cannot be read, has
overwritten what it says it has.
-/

namespace Xv6

open Machine Stop Superblock Function

/-! ### Files -/

/-- The files are legible and have a byte at each position below their size. -/
structure Files (sb : Superblock) (o : Obs) (f : ℕ → Inode) : Prop where
  consistent : Consistent sb o f
  legible : ∀ j, sb.Live f j → Legible sb o f j
  filled : ∀ j, sb.Live f j → ∀ p < (f j).size, ∃ c, (f j).byte o.view p = some c

/-- The files of the inodes other than `i` are what they were. -/
structure Aside (sb : Superblock) (i : ℕ) (o : Obs) (f : ℕ → Inode) (o' : Obs) (f' : ℕ → Inode) :
    Prop where
  other : ∀ j, j ≠ i → f' j = f j
  legible : ∀ j, j ≠ i → sb.Live f j → Legible sb o' f' j
  bytes : ∀ j, j ≠ i → sb.Live f j →
    ∀ p c, (f j).byte o.view p = some c → (f' j).byte o'.view p = some c

section Files

variable {sb : Superblock} {o o' o₁ o₂ : Obs} {f f' f₁ f₂ : ℕ → Inode} {i j bn : ℕ}
  {C : Fault → Machine → Prop} {m : Machine}

theorem Files.fileSound (h : Files sb o f) (hi : sb.Live f i) : FileSound sb o f i :=
  ⟨h.consistent, hi, h.legible i hi⟩

theorem Files.size_le (h : Files sb o f) (hi : sb.Live f i) : (f i).size ≤ MAXFILE * BSIZE := by
  by_contra hlt
  obtain ⟨c, hc⟩ := h.filled i hi (MAXFILE * BSIZE) (Nat.lt_of_not_le hlt)
  obtain ⟨hbn, -⟩ := cell_of_byte hi hc
  exact absurd hbn (by decide)

theorem Aside.refl (h : Files sb o f) : Aside sb i o f o f :=
  ⟨fun _ _ => rfl, fun j _ hj => h.legible j hj, fun _ _ _ _ _ h => h⟩

theorem Aside.live (h : Aside sb i o f o' f') (hj : j ≠ i) : sb.Live f' j ↔ sb.Live f j := by
  unfold Live
  rw [h.other j hj]

theorem Aside.trans (h₁ : Aside sb i o f o₁ f₁) (h₂ : Aside sb i o₁ f₁ o₂ f₂) :
  Aside sb i o f o₂ f₂
  := by
  refine ⟨fun j hj => (h₂.other j hj).trans (h₁.other j hj), ?_, ?_⟩
  · intro j hj hlive
    exact h₂.legible j hj ((h₁.live hj).mpr hlive)
  · intro j hj hlive p c h
    exact h₂.bytes j hj ((h₁.live hj).mpr hlive) p c (h₁.bytes j hj hlive p c h)

/-- The files, when one of them has changed. -/
theorem Aside.files (h : Aside sb i o f o' f') (hfiles : Files sb o f) (hs : FileSound sb o' f' i)
    (hfilled : ∀ p < (f' i).size, ∃ c, (f' i).byte o'.view p = some c) :
  Files sb o' f'
  := by
  have hfile : ∀ j, sb.Live f' j →
      Legible sb o' f' j ∧ ∀ p < (f' j).size, ∃ c, (f' j).byte o'.view p = some c := by
    intro j hj
    by_cases hji : j = i
    · subst hji
      exact ⟨hs.legible, hfilled⟩
    · have hlive := (h.live hji).mp hj
      refine ⟨h.legible j hji hlive, fun p hp => ?_⟩
      rw [h.other j hji] at hp
      obtain ⟨c, hc⟩ := hfiles.filled j hlive p hp
      exact ⟨c, h.bytes j hji hlive p c hc⟩
  exact ⟨hs.consistent, fun j hj => (hfile j hj).1, fun j hj => (hfile j hj).2⟩

/-- The cells of the other inodes are what they were, and the blocks in them are left alone. -/
theorem Aside.of_spared (hlegible : ∀ j, j ≠ i → sb.Live f j → Legible sb o f j) (hother : ∀ j, j ≠ i → f' j = f j)
    (hdisk : o'.disk = o.disk) (hframe : ∀ q, q.inum ≠ i → sb.cell o'.view f' q = sb.cell o.view f q)
    (hspared : ∀ j bn, j ≠ i → bn < MAXFILE → sb.cell o.view f (blockCell j bn) ≠ 0 →
      Spared o o' (sb.cell o.view f (blockCell j bn))) :
  Aside sb i o f o' f'
  := by
  have hcell : ∀ j, j ≠ i → ∀ bn, sb.cell o'.view f' (blockCell j bn) = sb.cell o.view f (blockCell j bn) := by
    intro j hj bn
    apply hframe
    rw [blockCell_inum]
    exact hj
  refine ⟨hother, ?_, ?_⟩
  · intro j hj hlive bn hbn h0
    rw [hcell j hj] at h0 ⊢
    exact (hspared j bn hj hbn h0).settled hdisk (hlegible j hj hlive bn hbn h0)
  · intro j hj hlive p c h
    have hlive' : sb.Live f' j := by
      unfold Live
      rw [hother j hj]
      exact hlive
    apply byte_kept hlive hlive' _ h
    intro bn hbn h0
    exact ⟨hcell j hj bn, (hspared j bn hj hbn h0).view⟩

/-! ### Finding a block -/

/-- `bmap` finds a block or allocates one, or there is none left.  The files keep their bytes. -/
theorem wp_bmap_files {Q : ℕ × Inode → Machine → Prop} (hC : Tolerates C) (hbn : bn < MAXFILE)
    (hm : m.obs = o) (hs : FileSound sb o f i) (hlegible : ∀ j, j ≠ i → sb.Live f j → Legible sb o f j)
    (h : ∀ addr f' m', Bmapped sb i (blockCell i bn) o f addr m'.obs f' → Carried sb i o f m'.obs f' →
      Aside sb i o f m'.obs f' → Q (addr, f' i) m') :
  wp (bmap sb (f i) bn) Q C m
  := by
  apply wp_bmap_carried hC (Or.inl hbn) hm hs
  intro _ addr f' m' hmapped hcar
  apply h addr f' m' hmapped hcar
  apply Aside.of_spared hlegible hmapped.other hmapped.logs.disk hmapped.frame
  intro j bn' _ _ h0
  exact hmapped.spared _ (hs.consistent.content (blockCell_ne_last j bn') h0)

end Files

/-! ### Enough free blocks -/

/-- The blocks that are not in use. -/
def Superblock.freeBlocks (sb : Superblock) (view : ℕ → Block) : Finset ℕ :=
  (Finset.range sb.size).filter (fun b => sb.bit view b = false)

/-- The cells that have to be filled for the positions from `off` to `off + n`. -/
def rangeCells (i off n : ℕ) : Finset Cell :=
  ((Finset.range MAXFILE).filter (fun bn => off < (bn + 1) * BSIZE ∧ bn * BSIZE < off + n)).image
    (blockCell i)
    ∪ if NDIRECT * BSIZE < off + n then {.addr i (Fin.last NDIRECT)} else ∅

/-- Those of them that are empty. -/
def Superblock.emptyCells (sb : Superblock) (view : ℕ → Block) (f : ℕ → Inode) (i off n : ℕ) : Finset Cell :=
  (rangeCells i off n).filter (fun q => sb.cell view f q = 0)

/-- There is a free block for each block the range needs. -/
def Superblock.Enough (sb : Superblock) (view : ℕ → Block) (f : ℕ → Inode) (i off n : ℕ) : Prop :=
  (sb.emptyCells view f i off n).card ≤ (sb.freeBlocks view).card

section Enough

variable {sb : Superblock} {o o' : Obs} {f f' : ℕ → Inode} {i off n bn addr : ℕ}

theorem blockCell_mem_rangeCells (hbn : bn < MAXFILE) (hlt : off < (bn + 1) * BSIZE)
    (hend : bn * BSIZE < off + n) :
  blockCell i bn ∈ rangeCells i off n
  := by
  apply Finset.mem_union_left
  apply Finset.mem_image_of_mem
  rw [Finset.mem_filter, Finset.mem_range]
  exact ⟨hbn, hlt, hend⟩

theorem last_mem_rangeCells (hbn : NDIRECT ≤ bn) (hend : bn * BSIZE < off + n) :
  .addr i (Fin.last NDIRECT) ∈ rangeCells i off n
  := by
  have hlt : NDIRECT * BSIZE < off + n := Nat.lt_of_le_of_lt (Nat.mul_le_mul_right _ hbn) hend
  apply Finset.mem_union_right
  rw [if_pos hlt]
  exact Finset.mem_singleton_self _

section

variable (h : Bmapped sb i (blockCell i bn) o f addr o' f') (hcons : Consistent sb o f)
  (hi : sb.Live f i) (hbn : bn < MAXFILE) (hlt : off < (bn + 1) * BSIZE)
  (hend : bn * BSIZE < off + n)

include h hcons hi hbn hlt hend

/-- A block that is not free any more is in a cell of the range that was empty. -/
theorem Bmapped.freeBlocks_subset :
  sb.freeBlocks o.view ⊆ sb.freeBlocks o'.view
    ∪ (sb.emptyCells o.view f i off n \ sb.emptyCells o'.view f' i off n).image (sb.cell o'.view f')
  := by
  intro b hb
  obtain ⟨hsize, hclear⟩ := Finset.mem_filter.mp hb
  rw [Finset.mem_range] at hsize
  rw [Finset.mem_union]
  by_cases hfree : sb.bit o'.view b = false
  · exact Or.inl (Finset.mem_filter.mpr ⟨Finset.mem_range.mpr hsize, hfree⟩)
  · right
    have hdata := hcons.owned.data_of_clear hsize hclear
    obtain ⟨hb0, q, hq⟩ := h.consistent.owned.own.owned b
      ⟨hdata.1, div_le_of_lt hsize, Bool.eq_true_of_not_eq_false hfree⟩
    have hempty : sb.cell o.view f q = 0 := by
      by_contra hne
      have hset := hcons.owned.bit_eq hne
      rw [← h.cells q hne, hq, hclear] at hset
      cases hset
    have hmem : q ∈ rangeCells i off n := by
      by_cases hlast : ∃ j, q = .addr j (Fin.last NDIRECT)
      · obtain ⟨j, rfl⟩ := hlast
        obtain rfl : j = i := by
          by_contra hj
          rw [h.frame (.addr j (Fin.last NDIRECT)) hj, hempty] at hq
          exact hb0 hq.symm
        apply last_mem_rangeCells _ hend
        by_contra hbelow
        have hsame := h.direct _ (if_pos (Nat.lt_of_not_le hbelow))
        rw [cell_addr (h.live.mpr hi)] at hq
        rw [cell_addr hi] at hempty
        exact hb0 (hq.symm.trans (hsame.trans hempty))
      · obtain rfl : q = blockCell i bn := by
          by_contra hne
          rw [h.rest q (fun j hj => hlast ⟨j, hj⟩) hne, hempty] at hq
          exact hb0 hq.symm
        exact blockCell_mem_rangeCells hbn hlt hend
    apply Finset.mem_image.mpr
    refine ⟨q, ?_, hq⟩
    rw [Finset.mem_sdiff]
    refine ⟨Finset.mem_filter.mpr ⟨hmem, hempty⟩, ?_⟩
    intro hempty'
    exact hb0 (hq.symm.trans (Finset.mem_filter.mp hempty').2)

/-- After a step of the loop there are enough blocks for the rest. -/
theorem Bmapped.enough (henough : sb.Enough o.view f i off n) : sb.Enough o'.view f' i off n := by
  have hsub : sb.emptyCells o'.view f' i off n ⊆ sb.emptyCells o.view f i off n := by
    intro q hq
    obtain ⟨hmem, hempty⟩ := Finset.mem_filter.mp hq
    apply Finset.mem_filter.mpr
    refine ⟨hmem, ?_⟩
    by_contra hne
    exact hne ((h.cells q hne).symm.trans hempty)
  have hfree := Finset.card_le_card (h.freeBlocks_subset hcons hi hbn hlt hend)
  have hunion := Finset.card_union_le (sb.freeBlocks o'.view)
    ((sb.emptyCells o.view f i off n \ sb.emptyCells o'.view f' i off n).image (sb.cell o'.view f'))
  have himage : ((sb.emptyCells o.view f i off n \ sb.emptyCells o'.view f' i off n).image
      (sb.cell o'.view f')).card ≤ _ := Finset.card_image_le
  rw [Finset.card_sdiff_of_subset hsub] at himage
  have hcard := Finset.card_le_card hsub
  unfold Enough at henough ⊢
  omega

end

/-- There is a block for a cell that is empty. -/
theorem Superblock.Enough.not_noFree (h : sb.Enough o.view f i off n) (hbn : bn < MAXFILE)
    (hlt : off < (bn + 1) * BSIZE) (hend : bn * BSIZE < off + n)
    (hempty : sb.cell o.view f (blockCell i bn) = 0) :
  ¬ sb.NoFree o
  := by
  intro hnone
  have hzero : (sb.freeBlocks o.view).card = 0 := by
    rw [Finset.card_eq_zero]
    apply Finset.filter_eq_empty_iff.mpr
    intro b hb
    rw [hnone b (Finset.mem_range.mp hb)]
    decide
  have hpos : 0 < (sb.emptyCells o.view f i off n).card :=
    Finset.card_pos.mpr ⟨_, Finset.mem_filter.mpr ⟨blockCell_mem_rangeCells hbn hlt hend, hempty⟩⟩
  unfold Enough at h
  omega

end Enough

/-! ### Writing -/

/-- The bytes have been written from `off` to `off + tot`.  After a fault the next block may have
other bytes. -/
structure Storing (sb : Superblock) (i off : ℕ) (bytes : ℕ → UInt8) (o : Obs) (f : ℕ → Inode) (tot : ℕ)
    (fault : Bool) (o' : Obs) (f' : ℕ → Inode) : Prop where
  consistent : Consistent sb o' f'
  live : sb.Live f' i
  legible : fault = false → Legible sb o' f' i
  aside : Aside sb i o f o' f'
  inside : ∀ k < tot, (f' i).byte o'.view (off + k) = some (bytes k)
  outside : ∀ p c, p < off ∨ off + tot ≤ p → (fault = true → p / BSIZE ≠ (off + tot) / BSIZE) →
    (f i).byte o.view p = some c → (f' i).byte o'.view p = some c

/-- Why `writei` has ended behind `tot` bytes. -/
inductive Ended (sb : Superblock) (s : Source) (src i off n : ℕ) (o : Obs) (f : ℕ → Inode) : ℕ → Bool → Prop
  | done : Ended sb s src i off n o f n false
  | full {tot : ℕ} (hfew : ¬ sb.Enough o.view f i off n) : Ended sb s src i off n o f tot false
  | fault {tot : ℕ} (hread : s.readable (src + tot) (pieceLength off n tot) < pieceLength off n tot) :
      Ended sb s src i off n o f tot true

section Write

variable {sb : Superblock} {s : Source} {src off n i tot addr bn : ℕ} {bytes : ℕ → UInt8}
  {C : Fault → Machine → Prop} {m : Machine} {o o₁ o₂ : Obs} {f f₁ f₂ : ℕ → Inode} {fault : Bool}

theorem Storing.fileSound (h : Storing sb i off bytes o f tot false o₁ f₁) : FileSound sb o₁ f₁ i :=
  ⟨h.consistent, h.live, h.legible rfl⟩

theorem Storing.start (hfiles : Files sb o f) (hi : sb.Live f i) : Storing sb i off bytes o f 0 false o f :=
  ⟨hfiles.consistent, hi, fun _ => hfiles.legible i hi, Aside.refl hfiles,
    fun k hk => absurd hk (Nat.not_lt_zero k), fun _ _ _ _ h => h⟩

theorem Storing.legible_other (h : Storing sb i off bytes o f tot fault o₁ f₁) (j : ℕ)
    (hj : j ≠ i) (hlive : sb.Live f₁ j) :
  Legible sb o₁ f₁ j
  := h.aside.legible j hj ((h.aside.live hj).mp hlive)

/-- Nothing of the bytes is lost. -/
theorem Storing.carry (h : Storing sb i off bytes o f tot false o₁ f₁) (hcar : Carried sb i o₁ f₁ o₂ f₂)
    (haside : Aside sb i o₁ f₁ o₂ f₂) :
  Storing sb i off bytes o f tot false o₂ f₂
  := ⟨hcar.consistent, hcar.live, fun _ => hcar.legible, h.aside.trans haside,
    fun k hk => hcar.byte _ _ (h.inside k hk),
    fun p c hp hfault hc => hcar.byte _ _ (h.outside p c hp hfault hc)⟩

/-- Another file does not have the block. -/
theorem cell_ne_of_inum_ne (hcons : Consistent sb o f) {j bn' : ℕ} (hj : j ≠ i)
    (h0 : sb.cell o.view f (blockCell j bn') ≠ 0) :
  sb.cell o.view f (blockCell j bn') ≠ sb.cell o.view f (blockCell i bn)
  := by
  intro heq
  have hq := hcons.owned.own.unique _ _ h0 heq
  apply hj
  rw [← blockCell_inum j bn', hq, blockCell_inum]

/-- One block of the file has changed. -/
theorem Storing.aside_of_block (h : Storing sb i off bytes o f tot false o₁ f₁)
    (haddr : sb.cell o₁.view f₁ (blockCell i bn) = addr) (hdisk : o₂.disk = o₁.disk)
    (hcells : sb.cell o₂.view f₁ = sb.cell o₁.view f₁) (hspared : ∀ b, b ≠ addr → Spared o₁ o₂ b) :
  Aside sb i o f o₂ f₁
  := by
  subst haddr
  apply h.aside.trans
  apply Aside.of_spared h.legible_other (fun _ _ => rfl) hdisk (fun q _ => congrFun hcells q)
  intro j bn' hj _ hne
  exact hspared _ (cell_ne_of_inum_ne h.consistent hj hne)

/-- The next piece has been copied and logged. -/
theorem Storing.piece (h : Storing sb i off (s.bytes src) o f tot false o₁ f₁)
    (hbn : (off + tot) / BSIZE < MAXFILE)
    (haddr : sb.cell o₁.view f₁ (blockCell i ((off + tot) / BSIZE)) = addr) (h0 : addr ≠ 0)
    (hread : s.readable (src + tot) (pieceLength off n tot) = pieceLength off n tot)
    (hlen : (o₁.log addr (pieceData s src off n tot (o₁.view addr))).lh.length ≤ LOGBLOCKS) :
  Storing sb i off (s.bytes src) o f (tot + pieceLength off n tot) false
    (o₁.log addr (pieceData s src off n tot (o₁.view addr))) f₁
  := by
  have hpatched : Patched (f i) o.view off tot (s.bytes src) (f₁ i) o₁.view :=
    ⟨h.inside, fun p c hp hc => h.outside p c hp (fun hfault => by cases hfault) hc⟩
  have hpiece := hpatched.piece h.fileSound hbn haddr h0 hread hlen
  obtain ⟨hsound, -⟩ := h.fileSound.log_block hbn haddr h0 hlen
  have hcontent := h.consistent.content (blockCell_ne_last i _) (haddr.symm ▸ h0)
  rw [haddr] at hcontent
  obtain ⟨-, hcells⟩ := h.consistent.log_data hcontent.data hcontent.indirect hlen
  exact ⟨hsound.consistent, hsound.live, fun _ => hsound.legible,
    h.aside_of_block haddr rfl hcells (fun _ hb => Spared.log hb _), hpiece.inside,
    fun p c hp _ hc => hpiece.outside p c hp hc⟩

/-- The next block has been changed and not logged. -/
theorem Storing.tear (h : Storing sb i off bytes o f tot false o₁ f₁)
    (hwhole : tot = 0 ∨ (off + tot) % BSIZE = 0)
    (hbn : (off + tot) / BSIZE < MAXFILE)
    (haddr : sb.cell o₁.view f₁ (blockCell i ((off + tot) / BSIZE)) = addr) (h0 : addr ≠ 0) (data : Block) :
  Storing sb i off bytes o f tot true (o₁.setView addr data) f₁
  := by
  subst haddr
  obtain ⟨hgrown, hcells⟩ := Grown.setView_cell (i := i) h.consistent (blockCell_ne_last i _) h0 data
  have hkept : ∀ {p c}, p / BSIZE ≠ (off + tot) / BSIZE → (f₁ i).byte o₁.view p = some c →
      (f₁ i).byte (o₁.setView (sb.cell o₁.view f₁ (blockCell i ((off + tot) / BSIZE))) data).view p
        = some c := by
    intro p c hp hc
    obtain ⟨hlt, hne, rfl⟩ := cell_of_byte h.live hc
    rw [byte_of_cell h.live hlt (congrFun hcells _) hne]
    congr 2
    apply update_of_ne
    intro heq
    exact hp (blockCell_inj hlt hbn (h.consistent.owned.own.unique _ _ hne heq))
  refine ⟨hgrown.consistent, h.live, fun hfault => (by cases hfault), ?_, ?_, ?_⟩
  · exact h.aside_of_block rfl rfl hcells (fun _ hb => ⟨update_of_ne hb _ _, Nat.le_refl _⟩)
  · intro k hk
    apply hkept _ (h.inside k hk)
    simp only [BSIZE] at *
    omega
  · intro p c hp hfault hc
    exact hkept (hfault rfl) (h.outside p c hp (fun hf => by cases hf) hc)

/-- The free blocks and the empty cells are the same after a data block has been changed. -/
theorem Superblock.Enough.log (h : sb.Enough o.view f i off n) (hcons : Consistent sb o f)
    (hb : sb.Content o f addr) {data : Block} (hlen : (o.log addr data).lh.length ≤ LOGBLOCKS) :
  sb.Enough (o.log addr data).view f i off n
  := by
  obtain ⟨-, hcells⟩ := hcons.log_data hb.data hb.indirect hlen
  have hfree : sb.freeBlocks (o.log addr data).view = sb.freeBlocks o.view := by
    apply Finset.filter_congr
    intro b hmem
    rw [Obs.log_view, bit_update hb.data.1 (div_le_of_lt (Finset.mem_range.mp hmem))]
  unfold Enough emptyCells at h ⊢
  rw [hfree, hcells]
  exact h

/-- A round ends with the range or with a block. -/
theorem whole_piece (h : tot < n) :
  tot + pieceLength off n tot = n ∨ (off + (tot + pieceLength off n tot)) % BSIZE = 0
  := by
  simp only [pieceLength, BSIZE]
  omega

/-- The loop of `writei` writes until it is done, the disk is full or the source cannot be read. -/
theorem wp_writeiLoop_storing {Q : ℕ × Inode → Machine → Prop}
    (hC : Tolerates C) (hmax : off + n ≤ MAXFILE * BSIZE) (hm : m.obs = o) (hfiles : Files sb o f)
    (hi : sb.Live f i)
    (h : ∀ tot fault f' m', tot ≤ n → (tot < n → tot = 0 ∨ (off + tot) % BSIZE = 0) →
      Storing sb i off (s.bytes src) o f tot fault m'.obs f' → (f' i).size = (f i).size →
      Ended sb s src i off n o f tot fault → Q (tot, f' i) m') :
  wp (writeiLoop sb s src off n n 0 (f i)) Q C m
  := by
  apply wp_writeiLoop (fun tot ip m => tot ≤ n ∧ (tot < n → tot = 0 ∨ (off + tot) % BSIZE = 0)
    ∧ ∃ f', f' i = ip ∧ Storing sb i off (s.bytes src) o f tot false m.obs f' ∧ (f' i).size = (f i).size
      ∧ (sb.Enough o.view f i off n → sb.Enough m.obs.view f' i off n)) hC
  · rintro _ m ⟨-, hwhole, f', rfl, hstoring, hsize, -⟩
    exact h n false f' m (Nat.le_refl n) hwhole hstoring hsize .done
  · rintro tot _ m htot ⟨-, hwhole, f', rfl, hstoring, hsize, henough⟩
    have hlt : off < ((off + tot) / BSIZE + 1) * BSIZE := by
      simp only [BSIZE]
      omega
    have hend : (off + tot) / BSIZE * BSIZE < off + n := by
      simp only [BSIZE]
      omega
    apply wp_bmap_files hC (block_lt hmax htot) rfl hstoring.fileSound hstoring.legible_other
    intro addr f₁ m₁ hmapped hcar haside
    have hbn := block_lt hmax htot
    have hstoring₁ := hstoring.carry hcar haside
    have hsize₁ : (f₁ i).size = (f i).size := by
      rw [hmapped.same]
      exact hsize
    have henough₁ : sb.Enough o.view f i off n → sb.Enough m₁.obs.view f₁ i off n := fun hfits =>
      hmapped.enough hstoring.consistent hstoring.live hbn hlt hend (henough hfits)
    constructor
    · rintro rfl
      apply h tot false f₁ m₁ (Nat.le_of_lt htot) hwhole hstoring₁ hsize₁
      apply Ended.full
      intro hfits
      exact (henough₁ hfits).not_noFree hbn hlt hend hmapped.cell (hmapped.full rfl)
    · intro haddr
      refine ⟨hstoring₁.consistent.pinned, ?_, ?_⟩
      · intro hread m₂ h₂ hlen
        rw [h₂] at hlen ⊢
        have hle : pieceLength off n tot ≤ n - tot := pieceLength_le
        have hcontent := hstoring₁.consistent.content (blockCell_ne_last i ((off + tot) / BSIZE))
          (hmapped.cell.symm ▸ haddr)
        rw [hmapped.cell] at hcontent
        refine ⟨by omega, ?_, f₁, rfl, hstoring₁.piece hbn hmapped.cell haddr hread hlen, hsize₁, ?_⟩
        · intro hless
          right
          exact (whole_piece htot).resolve_left (Nat.ne_of_lt hless)
        · intro hfits
          exact (henough₁ hfits).log hstoring₁.consistent hcontent hlen
      · intro hread data m₂ _ h₂
        have htear := hstoring₁.tear (hwhole htot) hbn hmapped.cell haddr data
        rw [← h₂] at htear
        exact h tot true f₁ m₂ (Nat.le_of_lt htot) hwhole htear hsize₁ (.fault hread)
  · omega
  · exact Nat.zero_le n
  · rw [hm]
    exact ⟨Nat.zero_le n, fun _ => Or.inl rfl, f, rfl, Storing.start hfiles hi, rfl, fun hfits => hfits⟩

/-- The inode gets a size. -/
theorem Storing.wp_iupdate {k : ℕ} {Q : Unit → Machine → Prop}
    (h : Storing sb i off bytes o f tot fault o₁ f₁) (hC : Tolerates C) (hm : m.obs = o₁) (hk : k < 2 ^ 32)
    (hQ : ∀ m', Storing sb i off bytes o f tot fault m'.obs (update f₁ i ((f₁ i).setSize k)) → Q () m') :
  wp (iupdate sb ((f₁ i).setSize k)) Q C m
  := by
  apply wp_iupdate_size hC hm h.consistent h.live.1 hk
  intro m' hsaved hcell hdisk hspared
  have hkept : ∀ j bn, sb.cell o₁.view f₁ (blockCell j bn) ≠ 0 →
      Spared o₁ m'.obs (sb.cell o₁.view f₁ (blockCell j bn)) :=
    fun j bn h0 => hspared _ (h.consistent.owned.data h0)
  have hlive : sb.Live (update f₁ i ((f₁ i).setSize k)) i := by
    refine ⟨h.live.1, ?_⟩
    rw [update_self]
    exact h.live.2
  have hbyte : ∀ {p c}, (f₁ i).byte o₁.view p = some c →
      (update f₁ i ((f₁ i).setSize k) i).byte m'.obs.view p = some c := by
    intro p c hc
    apply byte_kept h.live hlive _ hc
    intro bn _ h0
    exact ⟨congrFun hcell _, (hkept i bn h0).view⟩
  apply hQ
  refine ⟨hsaved.consistent, hlive, ?_, ?_, fun k hk => hbyte (h.inside k hk),
    fun p c hp hfault hc => hbyte (h.outside p c hp hfault hc)⟩
  · intro hfault bn hbn h0
    rw [hcell] at h0 ⊢
    exact (hkept i bn h0).settled hdisk (h.legible hfault bn hbn h0)
  · apply h.aside.trans
    exact Aside.of_spared h.legible_other (fun j hj => update_of_ne hj _ _) hdisk
      (fun q _ => congrFun hcell q) (fun j bn _ _ h0 => hkept j bn h0)

/-- `writei` in a file system with files. -/
theorem wp_writei_storing {Q : ℤ × Inode → Machine → Prop} (hC : Tolerates C) (hm : m.obs = o)
    (hfiles : Files sb o f) (hi : sb.Live f i) (hoff : off ≤ (f i).size) (hmax : off + n ≤ MAXFILE * BSIZE)
    (h : ∀ tot fault ip m', tot ≤ n → (tot < n → tot = 0 ∨ (off + tot) % BSIZE = 0) →
      Storing sb i off (s.bytes src) o f tot fault m'.obs (update f i ip) →
      ip.size = max (f i).size (off + tot) → Ended sb s src i off n o f tot fault →
      Q (tot, ip) m') :
  wp (writei sb (f i) s src off n) Q C m
  := by
  have hfits := (hfiles.consistent.wf i hi.1).1
  have hn : off + n < 2 ^ 32 := by
    simp only [MAXFILE, NDIRECT, NINDIRECT, BSIZE] at hmax
    omega
  apply wp_writei_of_loop hfits (by omega)
  · intro hout
    omega
  intro _ _
  apply wp_writeiLoop_storing hC hmax hm hfiles hi
  intro tot fault f₁ m₁ htot hwhole hstoring hsize hended
  have := hfits.size
  dsimp only
  apply hstoring.wp_iupdate hC rfl (by omega)
  intro m₂ hstoring₂
  rw [update_eq_of_other hstoring.aside.other] at hstoring₂
  apply h tot fault _ m₂ htot hwhole hstoring₂ _ hended
  rw [← hsize]
  rfl

end Write

/-! ### Contents -/

/-- The contents of a file. -/
def Inode.contents (ip : Inode) (view : ℕ → Block) : List UInt8 :=
  (List.range ip.size).map (fun p => (ip.byte view p).getD 0)

/-- The list with a part of it replaced, or longer than before. -/
def overwrite (old : List UInt8) (off : ℕ) (new : List UInt8) : List UInt8 :=
  old.take off ++ new ++ old.drop (off + new.length)

section Contents

variable {ip : Inode} {view : ℕ → Block} {old new : List UInt8} {off p : ℕ} {c : UInt8}

theorem Inode.length_contents (ip : Inode) (view : ℕ → Block) : (ip.contents view).length = ip.size := by
  rw [contents, List.length_map, List.length_range]

theorem Inode.contents_getElem (hp : p < ip.size) (hc : ip.byte view p = some c) :
  (ip.contents view)[p]? = some c
  := by
  rw [contents, List.getElem?_map, List.getElem?_range hp, Option.map_some, hc, Option.getD_some]

theorem length_overwrite (h : off ≤ old.length) :
  (overwrite old off new).length = max old.length (off + new.length)
  := by
  simp only [overwrite, List.length_append, List.length_take, List.length_drop]
  omega

theorem overwrite_inside (h : off ≤ old.length) {k : ℕ} (hk : k < new.length) :
  (overwrite old off new)[off + k]? = new[k]?
  := by
  have hlen : (old.take off).length = off := List.length_take_of_le h
  rw [overwrite, List.getElem?_append_left (by rw [List.length_append, hlen]; omega),
    List.getElem?_append_right (by omega), hlen, Nat.add_sub_cancel_left]

theorem overwrite_outside (h : off ≤ old.length) (hp : p < off ∨ off + new.length ≤ p) :
  (overwrite old off new)[p]? = old[p]?
  := by
  have hlen : (old.take off).length = off := List.length_take_of_le h
  rcases hp with hp | hp
  · rw [overwrite, List.append_assoc, List.getElem?_append_left (by omega), List.getElem?_take_of_lt hp]
  · rw [overwrite, List.getElem?_append_right (by rw [List.length_append, hlen]; exact hp),
      List.length_append, hlen, List.getElem?_drop, Nat.add_sub_cancel' hp]

variable {sb : Superblock} {s : Source} {src n i tot : ℕ} {o o' : Obs} {f f' : ℕ → Inode}

/-- A file keeps its contents with its size and its bytes. -/
theorem Files.contents_eq (hfiles : Files sb o f) {j : ℕ} (hj : sb.Live f j) (hsame : f' j = f j)
    (hbytes : ∀ p c, (f j).byte o.view p = some c → (f' j).byte o'.view p = some c) :
  (f' j).contents o'.view = (f j).contents o.view
  := by
  apply List.map_congr_left (g := fun p => ((f j).byte o.view p).getD 0) _ |>.trans
  · rw [hsame]
    rfl
  · intro p hp
    rw [hsame] at hp
    obtain ⟨c, hc⟩ := hfiles.filled j hj p (List.mem_range.mp hp)
    rw [hbytes p c hc, hc]

/-- The bytes that have been written are in the contents. -/
theorem Storing.contents {fault : Bool} (h : Storing sb i off (s.bytes src) o f tot fault o' f')
    (hfiles : Files sb o f) (hi : sb.Live f i) (hoff : off ≤ (f i).size)
    (hsize : (f' i).size = max (f i).size (off + tot)) {p : ℕ}
    (hp : fault = true → p / BSIZE ≠ (off + tot) / BSIZE) :
  ((f' i).contents o'.view)[p]?
    = (overwrite ((f i).contents o.view) off ((List.range tot).map (s.bytes src)))[p]?
  := by
  have hold : off ≤ ((f i).contents o.view).length := by
    rw [Inode.length_contents]
    exact hoff
  have hnew : ((List.range tot).map (s.bytes src)).length = tot := by
    rw [List.length_map, List.length_range]
  by_cases hlt : p < (f' i).size
  · by_cases hin : off ≤ p ∧ p < off + tot
    · obtain ⟨k, rfl⟩ := Nat.exists_eq_add_of_le hin.1
      have hk : k < tot := Nat.lt_of_add_lt_add_left hin.2
      rw [Inode.contents_getElem hlt (h.inside k hk), overwrite_inside hold (hnew.symm ▸ hk),
        List.getElem?_map, List.getElem?_range hk, Option.map_some]
    · have hout : p < off ∨ off + tot ≤ p := by omega
      have hp' : p < (f i).size := by omega
      obtain ⟨c, hc⟩ := hfiles.filled i hi p hp'
      rw [Inode.contents_getElem hlt (h.outside p c hout hp hc),
        overwrite_outside hold (by rw [hnew]; exact hout), Inode.contents_getElem hp' hc]
  · rw [List.getElem?_eq_none, List.getElem?_eq_none]
    · rw [length_overwrite hold, hnew, Inode.length_contents]
      omega
    · rw [Inode.length_contents]
      omega

theorem Storing.filled (h : Storing sb i off (s.bytes src) o f tot false o' f')
    (hfiles : Files sb o f) (hi : sb.Live f i) (hoff : off ≤ (f i).size)
    (hsize : (f' i).size = max (f i).size (off + tot)) {p : ℕ} (hp : p < (f' i).size) :
  ∃ c, (f' i).byte o'.view p = some c
  := by
  by_cases hin : off ≤ p ∧ p < off + tot
  · obtain ⟨k, rfl⟩ := Nat.exists_eq_add_of_le hin.1
    exact ⟨_, h.inside k (Nat.lt_of_add_lt_add_left hin.2)⟩
  · obtain ⟨c, hc⟩ := hfiles.filled i hi p (by omega)
    exact ⟨c, h.outside p c (by omega) (fun hfault => by cases hfault) hc⟩

/-- A source that can be read does not stop the loop. -/
theorem readable_piece (h : s.readable src n = n) (htot : tot ≤ n) :
  s.readable (src + tot) (pieceLength off n tot) = pieceLength off n tot
  := by
  have hle : pieceLength off n tot ≤ n - tot := pieceLength_le
  apply Source.readable_eq_iff.mpr
  intro k hk
  rw [Nat.add_assoc]
  exact Source.readable_eq_iff.mp h _ (by omega)

end Contents

/-- `writei` has written `tot` of the `n` bytes: all of them, or a number of whole chunks. -/
structure Overwritten (sb : Superblock) (s : Source) (src i off n : ℕ) (o : Obs) (f : ℕ → Inode) (tot : ℕ)
    (o' : Obs) (f' : ℕ → Inode) : Prop where
  written : Written sb i o f o' f'
  size : (f' i).size = max (f i).size (off + tot)
  other : ∀ j, j ≠ i → f' j = f j ∧ (sb.Live f j → (f' j).contents o'.view = (f j).contents o.view)
  le : tot ≤ n
  chunks : tot < n → tot = 0 ∨ (off + tot) % BSIZE = 0
  all : sb.Enough o.view f i off n → s.readable src n = n → tot = n
  contents : s.readable (src + tot) (pieceLength off n tot) = pieceLength off n tot → Files sb o' f'
    ∧ (f' i).contents o'.view = overwrite ((f i).contents o.view) off ((List.range tot).map (s.bytes src))
  block : ∀ p, p / BSIZE ≠ (off + tot) / BSIZE → ((f' i).contents o'.view)[p]?
    = (overwrite ((f i).contents o.view) off ((List.range tot).map (s.bytes src)))[p]?

section Calls

variable {sb : Superblock} {s : Source} {src off n i : ℕ} {m : Machine} {f : ℕ → Inode}

theorem wp_writei_overwritten (hfiles : Files sb m.obs f) (hi : sb.Live f i) (hoff : off ≤ (f i).size)
    (hmax : off + n ≤ MAXFILE * BSIZE) :
  wp (writei sb (f i) s src off n) (fun r m' => ∃ tot : ℕ, r.1 = tot
    ∧ Overwritten sb s src i off n m.obs f tot m'.obs (update f i r.2)) LogFault m
  := by
  have hn : n < 2 ^ 32 := by
    simp only [MAXFILE, NDIRECT, NINDIRECT, BSIZE] at hmax
    omega
  have hwritten : wp (writei sb (f i) s src off n) (fun r m' => r.1 ≠ -1 →
      Written sb i m.obs f m'.obs (update f i r.2)) LogFault m := by
    apply wp_writei LogFault.tolerates rfl hfiles.consistent hi hn
    · intro _ _ hr
      exact absurd rfl hr
    · intro r f' m' hw _
      rwa [← update_eq_of_other hw.other, update_eq_self]
  have hstoring : wp (writei sb (f i) s src off n) (fun r m' => ∃ tot fault, r.1 = (tot : ℕ) ∧ tot ≤ n
      ∧ (tot < n → tot = 0 ∨ (off + tot) % BSIZE = 0)
      ∧ Storing sb i off (s.bytes src) m.obs f tot fault m'.obs (update f i r.2)
      ∧ r.2.size = max (f i).size (off + tot) ∧ Ended sb s src i off n m.obs f tot fault) LogFault m := by
    apply wp_writei_storing LogFault.tolerates rfl hfiles hi hoff hmax
    intro tot fault ip m' htot hwhole hst hsize hended
    exact ⟨tot, fault, rfl, htot, hwhole, hst, hsize, hended⟩
  apply wp_mono (wp_and hwritten hstoring) _ (fun _ _ he => he)
  rintro ⟨_, ip⟩ m' ⟨hw, tot, fault, rfl, htot, hwhole, hst, hsize, hended⟩
  have hself : update f i ip i = ip := update_self ..
  have hsize' : (update f i ip i).size = max (f i).size (off + tot) := by
    rw [hself]
    exact hsize
  refine ⟨tot, rfl, hw (by omega), hsize', ?_, htot, hwhole, ?_, ?_, ?_⟩
  · intro j hj
    refine ⟨hst.aside.other j hj, fun hlive => ?_⟩
    exact hfiles.contents_eq hlive (hst.aside.other j hj) (hst.aside.bytes j hj hlive)
  · intro hfits hread
    cases hended with
    | done => rfl
    | full hfew => exact absurd hfits hfew
    | fault hless =>
      rw [readable_piece hread htot] at hless
      exact absurd hless (Nat.lt_irrefl _)
  · intro hread
    obtain rfl : fault = false := by
      cases hended with
      | done => rfl
      | full _ => rfl
      | fault hless =>
        rw [hread] at hless
        exact absurd hless (Nat.lt_irrefl _)
    refine ⟨hst.aside.files hfiles hst.fileSound (fun p hp => hst.filled hfiles hi hoff hsize' hp), ?_⟩
    apply List.ext_getElem?
    intro p
    exact hst.contents hfiles hi hoff hsize' (fun hfault => by cases hfault)
  · intro p hp
    exact hst.contents hfiles hi hoff hsize' (fun _ => hp)

/-! ### Reading -/

/-- A block that the file has is found without a change. -/
theorem wp_bmap_hit {bn : ℕ} {o : Obs} {Q : ℕ × Inode → Machine → Prop} {C : Fault → Machine → Prop}
    (hbn : bn < MAXFILE) (hm : m.obs = o) (hcons : Consistent sb o f) (hi : sb.Live f i)
    (hne : sb.cell o.view f (blockCell i bn) ≠ 0)
    (h : ∀ m', m'.obs = o → Q (sb.cell o.view f (blockCell i bn), f i) m') :
  wp (bmap sb (f i) bn) Q C m
  := by
  apply wp_bmap (fun h0 => absurd h0 hne) (Or.inl hbn) hm hcons hi
  intro _ addr f' m' hmapped
  obtain ⟨-, hobs, rfl⟩ := hmapped.fresh.resolve_right (fun hzero => hne hzero.1)
  have hcell := hmapped.cell
  rw [hobs] at hcell
  exact hcell ▸ h m' hobs

variable {dst : ℕ → ℕ → Bool} {o : Obs}

/-- The bytes of a block are a part of the contents. -/
theorem contents_piece (hi : sb.Live f i) {p k : ℕ} (hend : p + k ≤ (f i).size)
    (hk : k ≤ BSIZE - p % BSIZE) (hbn : p / BSIZE < MAXFILE)
    (hne : sb.cell o.view f (blockCell i (p / BSIZE)) ≠ 0) :
  (List.range k).map
      (fun j => (o.view (sb.cell o.view f (blockCell i (p / BSIZE)))).byteAt (p % BSIZE + j))
    = (((f i).contents o.view).drop p).take k
  := by
  apply List.ext_getElem?
  intro j
  by_cases hj : j < k
  · have hdiv : (p + j) / BSIZE = p / BSIZE := by
      simp only [BSIZE] at *
      omega
    have hmod : (p + j) % BSIZE = p % BSIZE + j := by
      simp only [BSIZE] at *
      omega
    have hbyte := byte_of_cell (p := p + j) hi (hdiv ▸ hbn) (by rw [hdiv]) hne
    rw [List.getElem?_map, List.getElem?_range hj, List.getElem?_take_of_lt hj, List.getElem?_drop,
      Inode.contents_getElem (by omega) hbyte, hmod, Option.map_some]
  · rw [List.getElem?_eq_none, List.getElem?_eq_none]
    · rw [List.length_take]
      omega
    · rw [List.length_map, List.length_range]
      omega

/-- What `readi` returns and has copied, if it is to copy the bytes of a list: all of them, or
those before the copy that fails. -/
inductive CopiedTo (dst : ℕ → ℕ → Bool) (l : List UInt8) : ℤ → List UInt8 → Prop where
  | done : CopiedTo dst l l.length l
  | fault (tot k : ℕ) (hfault : dst tot k = false) : CopiedTo dst l (-1) (l.take tot)

theorem wp_readiLoop_contents (hs : FileSound sb o f i)
    (hfilled : ∀ p < (f i).size, ∃ c, (f i).byte o.view p = some c) (hend : off + n ≤ (f i).size)
    {l : List UInt8} (hl : ((f i).contents o.view).drop off = l) {fuel tot : ℕ}
    (hfuel : n - tot ≤ fuel) (htot : tot ≤ n) (hm : m.obs = o) :
  wp (readiLoop sb dst off n fuel tot (l.take tot) (f i))
    (fun r m' => CopiedTo dst (l.take n) r.1 r.2.1 ∧ r.2.2 = f i ∧ m'.obs = o)
    (fun _ _ => False) m
  := by
  have hlen : (l.take n).length = n := by
    rw [List.length_take, ← hl, List.length_drop, Inode.length_contents]
    omega
  have hdone : CopiedTo dst (l.take n) (n : ℤ) (l.take n) := by
    have h : CopiedTo dst (l.take n) _ _ := .done
    rwa [hlen] at h
  induction fuel generalizing tot m with
  | zero =>
    obtain rfl : tot = n := by omega
    exact ⟨hdone, rfl, hm⟩
  | succ fuel ih =>
    unfold readiLoop
    by_cases hlt : tot < n
    · obtain ⟨c, hc⟩ := hfilled (off + tot) (by omega)
      obtain ⟨hbn, hne, -⟩ := cell_of_byte hs.live hc
      rw [if_pos hlt, wp_bind]
      apply wp_bmap_hit hbn hm hs.consistent hs.live hne
      intro m₁ h₁
      dsimp only
      rw [if_neg hne, wp_bind]
      apply wp_bread_hold h₁
      intro m₂ h₂
      rw [wp_bind]
      apply wp_brelse_hold h₂ (hs.legible _ hbn hne)
      intro m₃ h₃
      have hpos := pieceLength_pos off hlt
      have hle : pieceLength off n tot ≤ n - tot := pieceLength_le
      have hblock : pieceLength off n tot ≤ BSIZE - (off + tot) % BSIZE := Nat.min_le_right _ _
      split_ifs with hdst
      · have hfault := CopiedTo.fault (l := l.take n) tot _ hdst
        rw [List.take_take, Nat.min_eq_left htot] at hfault
        exact ⟨hfault, rfl, h₃⟩
      · rw [contents_piece hs.live (by omega) hblock hbn hne, ← List.drop_drop, hl, ← List.take_add]
        exact ih (by omega) (by omega) h₃
    · obtain rfl : tot = n := by omega
      rw [if_neg hlt]
      exact ⟨hdone, rfl, hm⟩

/-- The part of the contents that `readi` is to copy. -/
def Inode.readPart (ip : Inode) (view : ℕ → Block) (off n : ℕ) : List UInt8 :=
  if ip.size < off ∨ (off + n) % 2 ^ 32 < off then [] else ((ip.contents view).drop off).take n

/-- `readi` copies a part of the contents and changes nothing. -/
theorem wp_readi_copied (hfiles : Files sb o f) (hi : sb.Live f i) (hm : m.obs = o) :
  wp (readi sb (f i) dst off n) (fun r m' =>
      CopiedTo dst ((f i).readPart o.view off n) r.1 r.2.1 ∧ r.2.2 = f i ∧ m'.obs = o)
    (fun _ _ => False) m
  := by
  have hlen : (((f i).contents o.view).drop off).length = (f i).size - off := by
    rw [List.length_drop, Inode.length_contents]
  unfold readi Inode.readPart
  split_ifs with hrange hend
  · exact ⟨.done, rfl, hm⟩
  · rw [List.take_of_length_le (by omega), ← List.take_of_length_le (Nat.le_of_eq hlen)]
    exact wp_readiLoop_contents (hfiles.fileSound hi) (hfiles.filled i hi) (by omega) rfl (Nat.le_refl _)
      (Nat.zero_le _) hm
  · exact wp_readiLoop_contents (hfiles.fileSound hi) (hfiles.filled i hi) (Nat.le_of_not_lt hend) rfl
      (Nat.le_refl _) (Nat.zero_le _) hm

/-- `readi` returns a part of the contents and changes nothing. -/
theorem wp_readi_contents (hfiles : Files sb o f) (hi : sb.Live f i) (hwrap : off + n < 2 ^ 32)
    (hdst : ∀ a k, dst a k = true) (hm : m.obs = o) :
  wp (readi sb (f i) dst off n) (fun r m' =>
      r = (((((((f i).contents o.view).drop off).take n).length : ℕ) : ℤ), (((f i).contents o.view).drop off).take n, f i)
        ∧ m'.obs = o) (fun _ _ => False) m
  := by
  have hpart : (f i).readPart o.view off n = (((f i).contents o.view).drop off).take n := by
    unfold Inode.readPart
    split_ifs with hrange
    · rw [List.drop_eq_nil_of_le, List.take_nil]
      rw [Inode.length_contents]
      omega
    · rfl
  have hcopied : wp (readi sb (f i) dst off n) _ _ m := wp_readi_copied hfiles hi hm
  rw [hpart] at hcopied
  apply wp_mono hcopied _ (fun _ _ h => h)
  rintro ⟨r, bs, ip⟩ m' ⟨hread, rfl, hm'⟩
  refine ⟨?_, hm'⟩
  cases hread with
  | done => rfl
  | fault tot k hfault =>
    rw [hdst] at hfault
    cases hfault

/-! ### The calls -/

/-- The number of blocks that the positions from `off` to `off + n` meet. -/
def rangeBlocks (off n : ℕ) : ℕ := (off + n + (BSIZE - 1)) / BSIZE - off / BSIZE

/-- In a transaction `writei` stops only where there is no room for its blocks in the log. -/
theorem wp_writei_transaction {Q : ℤ × Inode → Machine → Prop}
    (h : wp (writei sb (f i) s src off n) Q LogFault m) (hout : 1 ≤ m.outstanding) :
  wp (writei sb (f i) s src off n) Q (fun e _ => e = .panic "too big a transaction"
    ∧ LOGBLOCKS ≤ m.lh.length + (2 * rangeBlocks off n + 3)) m
  := by
  rw [writei_eq] at h ⊢
  have hcalls : wpc logTracker logWrite (fun log => writeiWith log sb (f i) s src off n)
      (fun S _ _ => S.card ≤ 2 * rangeBlocks off n + 3) (fun S _ _ => S.card ≤ 2 * rangeBlocks off n + 3) m := by
    apply wpc_writei_of_loop
    intro _ _
    apply wpc_writeiLoop
    simp only [rangeBlocks, BSIZE, Nat.add_zero]
    omega
  exact wp_of_transaction hcalls h hout

end Calls

/-- The files are there when the system has booted from a clean image, also in a transaction. -/
theorem CleanImage.files {sb : Superblock} {start limit outstanding : ℕ} {disk : ℕ → Block}
    {recycle : ℕ → Bool} (h : CleanImage sb start disk)
    (hsize : ∀ i, sb.Live (sb.inode disk) i → (sb.inode disk i).size ≤ MAXFILE * BSIZE) :
  Files sb ({ Machine.boot disk start limit recycle with outstanding } : Machine).obs (sb.inode disk)
  := by
  obtain ⟨hlayout, howned, hwf, ⟨hpin, hsettled, hrange, hnodup⟩, hlen⟩ := (h.sound limit recycle).consistent
  refine ⟨⟨hlayout, howned, hwf, ⟨hpin, hsettled, hrange, hnodup⟩, hlen⟩, fun _ _ _ _ _ => Or.inr rfl, ?_⟩
  intro j hj p hp
  have hbn : p / BSIZE < MAXFILE := by
    have := hsize j hj
    simp only [BSIZE] at *
    omega
  have hne := h.noHole j hj (p / BSIZE) hbn (Nat.lt_of_le_of_lt (Nat.div_mul_le_self p BSIZE) hp)
  exact ⟨_, byte_of_cell hj hbn rfl hne⟩

theorem small_files : Files smallSb smallMachine.obs (smallSb.inode smallDisk) := by
  have hsize : ∀ i, smallSb.Live (smallSb.inode smallDisk) i →
      (smallSb.inode smallDisk i).size ≤ MAXFILE * BSIZE := by
    intro i hi
    rw [small_live.mp hi, small_inode_one]
    decide
  exact small_clean.files hsize

/-- The machine with the wide disk, in a transaction. -/
def wideMachine : Machine := { Machine.boot wideDisk 2 100 (fun _ => true) with outstanding := 1 }

/-- Whether a call has panicked with a message. -/
def panicsWith {α : Type} (msg : String) : EStateM.Result Fault Machine α → Bool
  | .error (.panic e) _ => e = msg
  | _ => false

theorem wide_files : Files wideSb wideMachine.obs (wideSb.inode wideDisk) := by
  have hsize : ∀ i, wideSb.Live (wideSb.inode wideDisk) i →
      (wideSb.inode wideDisk i).size ≤ MAXFILE * BSIZE := by
    intro i hi
    rw [wide_live.mp hi, wide_inode_one]
    decide
  exact wide_clean.files hsize

end Xv6
