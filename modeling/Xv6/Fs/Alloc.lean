import Xv6.Fs.Layout
import Xv6.Log.Write

/-!
# Allocating and freeing blocks

The free map has a bit for every block of the disk.  `balloc` scans it for a clear bit, sets
the bit and zeroes the block; `bfree` clears the bit.
-/

namespace Xv6

open Machine Stop

/-- The bit of the free map for a block. -/
def Superblock.bit (sb : Superblock) (view : ℕ → Block) (b : ℕ) : Bool :=
  (view (sb.bblock b)).testBit (b % BPB)

/-- The first clear bit among the first `n` bits of a block of the free map. -/
def firstClear (data : Block) (n : ℕ) : Option ℕ :=
  (List.range n).find? (fun bi => data.testBit bi = false)

/-- `bzero`: zero a block. -/
def bzero (bno : ℕ) : Kernel Unit := do
  let _ ← bread bno
  fill bno (fun _ => 0)
  logWrite bno
  brelse bno

/-- The loop of `balloc` over the blocks of the free map, from the one with the bit for `b`. -/
def ballocFrom (sb : Superblock) : ℕ → ℕ → Kernel ℕ
  | 0, _ => return 0
  | fuel + 1, b => do
    if b < sb.size then
      let data ← bread (sb.bblock b)
      match firstClear data (min BPB (sb.size - b)) with
      | some bi =>
        fill (sb.bblock b) (data.setBit bi true)
        logWrite (sb.bblock b)
        brelse (sb.bblock b)
        bzero (b + bi)
        return b + bi
      | none =>
        brelse (sb.bblock b)
        ballocFrom sb fuel (b + BPB)
    else return 0

/-- `balloc`: allocate a zeroed disk block, `0` if out of disk space. -/
def balloc (sb : Superblock) : Kernel ℕ := ballocFrom sb (sb.size / BPB + 1) 0

/-- `bfree`: free a disk block. -/
def bfree (sb : Superblock) (b : ℕ) : Kernel Unit := do
  let data ← bread (sb.bblock b)
  if data.testBit (b % BPB) = false then panic "freeing free block"
  fill (sb.bblock b) (data.setBit (b % BPB) false)
  logWrite (sb.bblock b)
  brelse (sb.bblock b)

/-! ### What they do -/

/-- The bit for `b` is changed in the free map, whose block is logged. -/
def Obs.mark (sb : Superblock) (o : Obs) (b : ℕ) (v : Bool) : Obs :=
  o.log (sb.bblock b) ((o.view (sb.bblock b)).setBit (b % BPB) v)

/-- The block `b` is allocated. -/
def Obs.alloc (sb : Superblock) (o : Obs) (b : ℕ) : Obs := (o.mark sb b true).log b (fun _ => 0)

theorem firstClear_spec {data : Block} {n bi : ℕ} (h : firstClear data n = some bi) :
  bi < n ∧ data.testBit bi = false
  := by
  have hmem := List.mem_of_find?_eq_some h
  have hbit := List.find?_some h
  exact ⟨List.mem_range.mp hmem, of_decide_eq_true hbit⟩

theorem firstClear_none {data : Block} {n : ℕ} (h : firstClear data n = none) {bi : ℕ} (hbi : bi < n) :
  data.testBit bi = true
  := by
  have hnot := List.find?_eq_none.mp h bi (List.mem_range.mpr hbi)
  rwa [decide_eq_true_eq, Bool.not_eq_false] at hnot

section Rules

variable {sb : Superblock} {m : Machine} {o : Obs} {C : Fault → Machine → Prop}
  {Q : Unit → Machine → Prop} {b : ℕ}

theorem wp_bzero (hC : Tolerates C) (hm : m.obs = o) (hp : o.Pinned)
    (h : ∀ m', m'.obs = o.log b (fun _ => 0) → m'.obs.lh.length ≤ LOGBLOCKS → Q () m') :
  wp (bzero b) Q C m
  := by
  simp only [bzero, wp_bind]
  apply wp_bread_hold hm
  intro m₁ h₁
  apply wp_log_block hC h₁ hp h

theorem wp_ballocFrom {fuel b : ℕ} {Q : ℕ → Machine → Prop}
    (hC : Tolerates C) (hm : m.obs = o) (hp : o.Pinned) (hs : ∀ b < sb.size, o.Settled (sb.bblock b))
    (hb : b % BPB = 0) (hfuel : sb.size ≤ b + fuel * BPB) (hset : ∀ c < b, c < sb.size → sb.bit o.view c = true)
    (hfull : ∀ m', m'.obs = o → (∀ c < sb.size, sb.bit o.view c = true) → Q 0 m')
    (halloc : ∀ r m', r < sb.size → sb.bit o.view r = false → m'.obs = o.alloc sb r →
      m'.obs.lh.length ≤ LOGBLOCKS → Q r m') :
  wp (ballocFrom sb fuel b) Q C m
  := by
  induction fuel generalizing m b with
  | zero =>
    apply hfull m hm
    intro c hc
    exact hset c (by omega) hc
  | succ fuel ih =>
    rw [ballocFrom]
    split_ifs with hlt
    · rw [wp_bind]
      apply wp_bread_hold hm
      intro m₁ h₁
      split
      next bi hfind =>
        obtain ⟨hbi, hclear⟩ := firstClear_spec hfind
        have hbi' : bi < BPB := Nat.lt_of_lt_of_le hbi (Nat.min_le_left _ _)
        obtain ⟨hdiv, hmod⟩ := sb.bblock_add hb hbi'
        simp only [wp_bind, wp_pure]
        apply wp_log_block hC h₁ hp
        intro m₂ h₂ _
        apply wp_bzero hC h₂ hp.log
        intro m₃ h₃ hlen
        apply halloc (b + bi) m₃ _ _ _ hlen
        · omega
        · rw [Superblock.bit, hdiv, hmod]
          exact hclear
        · rw [h₃, Obs.alloc, Obs.mark, hdiv, hmod]
      next hnone =>
        rw [wp_bind]
        apply wp_brelse_hold h₁ (hs b hlt)
        intro m₂ h₂
        apply ih h₂
        · rw [Nat.add_mod_right, hb]
        · rw [Nat.succ_mul] at hfuel
          omega
        · intro c hc hsize
          rcases Nat.lt_or_ge c b with hold | hnew
          · exact hset c hold hsize
          · obtain ⟨bi, rfl⟩ := Nat.exists_eq_add_of_le hnew
            have hbi : bi < BPB := Nat.lt_of_add_lt_add_left hc
            obtain ⟨hdiv, hmod⟩ := sb.bblock_add hb hbi
            rw [Superblock.bit, hdiv, hmod]
            exact firstClear_none hnone (by omega)
    · apply hfull m hm
      intro c hc
      exact hset c (by omega) hc

/-- `balloc` returns `0` and changes nothing if there is no block left, or it allocates a block whose bit was clear. -/
theorem wp_balloc {Q : ℕ → Machine → Prop}
    (hC : Tolerates C) (hm : m.obs = o) (hp : o.Pinned) (hs : ∀ b < sb.size, o.Settled (sb.bblock b))
    (hfull : ∀ m', m'.obs = o → (∀ c < sb.size, sb.bit o.view c = true) → Q 0 m')
    (halloc : ∀ r m', r < sb.size → sb.bit o.view r = false → m'.obs = o.alloc sb r →
      m'.obs.lh.length ≤ LOGBLOCKS → Q r m') :
  wp (balloc sb) Q C m
  := by
  have hfuel : sb.size ≤ 0 + (sb.size / BPB + 1) * BPB := by
    simp only [BPB, BSIZE]
    omega
  exact wp_ballocFrom hC hm hp hs (Nat.zero_mod _) hfuel (fun c hc _ => absurd hc (Nat.not_lt_zero c))
    hfull halloc

/-- `bfree` does not panic if the bit is set, and clears it. -/
theorem wp_bfree (hC : Tolerates C) (hm : m.obs = o) (hp : o.Pinned) (hbit : sb.bit o.view b = true)
    (h : ∀ m', m'.obs = o.mark sb b false → m'.obs.lh.length ≤ LOGBLOCKS → Q () m') :
  wp (bfree sb b) Q C m
  := by
  simp only [bfree, wp_bind]
  apply wp_bread_hold hm
  intro m₁ h₁
  have hset : ¬ (o.view (sb.bblock b)).testBit (b % BPB) = false := by
    rw [Bool.not_eq_false]
    exact hbit
  rw [if_neg hset]
  simp only [wp_bind]
  apply wp_log_block hC h₁ hp h

end Rules

end Xv6
