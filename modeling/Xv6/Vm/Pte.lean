import Mathlib.Data.Finset.Card
import Mathlib.Tactic
import Xv6.Param

/-!
# Pages, addresses and page-table entries

Physical memory is made of pages of 512 words; a page is named by the physical address of
its first byte.  A page-table entry holds the address of a page and ten bits of flags, and
a virtual address below `MAXVA` is made of three indices of nine bits each and an offset.
The pages that `kalloc` hands out lie between the end of the kernel and `PHYSTOP`.
-/

namespace Xv6

/-- A word of memory. -/
abbrev Word : Type := BitVec 64

/-- The contents of a page. -/
abbrev PageData : Type := Fin 512 → Word

/-- Where the kernel expects RAM to begin. -/
abbrev KERNBASE : ℕ := 0x80000000

/-- Where the RAM used by the kernel ends. -/
abbrev PHYSTOP : ℕ := KERNBASE + 128 * 1024 * 1024

/-- The highest page, which holds the trampoline. -/
abbrev TRAMPOLINE : ℕ := MAXVA - PGSIZE

/-- The page below it, which holds the trapframe. -/
abbrev TRAPFRAME : ℕ := TRAMPOLINE - PGSIZE

def PGROUNDUP (sz : ℕ) : ℕ := (sz + PGSIZE - 1) / PGSIZE * PGSIZE

def PGROUNDDOWN (a : ℕ) : ℕ := a / PGSIZE * PGSIZE

/-- Where the linker has put the end of the kernel and the code of the trampoline. -/
structure Link where
  kend : ℕ
  trampoline : ℕ
  kernbase_le : KERNBASE ≤ kend
  kend_le : kend ≤ PHYSTOP
  trampoline_aligned : trampoline % PGSIZE = 0
  trampoline_lt : trampoline < kend

/-- The pages the kernel can allocate. -/
def Link.pool (L : Link) : Finset ℕ :=
  {p ∈ Finset.range PHYSTOP | p % PGSIZE = 0 ∧ L.kend ≤ p}

theorem Link.mem_pool {L : Link} {p : ℕ} :
  p ∈ L.pool ↔ p % PGSIZE = 0 ∧ L.kend ≤ p ∧ p < PHYSTOP
  := by
  simp only [pool, Finset.mem_filter, Finset.mem_range]
  tauto

/-! ### Entries -/

abbrev PTE_V : Word := 1#64
abbrev PTE_R : Word := 2#64
abbrev PTE_W : Word := 4#64
abbrev PTE_X : Word := 8#64
abbrev PTE_U : Word := 16#64

def PA2PTE (pa : ℕ) : Word := (BitVec.ofNat 64 pa >>> 12) <<< 10

def PTE2PA (pte : Word) : ℕ := ((pte >>> 10) <<< 12).toNat

def PTE_FLAGS (pte : Word) : Word := pte &&& 0x3FF#64

/-- Flags fit into the ten bits that an entry has for them. -/
def IsFlags (w : Word) : Prop := w.toNat < 2 ^ 10

theorem getLsbD_of_isFlags {w : Word} (hw : IsFlags w) {i : ℕ} (hi : 10 ≤ i) :
  w.getLsbD i = false
  := by
  apply Nat.testBit_lt_two_pow
  exact lt_of_lt_of_le hw (Nat.pow_le_pow_right (by decide) hi)

theorem getLsbD_PA2PTE (pa : ℕ) {i : ℕ} (hi : i < 10) : (PA2PTE pa).getLsbD i = false := by
  simp [PA2PTE, hi]

theorem IsFlags.or {v w : Word} (hv : IsFlags v) (hw : IsFlags w) : IsFlags (v ||| w) := by
  unfold IsFlags
  rw [BitVec.toNat_or]
  exact Nat.or_lt_two_pow hv hw

theorem testBit_of_aligned {pa i : ℕ} (hpa : pa % PGSIZE = 0) (hi : i < 12) :
  pa.testBit i = false
  := by
  obtain ⟨k, rfl⟩ := Nat.dvd_of_mod_eq_zero hpa
  have hsize : PGSIZE = 2 ^ 12 := rfl
  rw [hsize, Nat.testBit_two_pow_mul]
  simp only [Bool.and_eq_false_imp, decide_eq_true_eq]
  omega

/-- The address in an entry. -/
theorem PTE2PA_or {pa : ℕ} (hpa : pa % PGSIZE = 0) (hlt : pa < 2 ^ 64) {fl : Word} (hfl : IsFlags fl) :
  PTE2PA (PA2PTE pa ||| fl) = pa
  := by
  have hword : ((PA2PTE pa ||| fl) >>> 10) <<< 12 = BitVec.ofNat 64 pa := by
    apply BitVec.eq_of_getLsbD_eq
    intro i hi
    simp only [PA2PTE, BitVec.getLsbD_shiftLeft, BitVec.getLsbD_ushiftRight, BitVec.getLsbD_or,
      BitVec.getLsbD_ofNat]
    by_cases h12 : i < 12
    · simp [h12, testBit_of_aligned hpa h12]
    · have hi10 : 10 ≤ 10 + (i - 12) := Nat.le_add_right _ _
      have hi12 : 12 + (10 + (i - 12) - 10) = i := by omega
      have hi64 : 10 + (i - 12) < 64 := by omega
      rw [getLsbD_of_isFlags hfl hi10, hi12]
      simp [h12, hi, hi64]
  rw [PTE2PA, hword, BitVec.toNat_ofNat, Nat.mod_eq_of_lt hlt]

/-- Testing flags of an entry. -/
theorem PA2PTE_or_and {pa : ℕ} {fl mask : Word} (hmask : IsFlags mask) :
  (PA2PTE pa ||| fl) &&& mask = fl &&& mask
  := by
  apply BitVec.eq_of_getLsbD_eq
  intro i _
  rw [BitVec.getLsbD_and, BitVec.getLsbD_or, BitVec.getLsbD_and]
  by_cases hi : i < 10
  · rw [getLsbD_PA2PTE pa hi, Bool.false_or]
  · rw [getLsbD_of_isFlags hmask (Nat.le_of_not_lt hi), Bool.and_false, Bool.and_false]

theorem PTE_FLAGS_or {pa : ℕ} {fl : Word} (hfl : IsFlags fl) :
  PTE_FLAGS (PA2PTE pa ||| fl) = fl
  := by
  rw [PTE_FLAGS, PA2PTE_or_and (by unfold IsFlags; decide)]
  apply BitVec.eq_of_getLsbD_eq
  intro i hi
  rw [BitVec.getLsbD_and]
  by_cases h10 : i < 10
  · have hmask : (0x3FF#64).getLsbD i = true := by
      interval_cases i <;> rfl
    rw [hmask, Bool.and_true]
  · rw [getLsbD_of_isFlags hfl (Nat.le_of_not_lt h10), Bool.false_and]

/-! ### Indices -/

/-- The index into a page table of the given level. -/
def PX (level va : ℕ) : Fin 512 := ⟨va / 2 ^ (12 + 9 * level) % 512, Nat.mod_lt _ (by decide)⟩

/-- Two page addresses with the same indices are the same. -/
theorem page_of_PX {va va' : ℕ} (hva : va < 2 ^ 39) (hva' : va' < 2 ^ 39) (h2 : PX 2 va = PX 2 va')
    (h1 : PX 1 va = PX 1 va') (h0 : PX 0 va = PX 0 va') :
  va / PGSIZE = va' / PGSIZE
  := by
  simp only [PX, Fin.mk.injEq] at h2 h1 h0
  norm_num at h2 h1 h0 hva hva'
  unfold PGSIZE
  omega

/-- The indices of an address are those of its page. -/
theorem PX_congr (level : ℕ) {va va' : ℕ} (h : va / PGSIZE = va' / PGSIZE) :
  PX level va = PX level va'
  := by
  have hsplit : ∀ va, va / 2 ^ (12 + 9 * level) = va / PGSIZE / 2 ^ (9 * level) := by
    intro va
    rw [pow_add, Nat.div_div_eq_div_mul]
    rfl
  apply Fin.ext
  simp only [PX, hsplit, h]

end Xv6
