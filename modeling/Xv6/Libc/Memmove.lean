import Mathlib.Tactic

/-!
# `memmove`

The kernel and the user library both have a `memmove` that copies bytes forwards or backwards.
Each direction is right unless it overwrites bytes that it has yet to read.  The two functions
choose the direction by different tests, and neither chooses the wrong one.
-/

namespace Xv6

open Function

/-- The memory has a byte at each address. -/
abbrev Memory := BitVec 64 → UInt8

/-- The loop `while(n-- > 0) *d++ = *s++`. -/
def copyForward : ℕ → BitVec 64 → BitVec 64 → Memory → Memory
  | 0, _, _, m => m
  | n + 1, d, s, m => copyForward n (d + 1) (s + 1) (update m d (m s))

/-- The loop `while(n-- > 0) *--d = *--s`. -/
def copyBackward : ℕ → BitVec 64 → BitVec 64 → Memory → Memory
  | 0, _, _, m => m
  | n + 1, d, s, m => copyBackward n (d - 1) (s - 1) (update m (d - 1) (m (s - 1)))

/-- `memmove` of the kernel, where `n` is unsigned. -/
def Kernel.memmove (dst src : BitVec 64) (n : BitVec 32) (m : Memory) : BitVec 64 × Memory :=
  if n = 0 then (dst, m)
  else if src < dst ∧ src + n.setWidth 64 > dst then
    (dst, copyBackward n.toNat (dst + n.setWidth 64) (src + n.setWidth 64) m)
  else (dst, copyForward n.toNat dst src m)

/-- `memmove` of the user library, where `n` is signed. -/
def Ulib.memmove (vdst vsrc : BitVec 64) (n : BitVec 32) (m : Memory) : BitVec 64 × Memory :=
  if vsrc > vdst then (vdst, copyForward n.toInt.toNat vdst vsrc m)
  else (vdst, copyBackward n.toInt.toNat (vdst + n.signExtend 64) (vsrc + n.signExtend 64) m)

/-- The `n` bytes from `dst` on are those that were at `src`, and the others are as before. -/
def Moved (dst src : BitVec 64) (n : ℕ) (m m' : Memory) : Prop :=
  ∀ a, m' a = if dst.toNat ≤ a.toNat ∧ a.toNat < dst.toNat + n then m (src + (a - dst)) else m a

section Loops

variable {d s : BitVec 64} {n : ℕ}

/-- The loop does not come to read a byte it has written: the destination is not inside the
source. -/
theorem copyForward_eq (m : Memory) (hn : n < 2 ^ 64) (h : d = s ∨ n ≤ (d - s).toNat) (a : BitVec 64) :
  copyForward n d s m a = if (a - d).toNat < n then m (s + (a - d)) else m a
  := by
  induction n generalizing d s m with
  | zero => rfl
  | succ n ih =>
    obtain ⟨x, rfl⟩ : ∃ x, a = d + x := ⟨a - d, by bv_omega⟩
    have hshift : d + 1 = s + 1 ∨ n ≤ (d + 1 - (s + 1)).toNat := by bv_omega
    have hx : d + x - d = x := by bv_omega
    have hx' : s + 1 + (d + x - (d + 1)) = s + x := by bv_omega
    rw [copyForward, ih _ (by omega) hshift, hx, hx']
    by_cases hzero : x = 0
    · -- the first byte is written in this round and not again
      subst hzero
      have hout : ¬ (d + 0 - (d + 1)).toNat < n := by bv_omega
      rw [if_neg hout, if_pos (by simp)]
      simp
    · have hiff : (d + x - (d + 1)).toNat < n ↔ x.toNat < n + 1 := by bv_omega
      have hne : d + x ≠ d := by bv_omega
      simp only [hiff]
      split_ifs with hin
      · rw [update_of_ne]
        bv_omega
      · rw [update_of_ne hne]

/-- Backwards the source is not inside the destination. -/
theorem copyBackward_eq (m : Memory) (hn : n < 2 ^ 64) (h : s = d ∨ n ≤ (s - d).toNat) (a : BitVec 64) :
  copyBackward n (d + BitVec.ofNat 64 n) (s + BitVec.ofNat 64 n) m a
    = if (a - d).toNat < n then m (s + (a - d)) else m a
  := by
  induction n generalizing m with
  | zero => rfl
  | succ n ih =>
    have hpred : ∀ p : BitVec 64, p + BitVec.ofNat 64 (n + 1) - 1 = p + BitVec.ofNat 64 n := by
      intro p
      bv_omega
    rw [copyBackward, hpred, hpred, ih _ (by omega) (h.imp_right Nat.le_of_lt)]
    obtain ⟨x, rfl⟩ : ∃ x, a = d + x := ⟨a - d, by bv_omega⟩
    have hx : d + x - d = x := by bv_omega
    rw [hx]
    by_cases hlast : x.toNat = n
    · obtain rfl : x = BitVec.ofNat 64 n := by bv_omega
      rw [if_neg (by omega), if_pos (by omega), update_self]
    · have hne : d + x ≠ d + BitVec.ofNat 64 n := by bv_omega
      have hiff : x.toNat < n + 1 ↔ x.toNat < n := by omega
      simp only [hiff]
      split_ifs with hin
      · rw [update_of_ne]
        bv_omega
      · rw [update_of_ne hne]

end Loops

section Move

variable {dst src : BitVec 64} {k : ℕ} {m m' : Memory}

/-- While the range does not wrap, it is what lies less than `k` bytes behind `dst`. -/
theorem Moved.of_eq (hdst : dst.toNat + k ≤ 2 ^ 64)
    (h : ∀ a, m' a = if (a - dst).toNat < k then m (src + (a - dst)) else m a) :
  Moved dst src k m m'
  := by
  intro a
  have hiff : (a - dst).toNat < k ↔ dst.toNat ≤ a.toNat ∧ a.toNat < dst.toNat + k := by bv_omega
  rw [h a]
  simp only [hiff]

theorem Moved.unique {m₁ m₂ : Memory} (h₁ : Moved dst src k m m₁) (h₂ : Moved dst src k m m₂) : m₁ = m₂ := by
  funext a
  rw [h₁ a, h₂ a]

theorem copyForward_moved (hdst : dst.toNat + k ≤ 2 ^ 64) (hk : k < 2 ^ 64)
    (h : dst.toNat ≤ src.toNat ∨ src.toNat + k ≤ dst.toNat) (hsrc : src.toNat + k ≤ 2 ^ 64) :
  Moved dst src k m (copyForward k dst src m)
  := Moved.of_eq hdst (copyForward_eq m hk (by bv_omega))

theorem copyBackward_moved (hdst : dst.toNat + k ≤ 2 ^ 64) (hk : k < 2 ^ 64) (h : src.toNat ≤ dst.toNat) :
  Moved dst src k m (copyBackward k (dst + BitVec.ofNat 64 k) (src + BitVec.ofNat 64 k) m)
  := Moved.of_eq hdst (copyBackward_eq m hk (by bv_omega))

variable {n : BitVec 32}

theorem Kernel.memmove_moved (hdst : dst.toNat + n.toNat ≤ 2 ^ 64) (hsrc : src.toNat + n.toNat ≤ 2 ^ 64) :
  Moved dst src n.toNat m (Kernel.memmove dst src n m).2
  := by
  have hn : n.toNat < 2 ^ 64 := by bv_omega
  have hwidth : n.setWidth 64 = BitVec.ofNat 64 n.toNat := (BitVec.ofNat_toNat 64 n).symm
  unfold Kernel.memmove
  rw [hwidth]
  split_ifs with hzero hover
  · subst hzero
    intro a
    rw [if_neg]
    bv_omega
  · exact copyBackward_moved hdst hn (Nat.le_of_lt hover.1)
  · apply copyForward_moved hdst hn _ hsrc
    bv_omega

theorem Ulib.memmove_moved (hn : 0 ≤ n.toInt) (hdst : dst.toNat + n.toNat ≤ 2 ^ 64)
    (hsrc : src.toNat + n.toNat ≤ 2 ^ 64) :
  Moved dst src n.toNat m (Ulib.memmove dst src n m).2
  := by
  have hmsb : n.msb = false := BitVec.msb_eq_false_iff_two_mul_lt.mpr (by
    rw [BitVec.toInt_eq_toNat_cond] at hn
    split_ifs at hn <;> bv_omega)
  have hlen : n.toInt.toNat = n.toNat := by rw [BitVec.toInt_eq_toNat_of_msb hmsb, Int.toNat_natCast]
  have hwidth : n.signExtend 64 = BitVec.ofNat 64 n.toNat := by
    rw [BitVec.signExtend_eq_setWidth_of_msb_false hmsb, BitVec.ofNat_toNat]
  have hlt : n.toNat < 2 ^ 64 := by bv_omega
  unfold Ulib.memmove
  rw [hlen, hwidth]
  split_ifs with hgt
  · exact copyForward_moved hdst hlt (Or.inl (Nat.le_of_lt hgt)) hsrc
  · exact copyBackward_moved hdst hlt (Nat.le_of_not_lt hgt)

end Move

/-- Where the ranges do not wrap, both functions move the bytes, whichever way the ranges
overlap, and so they agree. -/
theorem memmove_moves (m : Memory) (dst src : BitVec 64) (n : BitVec 32)
    (hdst : dst.toNat + n.toNat ≤ 2 ^ 64) (hsrc : src.toNat + n.toNat ≤ 2 ^ 64) :
  Moved dst src n.toNat m (Kernel.memmove dst src n m).2
    ∧ (0 ≤ n.toInt → Moved dst src n.toNat m (Ulib.memmove dst src n m).2
      ∧ (Ulib.memmove dst src n m).2 = (Kernel.memmove dst src n m).2)
  := by
  have hkernel : Moved dst src n.toNat m (Kernel.memmove dst src n m).2 :=
    Kernel.memmove_moved hdst hsrc
  refine ⟨hkernel, fun hn => ?_⟩
  have huser : Moved dst src n.toNat m (Ulib.memmove dst src n m).2 := Ulib.memmove_moved hn hdst hsrc
  exact ⟨huser, huser.unique hkernel⟩

/-- Three bytes are moved by one. -/
theorem memmove_moves_overlap :
  Moved 1 0 3 (fun a => UInt8.ofNat a.toNat) (Kernel.memmove 1 0 3 fun a => UInt8.ofNat a.toNat).2
    ∧ (Ulib.memmove 1 0 3 fun a => UInt8.ofNat a.toNat).2 3 = 2
  := by
  obtain ⟨hkernel, huser⟩ := memmove_moves (fun a => UInt8.ofNat a.toNat) 1 0 3 (by decide) (by decide)
  refine ⟨hkernel, ?_⟩
  rw [(huser (by decide)).1 3]
  decide

end Xv6
