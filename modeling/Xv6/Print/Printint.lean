import Mathlib.Tactic

/-!
# Printing integers

`printint` of the kernel and of the user library.  The digits go into a buffer of 20 characters,
the least significant one first, and are printed from the back.  There is room for every 64-bit
value, and what is printed is its numeral.
-/

namespace Xv6

/-- `digits` in the kernel's `printf.c`. -/
def Kernel.digits : List UInt8 := "0123456789abcdef".toList.map Char.toUInt8

/-- `digits` in the user's `printf.c`. -/
def Ulib.digits : List UInt8 := "0123456789ABCDEF".toList.map Char.toUInt8

/-- The loop of `printint`: the characters that it stores, if the rest of the buffer has room for
them. -/
def storeDigits (digits : List UInt8) (base : ℕ) : (room : ℕ) → ℕ → Option (List UInt8)
  | 0, _ => none
  | room + 1, x =>
    if x / base ≠ 0 then (storeDigits digits base room (x / base)).map (digits.getD (x % base) 0 :: ·)
    else some [digits.getD (x % base) 0]

/-- `printint` with a table of digits: what is printed, or `none` after a store outside `buf`. -/
def printintWith (digits : List UInt8) (xx : BitVec 64) (base : ℕ) (sign : Bool) : Option (List UInt8) := do
  let neg := sign && xx.toInt < 0
  let x := if neg then (-xx).toNat else xx.toNat
  let buf ← storeDigits digits base 20 x
  if neg then
    if buf.length < 20 then return ('-'.toUInt8 :: buf.reverse) else none
  else return buf.reverse

def Kernel.printint : BitVec 64 → ℕ → Bool → Option (List UInt8) := printintWith Kernel.digits

def Ulib.printint : BitVec 64 → ℕ → Bool → Option (List UInt8) := printintWith Ulib.digits

/-! ### The digits -/

/-- The digits of a number, the least significant one first. -/
def digitsOf (base x : ℕ) : List ℕ := if x = 0 then [0] else Nat.digits base x

/-- The argument of `printint` as a number. -/
def printed (xx : BitVec 64) (sign : Bool) : ℤ := if sign then xx.toInt else xx.toNat

section Digits

variable {base room x : ℕ}

theorem digitsOf_step (hbase : 2 ≤ base) (h : x / base ≠ 0) :
  digitsOf base x = x % base :: digitsOf base (x / base)
  := by
  have hx : x ≠ 0 := by
    rintro rfl
    exact h (Nat.zero_div base)
  rw [digitsOf, digitsOf, if_neg hx, if_neg h, Nat.digits_def' hbase (Nat.pos_of_ne_zero hx)]

theorem digitsOf_last (hbase : 2 ≤ base) (h : x / base = 0) : digitsOf base x = [x % base] := by
  have hlt : x < base := (Nat.div_eq_zero_iff.mp h).resolve_left (by omega)
  rw [Nat.mod_eq_of_lt hlt, digitsOf]
  split_ifs with hx
  · rw [hx]
  · exact Nat.digits_of_lt base x hx hlt

/-- There is room for as many digits as the number has. -/
theorem storeDigits_eq (digits : List UInt8) (hbase : 2 ≤ base) (hroom : 0 < room) (hx : x < base ^ room) :
  storeDigits digits base room x = some ((digitsOf base x).map (digits.getD · 0))
    ∧ (digitsOf base x).length ≤ room
  := by
  induction room generalizing x with
  | zero => cases hroom
  | succ room ih =>
    unfold storeDigits
    split_ifs with h
    · have hlt : x / base < base ^ room := Nat.div_lt_of_lt_mul (by rwa [← Nat.pow_succ'])
      have hpos : 0 < room := by
        rcases Nat.eq_zero_or_pos room with rfl | hpos
        · exact absurd (Nat.lt_one_iff.mp hlt) h
        · exact hpos
      obtain ⟨hstore, hlen⟩ := ih hpos hlt
      rw [hstore, digitsOf_step hbase h]
      exact ⟨rfl, Nat.succ_le_succ hlen⟩
    · rw [digitsOf_last hbase (not_not.mp h)]
      exact ⟨rfl, Nat.succ_le_succ (Nat.zero_le room)⟩

theorem ofDigits_digitsOf (base x : ℕ) : Nat.ofDigits base (digitsOf base x) = x := by
  unfold digitsOf
  split_ifs with hx
  · rw [hx, Nat.ofDigits_singleton]
  · exact Nat.ofDigits_digits base x

theorem lt_of_mem_digitsOf (hbase : 2 ≤ base) {d : ℕ} (h : d ∈ digitsOf base x) : d < base := by
  unfold digitsOf at h
  split_ifs at h with hx
  · rw [List.mem_singleton.mp h]
    omega
  · exact Nat.digits_lt_base hbase h

/-- Only the number zero has a leading zero. -/
theorem digitsOf_leading (h : (digitsOf base x).getLast? = some 0) : digitsOf base x = [0] := by
  unfold digitsOf at h ⊢
  split_ifs at h ⊢ with hx
  · rfl
  · have hne : Nat.digits base x ≠ [] := Nat.digits_ne_nil_iff_ne_zero.mpr hx
    rw [List.getLast?_eq_some_getLast hne] at h
    exact absurd (Option.some.inj h) (Nat.getLast_digit_ne_zero base hx)

end Digits

/-! ### The numeral -/

/-- The text is the numeral of a number: the digits with the most significant one first, without
leading zeros, and a `-` before a negative number. -/
def Numeral (digits : List UInt8) (base : ℕ) (v : ℤ) (text : List UInt8) : Prop :=
  ∃ ds : List ℕ, ds ≠ [] ∧ (∀ d ∈ ds, d < base) ∧ (ds.head? = some 0 → ds = [0])
    ∧ Nat.ofDigits base ds.reverse = v.natAbs
    ∧ text = (if v < 0 then ['-'.toUInt8] else []) ++ ds.map (digits.getD · 0)

section Numeral

variable {digits : List UInt8} {base : ℕ} {xx : BitVec 64} {sign : Bool}

theorem printed_neg : printed xx sign < 0 ↔ (sign && xx.toInt < 0) = true := by
  cases sign <;> simp [printed]

theorem natAbs_printed :
  (printed xx sign).natAbs = if sign && xx.toInt < 0 then (-xx).toNat else xx.toNat
  := by
  cases sign with
  | false => simp [printed]
  | true =>
    simp only [printed, Bool.true_and, decide_eq_true_eq, if_true, BitVec.toInt_eq_toNat_cond,
      BitVec.toNat_neg]
    split_ifs <;> omega

theorem numeral_digitsOf (hbase : 2 ≤ base) (v : ℤ) :
  Numeral digits base v ((if v < 0 then ['-'.toUInt8] else [])
    ++ ((digitsOf base v.natAbs).map (digits.getD · 0)).reverse)
  := by
  refine ⟨(digitsOf base v.natAbs).reverse, ?_, ?_, ?_, ?_, by rw [List.map_reverse]⟩
  · intro h
    have := ofDigits_digitsOf base v.natAbs
    simp only [List.reverse_eq_nil_iff] at h
    unfold digitsOf at h
    split_ifs at h with hx
    exact hx (Nat.digits_eq_nil_iff_eq_zero.mp h)
  · intro d hd
    exact lt_of_mem_digitsOf hbase (List.mem_reverse.mp hd)
  · intro h
    rw [List.head?_reverse] at h
    rw [digitsOf_leading h, List.reverse_singleton]
  · rw [List.reverse_reverse, ofDigits_digitsOf]

/-- What `printint` prints, with any table of digits. -/
theorem printintWith_eq (digits : List UInt8) (xx : BitVec 64) (sign : Bool) (hbase : base = 10 ∨ base = 16) :
  printintWith digits xx base sign = some ((if printed xx sign < 0 then ['-'.toUInt8] else [])
      ++ ((digitsOf base (printed xx sign).natAbs).map (digits.getD · 0)).reverse)
    ∧ (if printed xx sign < 0 then 1 else 0) + (digitsOf base (printed xx sign).natAbs).length ≤ 20
  := by
  have htwo : 2 ≤ base := by omega
  have hpow : 2 ^ 64 ≤ base ^ 20 := by rcases hbase with rfl | rfl <;> norm_num
  have hhalf : 2 ^ 63 < base ^ 19 := by rcases hbase with rfl | rfl <;> norm_num
  have hlt : (printed xx sign).natAbs < base ^ 20 := by
    rw [natAbs_printed]
    split_ifs <;> omega
  obtain ⟨hstore, hlen⟩ := storeDigits_eq digits htwo (by decide) hlt
  unfold printintWith
  simp only [← natAbs_printed, hstore, Option.bind_eq_bind, Option.bind_some, List.length_map]
  by_cases hneg : printed xx sign < 0
  · have hless : (printed xx sign).natAbs < base ^ 19 := by
      have hmin := xx.le_toInt
      unfold printed at hneg ⊢
      split_ifs at hneg ⊢ <;> omega
    have hlen := (storeDigits_eq digits htwo (by decide) hless).2
    rw [if_pos (printed_neg.mp hneg), if_pos hneg, if_pos hneg, if_pos (by omega)]
    exact ⟨rfl, by omega⟩
  · rw [if_neg (mt printed_neg.mpr hneg), if_neg hneg, if_neg hneg]
    exact ⟨rfl, by omega⟩

end Numeral

end Xv6
