import Mathlib.Tactic

/-!
# Arrays of bytes with little-endian fields

An array of `n` bytes is a function on `Fin n`.  `load b off w` reads the field of `w`
bytes at offset `off` as a number, least significant byte first, and `store b off w v`
writes it; `patch` overwrites a range of bytes.  A field that was stored is read back, and
storing does not disturb the fields beside it.
-/

/-- An array of `n` bytes. -/
abbrev Bytes (n : ℕ) := Fin n → UInt8

namespace Bytes

variable {n off len i : ℕ} {b : Bytes n}

/-- The byte at an offset, `0` behind the end. -/
def byteAt (b : Bytes n) (i : ℕ) : UInt8 := if h : i < n then b ⟨i, h⟩ else 0

/-- The field of `w` bytes at offset `off`. -/
def load (b : Bytes n) (off : ℕ) : ℕ → ℕ
  | 0 => 0
  | w + 1 => (b.byteAt off).toNat + 256 * load b (off + 1) w

/-- Overwrite the `len` bytes at offset `off`. -/
def patch (b : Bytes n) (off len : ℕ) (src : ℕ → UInt8) : Bytes n :=
  fun i => if off ≤ i.val ∧ i.val < off + len then src (i.val - off) else b i

/-- Write the field of `w` bytes at offset `off`. -/
def store (b : Bytes n) (off w v : ℕ) : Bytes n :=
  b.patch off w (fun k => UInt8.ofNat (v / 256 ^ k))

/-- Write an array of fields of `w` bytes each at offset `off`. -/
def storeAll (b : Bytes n) (off w : ℕ) : List ℕ → Bytes n
  | [] => b
  | v :: vs => storeAll (b.store off w v) (off + w) w vs

theorem load_succ (b : Bytes n) (off w : ℕ) :
  b.load off (w + 1) = (b.byteAt off).toNat + 256 * b.load (off + 1) w
  := rfl

theorem patch_apply (b : Bytes n) (src : ℕ → UInt8) (i : Fin n) :
  b.patch off len src i = if off ≤ i.val ∧ i.val < off + len then src (i.val - off) else b i
  := rfl

/-- A patch is seen at its offsets. -/
theorem byteAt_patch (b : Bytes n) (src : ℕ → UInt8) (hi : off + i < n) (hlen : i < len) :
  (b.patch off len src).byteAt (off + i) = src i
  := by
  simp [byteAt, patch_apply, hi, hlen]

/-- A patch is not seen elsewhere. -/
theorem byteAt_patch_of_not_mem (b : Bytes n) (src : ℕ → UInt8) (hi : i < off ∨ off + len ≤ i) :
  (b.patch off len src).byteAt i = b.byteAt i
  := by
  unfold byteAt
  split
  · rw [patch_apply, if_neg]
    simp only
    omega
  · rfl

/-- Overwriting a range in two pieces. -/
theorem patch_append (b : Bytes n) (off len len' : ℕ) (src : ℕ → UInt8) :
  (b.patch off len src).patch (off + len) len' (fun k => src (len + k)) = b.patch off (len + len') src
  := by
  funext i
  simp only [patch_apply]
  by_cases h₁ : off + len ≤ i.val ∧ i.val < off + len + len'
  · have hoff : len + (i.val - (off + len)) = i.val - off := by omega
    rw [if_pos h₁, if_pos (by omega)]
    simp only [hoff]
  · rw [if_neg h₁]
    by_cases h₂ : off ≤ i.val ∧ i.val < off + len
    · rw [if_pos h₂, if_pos (by omega)]
    · rw [if_neg h₂, if_neg (by omega)]

theorem patch_congr (b : Bytes n) (off : ℕ) {len : ℕ} {src src' : ℕ → UInt8}
    (h : ∀ k < len, src k = src' k) :
  b.patch off len src = b.patch off len src'
  := by
  funext i
  simp only [patch_apply]
  split_ifs with hi
  · exact h _ (by omega)
  · rfl

theorem patch_zero (b : Bytes n) (off : ℕ) (src : ℕ → UInt8) : b.patch off 0 src = b := by
  funext i
  exact if_neg (by omega)

/-- A field depends on its bytes only. -/
theorem load_congr {m : ℕ} {b' : Bytes m} {off off' w : ℕ}
    (h : ∀ k < w, b.byteAt (off + k) = b'.byteAt (off' + k)) :
  b.load off w = b'.load off' w
  := by
  induction w generalizing off off' with
  | zero => rfl
  | succ w ih =>
    have hhead := h 0 (Nat.succ_pos w)
    simp only [Nat.add_zero] at hhead
    rw [load_succ, load_succ, hhead, ih]
    intro k hk
    have := h (k + 1) (Nat.succ_lt_succ hk)
    rwa [Nat.add_right_comm, Nat.add_assoc off, Nat.add_right_comm, Nat.add_assoc off']

/-- The bytes of a number make up the number. -/
theorem load_eq_mod {off w v : ℕ} (h : ∀ k < w, b.byteAt (off + k) = UInt8.ofNat (v / 256 ^ k)) :
  b.load off w = v % 256 ^ w
  := by
  induction w generalizing off v with
  | zero => exact (Nat.mod_one v).symm
  | succ w ih =>
    have hhead : b.byteAt off = UInt8.ofNat v := by simpa using h 0 (Nat.succ_pos w)
    have htail : b.load (off + 1) w = v / 256 % 256 ^ w := by
      apply ih
      intro k hk
      rw [Nat.div_div_eq_div_mul, ← Nat.pow_succ', Nat.add_assoc, Nat.add_comm 1]
      exact h (k + 1) (Nat.succ_lt_succ hk)
    rw [load_succ, hhead, htail, Nat.pow_succ', Nat.mod_mul, UInt8.toNat_ofNat']

theorem load_lt (b : Bytes n) (off w : ℕ) :
  b.load off w < 256 ^ w
  := by
  induction w generalizing off with
  | zero => exact Nat.zero_lt_one
  | succ w ih =>
    have hbyte : (b.byteAt off).toNat < 256 := UInt8.toNat_lt _
    have := ih (off + 1)
    rw [load_succ, Nat.pow_succ']
    omega

/-- The bytes of a field. -/
theorem byte_load (b : Bytes n) (off : ℕ) {w k : ℕ} (hk : k < w) :
  UInt8.ofNat (b.load off w / 256 ^ k) = b.byteAt (off + k)
  := by
  induction w generalizing off k with
  | zero => cases hk
  | succ w ih =>
    have hbyte : (b.byteAt off).toNat < 256 := UInt8.toNat_lt _
    cases k with
    | zero =>
      apply UInt8.toNat_inj.mp
      rw [Nat.add_zero off, load_succ, Nat.pow_zero, Nat.div_one, UInt8.toNat_ofNat']
      omega
    | succ k =>
      have hdiv : load b off (w + 1) / 256 = load b (off + 1) w := by
        rw [load_succ]
        omega
      rw [Nat.pow_succ', ← Nat.div_div_eq_div_mul, hdiv, ih (off + 1) (Nat.lt_of_succ_lt_succ hk)]
      congr 1
      omega

/-- The fields of an array of zeros. -/
theorem load_zero (off w : ℕ) : load (fun _ => 0 : Bytes n) off w = 0 := by
  induction w generalizing off with
  | zero => rfl
  | succ w ih => simp [load_succ, ih, byteAt]

/-- A field that was stored is read back. -/
theorem load_store (b : Bytes n) {off w v : ℕ} (hoff : off + w ≤ n) (hv : v < 256 ^ w) :
  (b.store off w v).load off w = v
  := by
  rw [load_eq_mod, Nat.mod_eq_of_lt hv]
  intro k hk
  exact byteAt_patch b _ (by omega) hk

/-- A patch does not disturb the fields beside it. -/
theorem load_patch_of_disjoint
    (b : Bytes n) {off len off' w : ℕ} (src : ℕ → UInt8) (h : off' + w ≤ off ∨ off + len ≤ off') :
  (b.patch off len src).load off' w = b.load off' w
  := by
  apply load_congr
  intro k hk
  apply byteAt_patch_of_not_mem
  omega

theorem load_store_of_disjoint
    (b : Bytes n) {off w v off' w' : ℕ} (h : off' + w' ≤ off ∨ off + w ≤ off') :
  (b.store off w v).load off' w' = b.load off' w'
  := load_patch_of_disjoint b _ h

/-- Storing an array does not disturb the fields beside it. -/
theorem load_storeAll_of_disjoint
    (b : Bytes n) {off w off' w' : ℕ} (vs : List ℕ)
    (h : off' + w' ≤ off ∨ off + w * vs.length ≤ off') :
  (b.storeAll off w vs).load off' w' = b.load off' w'
  := by
  induction vs generalizing b off with
  | nil => rfl
  | cons v vs ih =>
    rw [List.length_cons, Nat.mul_succ] at h
    rw [storeAll, ih _ (by omega)]
    apply load_store_of_disjoint
    omega

/-- The fields of an array that was stored are read back. -/
theorem load_storeAll
    (b : Bytes n) {off w i : ℕ} {vs : List ℕ} (hoff : off + w * vs.length ≤ n)
    (hvs : ∀ v ∈ vs, v < 256 ^ w) (hi : i < vs.length) :
  (b.storeAll off w vs).load (off + w * i) w = vs[i]
  := by
  induction vs generalizing b off i with
  | nil => cases hi
  | cons v vs ih =>
    rw [List.length_cons, Nat.mul_succ] at hoff
    cases i with
    | zero =>
      rw [storeAll, Nat.mul_zero, Nat.add_zero, load_storeAll_of_disjoint _ _ (Or.inl (Nat.le_refl _))]
      apply load_store b (by omega) (hvs v List.mem_cons_self)
    | succ i =>
      rw [storeAll, Nat.mul_succ, Nat.add_comm (w * i), ← Nat.add_assoc]
      apply ih
      · omega
      · intro u hu
        apply hvs u (List.mem_cons_of_mem v hu)

/-! ### Bits -/

/-- Bit `i` of an array of bits. -/
def testBit (b : Bytes n) (i : ℕ) : Bool := (b.byteAt (i / 8)).toBitVec.getLsbD (i % 8)

/-- Set or clear bit `i` of an array of bits. -/
def setBit (b : Bytes n) (i : ℕ) (v : Bool) : Bytes n :=
  let m : UInt8 := 1 <<< UInt8.ofNat (i % 8)
  b.patch (i / 8) 1 (fun _ => if v then b.byteAt (i / 8) ||| m else b.byteAt (i / 8) &&& ~~~m)

theorem getLsbD_mask {k j : ℕ} (hk : k < 8) (hj : j < 8) :
  ((1 : UInt8) <<< UInt8.ofNat k).toBitVec.getLsbD j = decide (j = k)
  := by
  interval_cases k <;> interval_cases j <;> rfl

/-- A bit that is set or cleared is seen, and no other one. -/
theorem testBit_setBit (b : Bytes n) {i j : ℕ} (v : Bool) (hi : i < 8 * n) :
  (b.setBit i v).testBit j = if j = i then v else b.testBit j
  := by
  have hk : i % 8 < 8 := Nat.mod_lt _ (by decide)
  have hj : j % 8 < 8 := Nat.mod_lt _ (by decide)
  unfold setBit testBit
  by_cases hbyte : j / 8 = i / 8
  · have hmem : ∀ src, (b.patch (i / 8) 1 src).byteAt (i / 8) = src 0 :=
      fun src => byteAt_patch b src (by omega) Nat.zero_lt_one
    have hiff : j = i ↔ j % 8 = i % 8 := by omega
    simp only [hbyte, hmem, hiff]
    cases v with
    | true =>
      rw [if_pos rfl, UInt8.toBitVec_or, BitVec.getLsbD_or, getLsbD_mask hk hj]
      split_ifs with h <;> simp [h]
    | false =>
      rw [if_neg Bool.false_ne_true, UInt8.toBitVec_and, BitVec.getLsbD_and, UInt8.toBitVec_not,
        BitVec.getLsbD_not, getLsbD_mask hk hj]
      split_ifs with h <;> simp [h, hj]
  · have hne : j ≠ i := by
      rintro rfl
      exact hbyte rfl
    rw [if_neg hne, byteAt_patch_of_not_mem]
    omega

end Bytes
