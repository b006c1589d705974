import Xv6.Fs.Array

/-!
# Reading from an open file

`fileread` passes its length, an `int`, to `readi`, which takes a `uint`.  A negative length
becomes one of more than two gigabytes; `readi` refuses it if the end of the range is behind
`2 ^ 32`, and otherwise reads up to the end of the file.
-/

namespace Xv6

open Stop Superblock

/-- The type of a `struct file`. -/
inductive FdType where
  | none
  | pipe
  | inode
  | device
  deriving DecidableEq, Repr

/-- The fields of a `struct file` that `fileread` uses. -/
structure OpenFile where
  type : FdType
  readable : Bool
  off : BitVec 32
  deriving DecidableEq, Repr

/-- `fileread`, for a file with the locked inode `ip`; `other` reads from a pipe or a device.  It
returns the number of bytes or `-1`, the bytes that were copied from an inode, and the file. -/
def fileread (sb : Superblock) (other : FdType → Kernel ℤ) (f : OpenFile) (ip : Inode)
    (dst : ℕ → ℕ → Bool) (n : BitVec 32) : Kernel (ℤ × List UInt8 × OpenFile × Inode) :=
  if f.readable = false then return (-1, [], f, ip)
  else
    match f.type with
    | .pipe | .device => do
      let r ← other f.type
      return (r, [], f, ip)
    | .inode => do
      let (r, bytes, ip) ← readi sb ip dst f.off.toNat n.toNat
      if 0 < r then return (r, bytes, { f with off := f.off + BitVec.ofInt 32 r }, ip)
      else return (r, bytes, f, ip)
    | .none => throw (.panic "fileread")

/-- What a caller of `read` expects: the bytes from the offset on, at most as many as were asked
for, or `-1` if a copy has failed; the offset moves by the number of bytes. -/
structure ReadsAsked (contents : List UInt8) (dst : ℕ → ℕ → Bool) (off n r : ℤ) (bytes : List UInt8)
    (off' : ℤ) : Prop where
  copied : CopiedTo dst ((contents.drop off.toNat).take n.toNat) r bytes
  off : off' = off + max r 0

section

variable {sb : Superblock} {f : ℕ → Inode} {i : ℕ} {m : Machine} {file : OpenFile}
  {dst : ℕ → ℕ → Bool} {n off k : BitVec 32} {other : FdType → Kernel ℤ} {l bytes : List UInt8}
  {r : ℤ}

/-- All copies succeed. -/
theorem CopiedTo.eq_of_true (h : CopiedTo dst l r bytes) (hdst : ∀ a k, dst a k = true) :
  bytes = l
  := by
  cases h with
  | done => rfl
  | fault tot k hfault =>
    rw [hdst] at hfault
    cases hfault

theorem Inode.length_readPart_le (ip : Inode) (view : ℕ → Block) (off k : ℕ) :
  (ip.readPart view off k).length ≤ ip.size - off
  := by
  unfold Inode.readPart
  split_ifs
  · exact Nat.zero_le _
  · rw [List.length_take, List.length_drop, Inode.length_contents]
    omega

/-- The offset after a read; it does not wrap, since it is not behind the end of the file. -/
theorem off_advanced (h : CopiedTo dst l r bytes)
    (hend : off.toNat + l.length < 2 ^ 32) (hr : 0 < r) :
  ((off + BitVec.ofInt 32 r).toNat : ℤ) = off.toNat + max r 0
  := by
  cases h with
  | done =>
    rw [BitVec.ofInt_natCast, BitVec.toNat_add, BitVec.toNat_ofNat, Nat.add_mod_mod, Nat.mod_eq_of_lt hend,
      max_eq_left hr.le]
    norm_cast
  | fault tot k _ => cases hr

theorem fileread_copied (hfiles : Files sb m.obs f) (hi : sb.Live f i) (htype : file.type = .inode)
    (hreadable : file.readable = true) (other : FdType → Kernel ℤ) (dst : ℕ → ℕ → Bool) (n : BitVec 32) :
  ∃ r bytes file' m', fileread sb other file (f i) dst n m = .ok (r, bytes, file', f i) m'
    ∧ m'.obs = m.obs ∧ CopiedTo dst ((f i).readPart m.view file.off.toNat n.toNat) r bytes
    ∧ (file'.off.toNat : ℤ) = file.off.toNat + max r 0
  := by
  have hwp : wp (fileread sb other file (f i) dst n) (fun r m' => m'.obs = m.obs
      ∧ CopiedTo dst ((f i).readPart m.view file.off.toNat n.toNat) r.1 r.2.1
      ∧ (r.2.2.1.off.toNat : ℤ) = file.off.toNat + max r.1 0 ∧ r.2.2.2 = f i) (fun _ _ => False) m := by
    unfold fileread
    rw [if_neg (by rw [hreadable]; decide), htype]
    dsimp only
    rw [wp_bind]
    apply wp_mono (wp_readi_copied hfiles hi rfl) _ (fun _ _ h => h)
    rintro ⟨r, bytes, ip⟩ m' ⟨hcopied, rfl, hm'⟩
    dsimp only
    split_ifs with hr
    · refine ⟨hm', hcopied, ?_, rfl⟩
      apply off_advanced hcopied _ hr
      have hlen := (f i).length_readPart_le m.view file.off.toNat n.toNat
      have hsize := hfiles.size_le hi
      have hoff := file.off.isLt
      simp only [MAXFILE, NDIRECT, NINDIRECT, BSIZE] at hsize
      change file.off.toNat + ((f i).readPart m.view file.off.toNat n.toNat).length < 2 ^ 32
      omega
    · refine ⟨hm', hcopied, ?_, rfl⟩
      dsimp only
      rw [max_eq_right (not_lt.mp hr), add_zero]
  obtain ⟨⟨r, bytes, file', ip⟩, m', hrun, hm', hcopied, hoff, rfl⟩ := exists_ok_of_wp hwp
  exact ⟨r, bytes, file', m', hrun, hm', hcopied, hoff⟩

/-- The length is one that `readi` understands as it was meant. -/
def LengthKept (size : ℕ) (off n : BitVec 32) : Prop :=
  0 ≤ n.toInt ∨ -n.toInt ≤ off.toNat ∨ size ≤ off.toNat

theorem toNat_of_neg (hk : k.toInt < 0) : (k.toNat : ℤ) = 2 ^ 32 + k.toInt ∧ 2 ^ 31 ≤ k.toNat := by
  rw [BitVec.toInt_eq_toNat_cond] at hk ⊢
  split_ifs at hk ⊢ <;> omega

theorem toNat_of_nonneg (hk : 0 ≤ k.toInt) : (k.toNat : ℤ) = k.toInt ∧ k.toNat < 2 ^ 31 := by
  have hlt := k.isLt
  rw [BitVec.toInt_eq_toNat_cond] at hk ⊢
  split_ifs at hk ⊢ <;> omega

theorem readPart_eq_iff {ip : Inode} (view : ℕ → Block) (hsize : ip.size ≤ MAXFILE * BSIZE) :
  ip.readPart view off.toNat n.toNat = ((ip.contents view).drop off.toNat).take n.toInt.toNat
    ↔ LengthKept ip.size off n
  := by
  simp only [MAXFILE, NDIRECT, NINDIRECT, BSIZE] at hsize
  have hlen : ((ip.contents view).drop off.toNat).length = ip.size - off.toNat := by
    rw [List.length_drop, Inode.length_contents]
  have hoff := off.isLt
  have hn := n.isLt
  have hempty : ip.size ≤ off.toNat → (ip.contents view).drop off.toNat = [] := by
    intro hle
    apply List.eq_nil_of_length_eq_zero
    omega
  unfold LengthKept Inode.readPart
  rcases lt_or_ge n.toInt 0 with hneg | hpos
  · obtain ⟨hnat, hle⟩ := toNat_of_neg hneg
    have hzero : n.toInt.toNat = 0 := Int.toNat_of_nonpos hneg.le
    rw [hzero, List.take_zero]
    split_ifs with hrange
    · refine iff_of_true rfl ?_
      omega
    · rw [List.take_eq_nil_iff]
      constructor
      · rintro (hz | hdrop)
        · omega
        · rw [hdrop, List.length_nil] at hlen
          omega
      · rintro (h | h | h)
        · omega
        · omega
        · exact Or.inr (hempty h)
  · obtain ⟨hnat, hlt⟩ := toNat_of_nonneg hpos
    have hsame : n.toInt.toNat = n.toNat := by omega
    refine iff_of_true ?_ (Or.inl hpos)
    rw [hsame]
    split_ifs with hrange
    · rw [hempty (by omega), List.take_nil]
    · rfl

end

end Xv6
