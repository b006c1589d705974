import Xv6.Fs.Array
import Xv6.Lib.Slots

/-!
# The entries of a directory

A name counts up to its first zero and with at most `DIRSIZ` bytes.  That is what `namecmp`
compares and what is left of a name when `strncpy` has put it into an entry.  The contents of a
directory are a table of slots, one for each entry, with names as keys and inode numbers as
values.
-/

namespace Xv6

open Slots

/-! ### Names -/

/-- The bytes of a string before its first zero, at most `n` of them. -/
def CString.cut (t : CString) : ℕ → List UInt8
  | 0 => []
  | n + 1 => if t 0 = 0 then [] else t 0 :: CString.cut (fun k => t (k + 1)) n

/-- The name that a string stands for in a directory. -/
def CString.name (t : CString) : List UInt8 := t.cut DIRSIZ

section Names

variable {p q t : CString} {n : ℕ}

/-- `strncmp` compares the strings up to their zeros. -/
theorem strncmp_eq_zero : strncmp p q n = 0 ↔ p.cut n = q.cut n := by
  induction n generalizing p q with
  | zero => simp [strncmp, CString.cut]
  | succ n ih =>
    simp only [strncmp, CString.cut]
    by_cases heq : p 0 = q 0
    · rw [heq]
      by_cases h0 : q 0 = 0
      · simp [h0]
      · simp [h0, ih]
    · have hne : (p 0).toNat ≠ (q 0).toNat := fun h => heq (UInt8.toNat_inj.mp h)
      rw [if_neg (fun h => heq h.2)]
      constructor
      · intro h
        omega
      · intro h
        split_ifs at h with hp hq hq
        · exact absurd (hp.trans hq.symm) heq
        · exact absurd (List.cons.inj h).1 heq

theorem namecmp_eq_zero : namecmp p q = 0 ↔ p.name = q.name := strncmp_eq_zero

theorem length_strncpy (t : CString) (n : ℕ) : (strncpy t n).length = n := by
  induction n generalizing t with
  | zero => rfl
  | succ n ih =>
    unfold strncpy
    split_ifs
    · simp
    · simp [ih]

theorem CString.ofList_cons_succ (b : UInt8) (l : List UInt8) :
  (fun k => CString.ofList (b :: l) (k + 1)) = CString.ofList l
  := by
  funext k
  simp [CString.ofList]

/-- A string that fits is read back from what `strncpy` has written, also without a zero. -/
theorem CString.cut_strncpy (t : CString) (n : ℕ) : (CString.ofList (strncpy t n)).cut n = t.cut n := by
  induction n generalizing t with
  | zero => rfl
  | succ n ih =>
    unfold strncpy CString.cut
    split_ifs with h0 hfirst hfirst
    · rfl
    · exact absurd (by simp [CString.ofList]) hfirst
    · exact absurd (by simpa [CString.ofList] using hfirst) h0
    · rw [CString.ofList_cons_succ, ih]
      simp [CString.ofList]

end Names

/-! ### Entries -/

/-- An entry as a slot, free if its inode number is `0`. -/
def direntSlot (de : List UInt8) : Option (List UInt8 × ℕ) :=
  if direntInum de = 0 then none else some ((direntName de).name, direntInum de)

theorem length_dirent (name : CString) (inum : ℕ) : (dirent name inum).length = DIRENT := by
  unfold dirent
  rw [List.length_cons, List.length_cons, length_strncpy]
  rfl

theorem direntInum_dirent {name : CString} {inum : ℕ} (h : inum < 2 ^ 16) :
  direntInum (dirent name inum) = inum
  := by
  have hlow : (UInt8.ofNat (inum % 2 ^ 8)).toNat = inum % 2 ^ 8 :=
    UInt8.toNat_ofNat_of_lt' (Nat.mod_lt _ (by decide))
  have hhigh : (UInt8.ofNat (inum / 2 ^ 8 % 2 ^ 8)).toNat = inum / 2 ^ 8 % 2 ^ 8 :=
    UInt8.toNat_ofNat_of_lt' (Nat.mod_lt _ (by decide))
  simp only [direntInum, dirent, List.getD_cons_zero, List.getD_cons_succ, hlow, hhigh]
  omega

/-- What a new entry stands for. -/
theorem direntSlot_dirent {name : CString} {inum : ℕ} (h0 : inum ≠ 0) (h : inum < 2 ^ 16) :
  direntSlot (dirent name inum) = some (name.name, inum)
  := by
  rw [direntSlot, direntInum_dirent h, if_neg h0]
  simp [direntName, dirent, CString.name, CString.cut_strncpy]

/-- What a cleared entry stands for. -/
theorem direntSlot_zero : direntSlot (List.replicate DIRENT 0) = none := if_pos rfl

/-! ### The contents of a directory -/

/-- The entry `j` of a directory. -/
def entryAt (c : List UInt8) (j : ℕ) : List UInt8 := (c.drop (DIRENT * j)).take DIRENT

/-- The contents of a directory as a table of slots. -/
def slots (c : List UInt8) : Table (List UInt8) ℕ :=
  (List.range (c.length / DIRENT)).map (fun j => direntSlot (entryAt c j))

section Entries

variable {c de : List UInt8} {i j : ℕ}

theorem length_slots (c : List UInt8) : (slots c).length = c.length / DIRENT := by
  rw [slots, List.length_map, List.length_range]

theorem slots_get : (slots c)[j]? = if j < c.length / DIRENT then some (direntSlot (entryAt c j)) else none := by
  unfold slots
  rw [List.getElem?_map]
  split_ifs with hj
  · rw [List.getElem?_range hj]
    rfl
  · rw [List.getElem?_eq_none (by rw [List.length_range]; omega)]
    rfl

theorem slots_get_of_lt (hj : j < c.length / DIRENT) : (slots c)[j]? = some (direntSlot (entryAt c j)) := by
  rw [slots_get, if_pos hj]

theorem entryAt_get (l : List UInt8) (j : ℕ) {k : ℕ} (hk : k < DIRENT) :
  (entryAt l j)[k]? = l[DIRENT * j + k]?
  := by
  rw [entryAt, List.getElem?_take_of_lt hk, List.getElem?_drop]

/-- An entry that has been written. -/
theorem entryAt_overwrite_self (hj : DIRENT * j ≤ c.length) (hde : de.length = DIRENT) :
  entryAt (overwrite c (DIRENT * j) de) j = de
  := by
  have hdrop : (overwrite c (DIRENT * j) de).drop (DIRENT * j) = de ++ c.drop (DIRENT * j + de.length) := by
    rw [overwrite, List.append_assoc, List.drop_left' (List.length_take_of_le hj)]
  rw [entryAt, hdrop, ← hde, List.take_left]

/-- The other entries are not disturbed. -/
theorem entryAt_overwrite_of_ne (hj : DIRENT * j ≤ c.length) (hde : de.length = DIRENT) (hij : i ≠ j) :
  entryAt (overwrite c (DIRENT * j) de) i = entryAt c i
  := by
  apply List.ext_getElem?
  intro k
  rcases Nat.lt_or_ge k DIRENT with hk | hk
  · rw [entryAt_get _ _ hk, entryAt_get _ _ hk]
    apply overwrite_outside hj
    rw [hde]
    simp only [DIRENT, DIRSIZ] at *
    omega
  · have hnone : ∀ c : List UInt8, (entryAt c i)[k]? = none := by
      intro c
      apply List.getElem?_eq_none
      rw [entryAt, List.length_take]
      omega
    rw [hnone, hnone]

variable (hlen : c.length % DIRENT = 0) (hj : j ≤ c.length / DIRENT) (hde : de.length = DIRENT)

include hlen hj hde

/-- Writing an entry changes its slot, or adds one. -/
theorem slots_overwrite :
  slots (overwrite c (DIRENT * j) de) = put (slots c) j (direntSlot de)
  := by
  have hle : DIRENT * j ≤ c.length := by
    simp only [DIRENT, DIRSIZ] at *
    omega
  have hlength : (overwrite c (DIRENT * j) de).length / DIRENT = max (c.length / DIRENT) (j + 1) := by
    rw [length_overwrite hle, hde]
    simp only [DIRENT, DIRSIZ] at *
    omega
  apply List.ext_getElem?
  intro i
  rw [slots_get, hlength, getElem?_put (by rwa [length_slots]), slots_get]
  by_cases hij : i = j
  · subst hij
    rw [if_pos (by omega), if_pos rfl, entryAt_overwrite_self hle hde]
  · rw [if_neg hij, entryAt_overwrite_of_ne hle hde hij]
    have hiff : i < max (c.length / DIRENT) (j + 1) ↔ i < c.length / DIRENT := by omega
    simp only [hiff]

theorem length_overwrite_mod : (overwrite c (DIRENT * j) de).length % DIRENT = 0 := by
  rw [length_overwrite (by simp only [DIRENT, DIRSIZ] at *; omega), hde]
  simp only [DIRENT, DIRSIZ] at *
  omega

end Entries

end Xv6
