import Mathlib.Logic.Function.Basic
import Mathlib.Tactic

/-!
# Parent pointers

For a partial function `parent`, `climb parent n i` is what `n` parent pointers lead to
from `i`, and `Ascends parent r i` says that they eventually lead to `r`.  When `r` has no
parent, ascending to `r` excludes cycles (`Ascends.acyclic`).

Ascending is stable under the two ways of changing one pointer that a forest allows:
changing the pointer of an element nobody points to (`Ascends.update_leaf`), and pointing
an element directly to the root (`Ascends.update_root`).
-/

universe u

variable {α : Type u}

/-- The element `n` parent pointers above `i`. -/
def climb (parent : α → Option α) : ℕ → α → Option α
  | 0, i => some i
  | n + 1, i => (parent i).bind (climb parent n)

/-- Following `parent` from an element leads to `r`. -/
inductive Ascends (parent : α → Option α) (r : α) : α → Prop where
  | root : Ascends parent r r
  | up {i j : α} : parent i = some j → Ascends parent r j → Ascends parent r i

theorem climb_add (parent : α → Option α) (m n : ℕ) (i : α) :
  climb parent (m + n) i = (climb parent m i).bind (climb parent n)
  := by
  induction m generalizing i with
  | zero => simp [climb]
  | succ m ih =>
    rw [Nat.succ_add, climb, climb, Option.bind_assoc]
    congr 1
    funext j
    apply ih

namespace Ascends

open Function

variable {parent : α → Option α} {r i : α}

theorem exists_climb (h : Ascends parent r i) :
  ∃ n, climb parent n i = some r
  := by
  induction h with
  | root => use 0; rfl
  | up hij _ ih =>
    obtain ⟨n, hn⟩ := ih
    use n + 1
    rw [climb, hij, Option.bind_some, hn]

/-- An element that ascends to an element without parent is on no cycle. -/
theorem acyclic (hr : parent r = none) (h : Ascends parent r i) {n : ℕ} (hn : 0 < n) :
  climb parent n i ≠ some i
  := by
  intro hcycle
  obtain ⟨m, hm⟩ := h.exists_climb
  have hperiod : ∀ k, climb parent (n * k) i = some i := by
    intro k
    induction k with
    | zero => rfl
    | succ k ih => rw [Nat.mul_succ, climb_add, ih, Option.bind_some, hcycle]
  obtain ⟨d, hd⟩ : ∃ d, n * (m + 1) = m + (d + 1) := by
    use n * (m + 1) - (m + 1)
    have : m + 1 ≤ n * (m + 1) := Nat.le_mul_of_pos_left _ hn
    omega
  have hend : climb parent (n * (m + 1)) i = none := by
    rw [hd, climb_add, hm, Option.bind_some, climb, hr, Option.bind_none]
  rw [hperiod] at hend
  cases hend

variable [DecidableEq α]

/-- Changing the pointer of an element nobody points to. -/
theorem update_leaf
    {k : α} (hleaf : ∀ i, parent i ≠ some k) (q : Option α) (h : Ascends parent r i) (hik : i ≠ k) :
  Ascends (update parent k q) r i
  := by
  induction h with
  | root => apply root
  | @up i j hij _ ih =>
    apply up (j := j)
    · rw [update_of_ne hik, hij]
    · apply ih
      rintro rfl
      apply hleaf i hij

/-- Pointing an element to the root. -/
theorem update_root (k : α) (h : Ascends parent r i) :
  Ascends (update parent k (some r)) r i
  := by
  induction h with
  | root => apply root
  | @up i j hij _ ih =>
    by_cases hik : i = k
    · subst hik
      apply up (update_self _ _ _) root
    · apply up _ ih
      rw [update_of_ne hik, hij]

end Ascends
