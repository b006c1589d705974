import Mathlib.Algebra.BigOperators.Fin
import Mathlib.Algebra.Order.BigOperators.Group.Finset
import Mathlib.Tactic

/-!
# Heaps and assertions

A heap is the part of a memory that somebody owns: for some cells their contents, for all
others nothing.  An assertion is a property of heaps.  `A * B` says that the heap splits
into a part with property `A` and a part with property `B`, and `1` that it is empty.  With
this product the assertions are an ordered commutative monoid, so that `∏ i, A i` says that
the heap splits into parts with the properties `A i`.

An assertion is exact (`Exact`) if at most one heap has the property.
-/

universe u v

/-- The part of a memory that somebody owns. -/
abbrev Heap (P : Type u) (F : Type v) : Type (max u v) := P → Option F

/-- A property of heaps. -/
def Assertion (P : Type u) (F : Type v) : Type (max u v) := Heap P F → Prop

variable {P : Type u} {F : Type v}

open Function

namespace Heap

/-- Every cell of `h` belongs to one of `h₁` and `h₂`. -/
def Splits (h h₁ h₂ : Heap P F) : Prop :=
  ∀ p, (h₁ p = none ∧ h p = h₂ p) ∨ (h₂ p = none ∧ h p = h₁ p)

/-- The empty heap. -/
def empty : Heap P F := fun _ => none

namespace Splits

variable {h h₁ h₂ h₃ h₁₂ : Heap P F} {p : P}

theorem symm (hs : Splits h h₁ h₂) : Splits h h₂ h₁ := fun p => (hs p).symm

theorem empty_left : Splits h empty h := fun _ => Or.inl ⟨rfl, rfl⟩

theorem eq_of_empty (hs : Splits h empty h₂) : h = h₂ := by
  funext p
  rcases hs p with ⟨_, hp⟩ | ⟨h₂p, hp⟩
  · exact hp
  · rw [hp, h₂p]
    rfl

/-- A heap that splits in three can be split from the other side. -/
theorem assoc (hs : Splits h h₁₂ h₃) (hs₁₂ : Splits h₁₂ h₁ h₂) :
  ∃ h₂₃, Splits h h₁ h₂₃ ∧ Splits h₂₃ h₂ h₃
  := by
  refine ⟨fun p => (h₂ p).or (h₃ p), ?_, ?_⟩
  · intro p
    rcases hs p with ⟨h₁₂p, hp⟩ | ⟨h₃p, hp⟩
    · rcases hs₁₂ p with ⟨h₁p, h₁₂p'⟩ | ⟨h₂p, h₁₂p'⟩
      · left
        simp [h₁p, hp, ← h₁₂p', h₁₂p]
      · left
        simp [← h₁₂p', h₁₂p, hp, h₂p]
    · rcases hs₁₂ p with ⟨h₁p, h₁₂p'⟩ | ⟨h₂p, h₁₂p'⟩
      · left
        simp [h₁p, hp, h₁₂p', h₃p]
      · right
        simp [h₂p, h₃p, hp, h₁₂p']
  · intro p
    rcases hs p with ⟨h₁₂p, _⟩ | ⟨h₃p, _⟩
    · left
      have h₂p : h₂ p = none := by
        rcases hs₁₂ p with ⟨_, h₁₂p'⟩ | ⟨h₂p, _⟩
        · rw [← h₁₂p', h₁₂p]
        · exact h₂p
      simp [h₂p]
    · right
      simp [h₃p]

/-- What the first part owns. -/
theorem left {f : F} (hs : Splits h h₁ h₂) (hp : h₁ p = some f) : h p = some f ∧ h₂ p = none := by
  rcases hs p with ⟨h₁p, _⟩ | ⟨h₂p, h'⟩
  · cases h₁p.symm.trans hp
  · exact ⟨h'.trans hp, h₂p⟩

/-- A cell that nobody owns. -/
theorem right_none (hs : Splits h h₁ h₂) (hp : h p = none) : h₂ p = none := by
  rcases hs p with ⟨_, h'⟩ | ⟨h₂p, _⟩
  · rw [← h', hp]
  · exact h₂p

/-- A cell that the first part does not own. -/
theorem right_of_none (hs : Splits h h₁ h₂) (hp : h₁ p = none) : h p = h₂ p := by
  rcases hs p with ⟨_, h'⟩ | ⟨h₂p, h'⟩
  · exact h'
  · rw [h', hp, h₂p]

end Splits

end Heap

namespace Assertion

open Heap

variable {A B C : Assertion P F} {h : Heap P F} {φ : Prop}

@[ext]
theorem ext (hAB : ∀ h, A h ↔ B h) : A = B := funext fun h => propext (hAB h)

/-! ### The monoid of assertions -/

instance : Mul (Assertion P F) where
  mul A B := fun h => ∃ h₁ h₂, Splits h h₁ h₂ ∧ A h₁ ∧ B h₂

instance : One (Assertion P F) where
  one := fun h => h = Heap.empty

protected theorem mul_comm (A B : Assertion P F) : A * B = B * A := by
  have hle : ∀ A B : Assertion P F, ∀ h, (A * B) h → (B * A) h := by
    rintro A B h ⟨h₁, h₂, hs, hA, hB⟩
    exact ⟨h₂, h₁, hs.symm, hB, hA⟩
  ext h
  exact ⟨hle A B h, hle B A h⟩

protected theorem one_mul (A : Assertion P F) : 1 * A = A := by
  ext h
  constructor
  · rintro ⟨_, h₂, hs, rfl, hA⟩
    rw [hs.eq_of_empty]
    exact hA
  · intro hA
    exact ⟨Heap.empty, h, Splits.empty_left, rfl, hA⟩

protected theorem mul_assoc (A B C : Assertion P F) : A * B * C = A * (B * C) := by
  have hle : ∀ A B C : Assertion P F, ∀ h, (A * B * C) h → (A * (B * C)) h := by
    rintro A B C h ⟨h₁₂, h₃, hs, ⟨h₁, h₂, hs₁₂, hA, hB⟩, hC⟩
    obtain ⟨h₂₃, hs', hs₂₃⟩ := hs.assoc hs₁₂
    exact ⟨h₁, h₂₃, hs', hA, h₂, h₃, hs₂₃, hB, hC⟩
  ext h
  constructor
  · apply hle
  · intro hABC
    rw [Assertion.mul_comm A, Assertion.mul_comm B] at hABC
    rw [Assertion.mul_comm (A * B), Assertion.mul_comm A]
    exact hle C B A h hABC

instance : CommMonoid (Assertion P F) where
  mul_assoc := Assertion.mul_assoc
  one_mul := Assertion.one_mul
  mul_one A := by rw [Assertion.mul_comm, Assertion.one_mul]
  mul_comm := Assertion.mul_comm

instance : PartialOrder (Assertion P F) where
  le A B := ∀ h, A h → B h
  le_refl _ _ := id
  le_trans _ _ _ hAB hBC h hA := hBC h (hAB h hA)
  le_antisymm _ _ hAB hBA := ext fun h => ⟨hAB h, hBA h⟩

instance : IsOrderedMonoid (Assertion P F) where
  mul_le_mul_left := by
    rintro A B hAB C h ⟨h₁, h₂, hs, hA, hC⟩
    exact ⟨h₁, h₂, hs, hAB h₁ hA, hC⟩

/-! ### Facts and existence -/

/-- A fact, which owns nothing. -/
def fact (φ : Prop) : Assertion P F := fun h => φ ∧ h = Heap.empty

/-- One of a family of assertions. -/
def ex {ι : Sort*} (A : ι → Assertion P F) : Assertion P F := fun h => ∃ i, A i h

theorem fact_mul_iff : (fact φ * A : Assertion P F) h ↔ φ ∧ A h := by
  constructor
  · rintro ⟨_, h₂, hs, ⟨hφ, rfl⟩, hA⟩
    rw [hs.eq_of_empty]
    exact ⟨hφ, hA⟩
  · rintro ⟨hφ, hA⟩
    exact ⟨Heap.empty, h, Splits.empty_left, ⟨hφ, rfl⟩, hA⟩

theorem fact_mul_of (hφ : φ) : fact φ * A = A := by
  ext h
  rw [fact_mul_iff]
  exact and_iff_right hφ

theorem le_fact_mul (hφ : φ) (hAB : A ≤ B) : A ≤ fact φ * B := by
  rwa [fact_mul_of hφ]

theorem fact_mul_le (hAB : φ → A ≤ B) : fact φ * A ≤ B := by
  intro h hA
  obtain ⟨hφ, hA⟩ := fact_mul_iff.mp hA
  exact hAB hφ h hA

theorem ex_mul {ι : Sort*} (A : ι → Assertion P F) (B : Assertion P F) :
  ex A * B = ex fun i => A i * B
  := by
  ext h
  constructor
  · rintro ⟨h₁, h₂, hs, ⟨i, hA⟩, hB⟩
    exact ⟨i, h₁, h₂, hs, hA, hB⟩
  · rintro ⟨i, h₁, h₂, hs, hA, hB⟩
    exact ⟨h₁, h₂, hs, ⟨i, hA⟩, hB⟩

theorem mul_ex {ι : Sort*} (A : Assertion P F) (B : ι → Assertion P F) :
  A * ex B = ex fun i => A * B i
  := by
  rw [mul_comm, ex_mul]
  congr
  funext i
  rw [mul_comm]

theorem le_ex {ι : Sort*} {A : Assertion P F} {B : ι → Assertion P F} (i : ι) (h : A ≤ B i) :
  A ≤ ex B
  := fun hp hA => ⟨i, h hp hA⟩

theorem ex_le {ι : Sort*} {A : ι → Assertion P F} {B : Assertion P F} (h : ∀ i, A i ≤ B) :
  ex A ≤ B
  := fun hp ⟨i, hA⟩ => h i hp hA

/-! ### One cell -/

/-- Exactly one cell is owned, with the given contents. -/
def single (p : P) (f : F) : Assertion P F := fun h => h p = some f ∧ ∀ q, q ≠ p → h q = none

section

variable [DecidableEq P] {p q : P} {f g : F}

/-- One cell and the rest of the heap. -/
theorem single_mul_of (hp : h p = some f) (hA : A (update h p none)) : (single p f * A) h := by
  refine ⟨update Heap.empty p (some f), _, ?_, ⟨update_self .., ?_⟩, hA⟩
  · intro q
    by_cases hq : q = p
    · subst hq
      rw [update_self, update_self]
      exact Or.inr ⟨rfl, hp⟩
    · rw [update_of_ne hq, update_of_ne hq]
      exact Or.inl ⟨rfl, rfl⟩
  · intro q hq
    rw [update_of_ne hq]
    rfl

omit [DecidableEq P] in
theorem owned_of_single (hA : (single p f * A) h) : h p = some f := by
  obtain ⟨h₁, h₂, hs, ⟨hp, -⟩, -⟩ := hA
  exact (hs.left hp).1

/-- Giving a cell away. -/
theorem single_free (hA : (single p f * A) h) : A (update h p none) := by
  obtain ⟨h₁, h₂, hs, ⟨hp, hother⟩, hA⟩ := hA
  have hrest : update h p none = h₂ := by
    funext q
    by_cases hq : q = p
    · subst hq
      rw [update_self, (hs.left hp).2]
    · rw [update_of_ne hq, hs.right_of_none (hother q hq)]
  rw [hrest]
  exact hA

/-- Two cells that are owned at the same time. -/
theorem ne_of_single (hA : (single p f * (single q g * A)) h) : p ≠ q := by
  rintro rfl
  have hp := owned_of_single (single_free hA)
  rw [update_self] at hp
  cases hp

/-- Changing the contents of a cell. -/
theorem single_update (hA : (single p f * A) h) :
  (single p g * A) (update h p (some g))
  := by
  apply single_mul_of (update_self ..)
  rw [update_idem]
  exact single_free hA

/-- Getting a cell. -/
theorem single_alloc (hp : h p = none) (hA : A h) :
  (single p f * A) (update h p (some f))
  := by
  apply single_mul_of (update_self ..)
  rw [update_idem, ← hp, update_eq_self]
  exact hA

end

/-! ### Exact assertions -/

/-- At most one heap has the property. -/
def Exact (A : Assertion P F) : Prop := ∀ h h', A h → A h' → h = h'

namespace Exact

theorem one : Exact (1 : Assertion P F) := fun _ _ h h' => h.trans h'.symm

theorem single (p : P) (f : F) : Exact (single p f) := by
  intro h h' hp hp'
  funext q
  by_cases hq : q = p
  · rw [hq, hp.1, hp'.1]
  · rw [hp.2 q hq, hp'.2 q hq]

theorem mul (hA : Exact A) (hB : Exact B) : Exact (A * B) := by
  rintro h h' ⟨h₁, h₂, hs, hA₁, hB₂⟩ ⟨h₁', h₂', hs', hA₁', hB₂'⟩
  obtain rfl := hA h₁ h₁' hA₁ hA₁'
  obtain rfl := hB h₂ h₂' hB₂ hB₂'
  funext p
  rcases hs p with ⟨hnone, hp⟩ | ⟨hnone, hp⟩ <;> rcases hs' p with ⟨hnone', hp'⟩ | ⟨hnone', hp'⟩
  · rw [hp, hp']
  · rw [hp, hp', hnone, hnone']
  · rw [hp, hp', hnone, hnone']
  · rw [hp, hp']

theorem prod {ι : Type*} {s : Finset ι} {A : ι → Assertion P F} (h : ∀ i ∈ s, Exact (A i)) :
  Exact (∏ i ∈ s, A i)
  := by
  classical
  induction s using Finset.induction_on with
  | empty => exact one
  | insert i s hi ih =>
    rw [Finset.prod_insert hi]
    apply (h i (Finset.mem_insert_self i s)).mul
    exact ih fun j hj => h j (Finset.mem_insert_of_mem hj)

end Exact

end Assertion
