import Xv6.Lib.Ascent

/-!
# Lineages

A lineage is a forest of elements that are created, adopted by a parent, brought to life,
that die and are reaped, so that an element can be created again in the same place.  It is
well formed when parents are alive, the root never has a parent, whoever lives or lived has
one, and parent pointers lead to the root.  Each operation keeps a lineage well formed.
-/

universe u

/-- The stages an element of a lineage goes through. -/
inductive Kind where
  | free
  | embryo
  | live
  | dead
  deriving DecidableEq

/-- A forest with a stage for every element and a distinguished root. -/
structure Lineage (α : Type u) where
  kind : α → Kind
  parent : α → Option α
  root : α

namespace Lineage

open Function

variable {α : Type u}

/-- A well-formed lineage. -/
structure Wf (L : Lineage α) : Prop where
  free_orphan : ∀ i, L.kind i = .free → L.parent i = none
  parent_live : ∀ i j, L.parent i = some j → L.kind j = .live
  root_live : L.kind L.root = .live
  root_orphan : L.parent L.root = none
  settled : ∀ i, L.kind i = .live ∨ L.kind i = .dead → i = L.root ∨ L.parent i ≠ none
  ascends : ∀ i, L.parent i ≠ none → Ascends L.parent L.root i

namespace Wf

variable {L : Lineage α} {i j : α}

/-- Nobody's parent is an element that does not live. -/
theorem not_parent (h : L.Wf) (hi : L.kind i ≠ .live) (k : α) :
  L.parent k ≠ some i
  := by
  intro hk
  apply hi (h.parent_live k i hk)

/-- The root differs from an element that does not live. -/
theorem root_ne (h : L.Wf) (hi : L.kind i ≠ .live) :
  L.root ≠ i
  := by
  rintro rfl
  apply hi h.root_live

/-- Whoever lives ascends to the root. -/
theorem live_ascends (h : L.Wf) (hj : L.kind j = .live) :
  Ascends L.parent L.root j
  := by
  obtain rfl | hp := h.settled j (Or.inl hj)
  · apply Ascends.root
  · apply h.ascends j hp

end Wf

variable [DecidableEq α]

/-- The element `i` enters stage `k`. -/
def setKind (L : Lineage α) (i : α) (k : Kind) : Lineage α :=
  { L with kind := update L.kind i k }

/-- The element `i` gets parent `q`. -/
def setParent (L : Lineage α) (i : α) (q : Option α) : Lineage α :=
  { L with parent := update L.parent i q }

@[simp]
theorem setKind_self (L : Lineage α) (i : α) : L.setKind i (L.kind i) = L := by
  simp [setKind]

@[simp]
theorem setParent_self (L : Lineage α) (i : α) : L.setParent i (L.parent i) = L := by
  simp [setParent]

namespace Wf

variable {L : Lineage α} {i j : α}

variable (h : L.Wf)

include h

/-- An element may enter a stage in which it does not live when it is nobody's parent and
not the root. -/
theorem setKind {k : Kind} (hfree : k = .free → L.parent i = none)
    (hleaf : k ≠ .live → ∀ j, L.parent j ≠ some i) (hroot : k ≠ .live → L.root ≠ i)
    (hsettled : k = .live ∨ k = .dead → i = L.root ∨ L.parent i ≠ none) :
  (L.setKind i k).Wf
  := by
  constructor
  · intro l hl
    by_cases hli : l = i
    · subst hli
      apply hfree
      simpa [Lineage.setKind] using hl
    · apply h.free_orphan l
      simpa [Lineage.setKind, hli] using hl
  · intro l m hlm
    by_cases hmi : m = i
    · subst hmi
      by_contra hk
      simp only [Lineage.setKind, update_self] at hk
      apply hleaf hk l hlm
    · simpa [Lineage.setKind, hmi] using h.parent_live l m hlm
  · by_cases hri : L.root = i
    · by_contra hk
      simp only [Lineage.setKind, hri, update_self] at hk
      apply hroot hk hri
    · simpa [Lineage.setKind, hri] using h.root_live
  · apply h.root_orphan
  · intro l hl
    by_cases hli : l = i
    · subst hli
      apply hsettled
      simpa [Lineage.setKind] using hl
    · apply h.settled l
      simpa [Lineage.setKind, hli] using hl
  · apply h.ascends

/-- Creating an element. -/
theorem create (hi : L.kind i = .free) : (L.setKind i .embryo).Wf := by
  apply h.setKind
  · simp
  · intro _
    apply h.not_parent (by simp [hi])
  · intro _
    apply h.root_ne (by simp [hi])
  · simp

/-- Discarding an element that was created and not adopted. -/
theorem discard (hi : L.kind i = .embryo) (hp : L.parent i = none) : (L.setKind i .free).Wf := by
  apply h.setKind
  · intro _
    apply hp
  · intro _
    apply h.not_parent (by simp [hi])
  · intro _
    apply h.root_ne (by simp [hi])
  · simp

/-- Bringing an adopted element to life. -/
theorem rouse (hp : L.parent i ≠ none) : (L.setKind i .live).Wf := by
  apply h.setKind
  · simp
  · simp
  · simp
  · intro _
    right
    apply hp

/-- The death of an element without children. -/
theorem die (hi : L.kind i = .live) (hroot : i ≠ L.root) (hleaf : ∀ k, L.parent k ≠ some i) :
  (L.setKind i .dead).Wf
  := by
  apply h.setKind
  · simp
  · intro _
    apply hleaf
  · intro _
    apply hroot.symm
  · intro _
    apply h.settled i (Or.inl hi)

/-- An element that is not free may get a live parent, if the pointers still lead to the
root afterwards. -/
theorem setParent (hi : L.kind i ≠ .free) (hroot : L.root ≠ i) (hj : L.kind j = .live)
    (hasc : ∀ k, k = i ∨ L.parent k ≠ none →
      Ascends (update L.parent i (some j)) L.root k) :
  (L.setParent i (some j)).Wf
  := by
  constructor
  · intro k hk
    have hki : k ≠ i := by rintro rfl; apply hi hk
    simpa [Lineage.setParent, hki] using h.free_orphan k hk
  · intro k l hkl
    by_cases hki : k = i
    · subst hki
      obtain rfl : j = l := by simpa [Lineage.setParent] using hkl
      apply hj
    · apply h.parent_live k l
      simpa [Lineage.setParent, hki] using hkl
  · apply h.root_live
  · simpa [Lineage.setParent, hroot] using h.root_orphan
  · intro k hk
    by_cases hki : k = i
    · subst hki
      right
      simp [Lineage.setParent]
    · simpa [Lineage.setParent, hki] using h.settled k hk
  · intro k hk
    apply hasc
    by_cases hki : k = i
    · left
      apply hki
    · right
      simpa [Lineage.setParent, hki] using hk

/-- Adopting a created element. -/
theorem adopt (hi : L.kind i = .embryo) (hj : L.kind j = .live) : (L.setParent i (some j)).Wf := by
  have hleaf : ∀ k, L.parent k ≠ some i := h.not_parent (by simp [hi])
  have hji : j ≠ i := by rintro rfl; simp [hi] at hj
  apply h.setParent (by simp [hi]) (h.root_ne (by simp [hi])) hj
  intro k hk
  by_cases hki : k = i
  · subst hki
    apply Ascends.up (j := j)
    · simp
    · apply (h.live_ascends hj).update_leaf hleaf _ hji
  · apply (h.ascends k (hk.resolve_left hki)).update_leaf hleaf _ hki

/-- Handing a child over to the root. -/
theorem entrust (hi : L.parent i ≠ none) : (L.setParent i (some L.root)).Wf := by
  apply h.setParent _ _ h.root_live
  · intro k hk
    apply (h.ascends k _).update_root
    obtain rfl | hk := hk
    · apply hi
    · apply hk
  · intro hfree
    apply hi (h.free_orphan i hfree)
  · rintro rfl
    apply hi h.root_orphan

/-- Reaping a dead element. -/
theorem reap (hi : L.kind i = .dead) : ((L.setParent i none).setKind i .free).Wf := by
  have hleaf : ∀ k, L.parent k ≠ some i := h.not_parent (by simp [hi])
  have hri : L.root ≠ i := h.root_ne (by simp [hi])
  constructor
  · intro k hk
    by_cases hki : k = i
    · subst hki
      simp [Lineage.setParent, Lineage.setKind]
    · simp only [Lineage.setKind, Lineage.setParent, update_of_ne hki] at hk ⊢
      apply h.free_orphan k hk
  · intro k l hkl
    by_cases hki : k = i
    · subst hki
      simp [Lineage.setParent, Lineage.setKind] at hkl
    · have hkl' : L.parent k = some l := by simpa [Lineage.setParent, Lineage.setKind, hki] using hkl
      have hli : l ≠ i := by rintro rfl; apply hleaf k hkl'
      simpa [Lineage.setParent, Lineage.setKind, hli] using h.parent_live k l hkl'
  · simpa [Lineage.setKind, Lineage.setParent, hri] using h.root_live
  · simpa [Lineage.setKind, Lineage.setParent, hri] using h.root_orphan
  · intro k hk
    by_cases hki : k = i
    · subst hki
      simp [Lineage.setParent, Lineage.setKind] at hk
    · simp only [Lineage.setKind, Lineage.setParent, update_of_ne hki] at hk ⊢
      apply h.settled k hk
  · intro k hk
    by_cases hki : k = i
    · subst hki
      simp [Lineage.setParent, Lineage.setKind] at hk
    · apply (h.ascends k _).update_leaf hleaf _ hki
      simpa [Lineage.setParent, Lineage.setKind, hki] using hk

end Wf

end Lineage
