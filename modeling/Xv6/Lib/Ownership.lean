import Mathlib.Tactic

/-!
# Cells that own resources

A cell is empty, when it contains `0`, or it contains a resource.  `Own area used cell` says
that the cells own the resources in use: what a cell contains lies in the area and is in
use, no resource is in two cells, and every resource in use is in a cell.  A resource that
is taken into use when an empty cell gets it, and given back when its cell is emptied,
keeps this.
-/

namespace Ownership

open Function

variable {Q β : Type*} [DecidableEq Q] [Zero β]

/-- The cells own the resources in use. -/
structure Own (area used : Set β) (cell : Q → β) : Prop where
  mem_area : ∀ q, cell q ≠ 0 → cell q ∈ area
  mem_used : ∀ q, cell q ≠ 0 → cell q ∈ used
  unique : ∀ q q', cell q ≠ 0 → cell q = cell q' → q = q'
  owned : ∀ b ∈ used, b ≠ 0 ∧ ∃ q, cell q = b

namespace Own

variable {area used : Set β} {cell : Q → β} {b : β} {q : Q}

omit [DecidableEq Q] in
/-- A resource that is not in use is in no cell. -/
theorem ne_of_not_mem (h : Own area used cell) (hb : b ∉ used) (hb0 : b ≠ 0) (q : Q) : cell q ≠ b := by
  rintro rfl
  exact hb (h.mem_used q hb0)

/-- An empty cell gets a resource that was not in use. -/
theorem alloc (h : Own area used cell) (hb : b ∈ area) (hb0 : b ≠ 0) (hu : b ∉ used)
    (hq : cell q = 0) :
  Own area (insert b used) (update cell q b)
  := by
  have hother : ∀ {p}, p ≠ q → update cell q b p = cell p :=
    fun hp => update_of_ne hp _ _
  constructor
  · intro p hp
    by_cases hpq : p = q
    · subst hpq
      rwa [update_self]
    · rw [hother hpq] at hp ⊢
      exact h.mem_area p hp
  · intro p hp
    by_cases hpq : p = q
    · subst hpq
      rw [update_self]
      exact Set.mem_insert _ _
    · rw [hother hpq] at hp ⊢
      exact Set.mem_insert_of_mem _ (h.mem_used p hp)
  · intro p p' hp hpp'
    by_cases hpq : p = q
    · by_cases hpq' : p' = q
      · rw [hpq, hpq']
      · subst hpq
        rw [update_self, hother hpq'] at hpp'
        exact absurd hpp'.symm (h.ne_of_not_mem hu hb0 p')
    · rw [hother hpq] at hp hpp'
      by_cases hpq' : p' = q
      · subst hpq'
        rw [update_self] at hpp'
        exact absurd hpp' (h.ne_of_not_mem hu hb0 p)
      · rw [hother hpq'] at hpp'
        exact h.unique p p' hp hpp'
  · rintro c (rfl | hc)
    · exact ⟨hb0, q, update_self _ _ _⟩
    · obtain ⟨hc0, p, hp⟩ := h.owned c hc
      refine ⟨hc0, p, ?_⟩
      rw [hother, hp]
      rintro rfl
      exact hc0 (hp.symm.trans hq)

/-- The resource of a cell is given back when the cell is emptied. -/
theorem free (h : Own area used cell) (hq : cell q = b) (hb0 : b ≠ 0) :
  Own area (used \ {b}) (update cell q 0)
  := by
  subst hq
  have hother : ∀ {p}, p ≠ q → update cell q 0 p = cell p :=
    fun hp => update_of_ne hp _ _
  have hne : ∀ {p}, update cell q 0 p ≠ 0 → p ≠ q := by
    rintro p hp rfl
    rw [update_self] at hp
    exact hp rfl
  constructor
  · intro p hp
    have hpq := hne hp
    rw [hother hpq] at hp ⊢
    exact h.mem_area p hp
  · intro p hp
    have hpq := hne hp
    rw [hother hpq] at hp ⊢
    refine ⟨h.mem_used p hp, ?_⟩
    intro heq
    exact hpq (h.unique p q hp heq)
  · intro p p' hp hpp'
    have hpq' := hne (hpp' ▸ hp)
    have hpq := hne hp
    rw [hother hpq] at hp hpp'
    rw [hother hpq'] at hpp'
    exact h.unique p p' hp hpp'
  · rintro c ⟨hc, hcq⟩
    obtain ⟨hc0, p, hp⟩ := h.owned c hc
    refine ⟨hc0, p, ?_⟩
    rw [hother, hp]
    rintro rfl
    exact hcq hp.symm

end Own

end Ownership
