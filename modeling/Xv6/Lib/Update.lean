import Mathlib.Logic.Function.Basic
import Mathlib.Tactic

/-!
# Changing a function at one argument

The state of a system often has an entry for each of its threads, or for each of its places, and a
step changes the entry of one of them.
-/

open Function

variable {α : Type*} [DecidableEq α]

/-- What holds of the new entry and of the other entries holds of every entry. -/
@[elab_as_elim]
theorem update_cases {β : α → Type*} {f : ∀ a, β a} {a : α} {b : β a} {motive : ∀ x, β x → Prop}
    (x : α) (self : motive a b) (other : x ≠ a → motive x (f x)) :
  motive x (update f a b x)
  := by
  by_cases hx : x = a
  · subst hx
    rw [update_self]
    exact self
  · rw [update_of_ne hx]
    exact other hx

/-- Two threads never have the same thing at once, and one of them moves to where it has nothing
that another has. -/
theorem unique_update {κ L : Type*} {g : κ → Option L} {pc : α → κ} {p : α} {k : κ}
    (hu : ∀ q r a, g (pc q) = some a → g (pc r) = some a → q = r)
    (hnew : ∀ q a, q ≠ p → g k = some a → g (pc q) ≠ some a) (q r : α) (a : L)
    (hq : g (update pc p k q) = some a) (hr : g (update pc p k r) = some a) :
  q = r
  := by
  revert hq hr
  refine update_cases q (update_cases r ?_ ?_) fun hqp => update_cases r ?_ ?_
  · exact fun _ _ => rfl
  · exact fun hrp hq hr => absurd hr (hnew r a hrp hq)
  · exact fun hq hr => absurd hq (hnew q a hqp hr)
  · exact fun _ hq hr => hu q r a hq hr
