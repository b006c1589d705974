import Mathlib.Logic.Function.Basic
import Xv6.Lib.TransitionSystem

/-!
# Deposits

Values are put into places and taken out again, where a place holds one value at a time.
Whatever is taken was put there, and nothing happened to the place in between
(`put_of_take`): so nothing is taken twice.
-/

universe u v

/-- What happens to a place. -/
inductive DepositEvent (α : Type u) (β : Type v) where
  | put (a : α) (b : β)
  | take (a : α) (b : β)
  deriving DecidableEq

open Function

namespace DepositEvent

variable {α : Type u} {β : Type v}

/-- The place something happens to. -/
def place : DepositEvent α β → α
  | put a _ | take a _ => a

end DepositEvent

open DepositEvent

variable {α : Type u} {β : Type v} [DecidableEq α] [DecidableEq β] {a : α} {b : β}

/-- The places with what they hold. -/
def depositSystem (α : Type u) (β : Type v) [DecidableEq α] [DecidableEq β] :
    TransitionSystem (α → Option β) (DepositEvent α β) where
  init f := f = fun _ => none
  step f
    | .put a b => if f a = none then some (update f a (some b)) else none
    | .take a b => if f a = some b then some (update f a none) else none

/-- What a place holds was there from the start, or was put there last. -/
theorem deposit_of_exec {f g : α → Option β} {es : List (DepositEvent α β)}
    (h : (depositSystem α β).exec f es = some g) (hg : g a = some b) :
  (f a = some b ∧ ∀ e ∈ es, e.place ≠ a)
    ∨ ∃ es₁ es₂, es = es₁ ++ .put a b :: es₂ ∧ ∀ e ∈ es₂, e.place ≠ a
  := by
  induction es generalizing f with
  | nil =>
    cases h
    exact Or.inl ⟨hg, nofun⟩
  | cons e es ih =>
    obtain ⟨f₁, h₁, h⟩ := TransitionSystem.exec_cons_iff.mp h
    rcases ih h with ⟨hf₁, hes⟩ | ⟨es₁, es₂, rfl, hes₂⟩
    · cases e with
      | put a' b' =>
        change (if f a' = none then some (update f a' (some b')) else none) = some f₁ at h₁
        split_ifs at h₁
        cases h₁
        by_cases ha : a = a'
        · subst ha
          rw [update_self] at hf₁
          cases hf₁
          exact Or.inr ⟨[], es, rfl, hes⟩
        · rw [update_of_ne ha] at hf₁
          refine Or.inl ⟨hf₁, ?_⟩
          rintro e (_ | ⟨_, he⟩)
          · exact fun h => ha h.symm
          · exact hes e he
      | take a' b' =>
        change (if f a' = some b' then some (update f a' none) else none) = some f₁ at h₁
        split_ifs at h₁
        cases h₁
        by_cases ha : a = a'
        · subst ha
          rw [update_self] at hf₁
          cases hf₁
        · rw [update_of_ne ha] at hf₁
          refine Or.inl ⟨hf₁, ?_⟩
          rintro e (_ | ⟨_, he⟩)
          · exact fun h => ha h.symm
          · exact hes e he
    · exact Or.inr ⟨e :: es₁, es₂, rfl, hes₂⟩

/-- What is taken was put there, and nothing happened to the place in between. -/
theorem put_of_take {g : α → Option β} {es es' : List (DepositEvent α β)}
    (h : (depositSystem α β).exec (fun _ => none) (es ++ .take a b :: es') = some g) :
  ∃ es₁ es₂, es = es₁ ++ .put a b :: es₂ ∧ ∀ e ∈ es₂, e.place ≠ a
  := by
  rw [TransitionSystem.exec_append] at h
  obtain ⟨f, hf, h⟩ := Option.bind_eq_some_iff.mp h
  obtain ⟨f₁, h₁, _⟩ := TransitionSystem.exec_cons_iff.mp h
  change (if f a = some b then some (update f a none) else none) = some f₁ at h₁
  split_ifs at h₁ with hfa
  rcases deposit_of_exec hf hfa with ⟨hnone, _⟩ | hput
  · cases hnone
  · exact hput
