import Mathlib.Algebra.BigOperators.Group.Finset.Basic
import Mathlib.Algebra.Order.BigOperators.Group.Finset
import Mathlib.Tactic

/-!
# Counting over threads

`tally f t` is the sum of `f` over the states `t` of finitely many threads.  When one thread
moves, the tally changes by what that thread contributes.
-/

universe u v

variable {P : Type u} {K : Type v} [Fintype P]

/-- The sum of `f` over the threads. -/
def tally (f : K → ℕ) (t : P → K) : ℕ := ∑ p, f (t p)

variable {f g : K → ℕ} {t t' : P → K} {p : P} {k : K}

theorem tally_congr (h : ∀ p, f (t' p) = f (t p)) : tally f t' = tally f t :=
  Finset.sum_congr rfl (fun p _ => h p)

theorem le_tally (f : K → ℕ) (t : P → K) (p : P) : f (t p) ≤ tally f t :=
  Finset.single_le_sum (f := fun q => f (t q)) (fun _ _ => Nat.zero_le _) (Finset.mem_univ p)

theorem tally_eq_zero : tally f t = 0 ↔ ∀ p, f (t p) = 0 := by
  simp [tally]

/-- A positive tally has a thread that contributes. -/
theorem exists_of_tally_pos (h : 0 < tally f t) : ∃ p, 0 < f (t p) := by
  by_contra hnone
  have hzero : tally f t = 0 := by
    apply tally_eq_zero.mpr
    intro p
    by_contra hp
    apply hnone
    use p
    omega
  omega

theorem tally_le_mul {n : ℕ} (h : ∀ p, f (t p) ≤ n * g (t p)) : tally f t ≤ n * tally g t := by
  unfold tally
  rw [Finset.mul_sum]
  apply Finset.sum_le_sum
  intro p _
  apply h p

variable [DecidableEq P]

/-- One thread moves. -/
theorem tally_update (f : K → ℕ) (t : P → K) (p : P) (k : K) :
  tally f (Function.update t p k) + f (t p) = tally f t + f k
  := by
  have hsplit := Finset.add_sum_erase Finset.univ (fun q => f (t q)) (Finset.mem_univ p)
  have hsplit' := Finset.add_sum_erase Finset.univ (fun q => f (Function.update t p k q))
    (Finset.mem_univ p)
  have hrest : ∑ q ∈ Finset.univ.erase p, f (Function.update t p k q)
      = ∑ q ∈ Finset.univ.erase p, f (t q) := by
    apply Finset.sum_congr rfl
    intro q hq
    rw [Function.update_of_ne (Finset.ne_of_mem_erase hq)]
  rw [Function.update_self, hrest] at hsplit'
  unfold tally
  omega

/-- One thread moves without a change of what it contributes. -/
theorem tally_update_of_eq (h : f k = f (t p)) : tally f (Function.update t p k) = tally f t := by
  have := tally_update f t p k
  omega
