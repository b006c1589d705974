import Mathlib.Tactic

/-!
# Ring buffers with wrapping counters

A ring has `N` places, and counts what was put into it and taken out of it modulo `M`.  When
`N` divides `M` and is smaller, the counters tell a full ring from an empty one however often
they wrap around, and the ring is a queue: what was taken out is an initial segment of what was
put in (`Streams`).
-/

universe u

variable {α : Type u}

/-- A ring buffer with its two counters. -/
structure RingBuffer (α : Type u) where
  data : ℕ → α
  nread : ℕ
  nwrite : ℕ

namespace RingBuffer

open Function

variable (N M : ℕ)

/-- Nothing can be taken out. -/
def Empty (r : RingBuffer α) : Prop := r.nread = r.nwrite

instance (r : RingBuffer α) : Decidable r.Empty := inferInstanceAs (Decidable (_ = _))

/-- There is no place left. -/
def Full (r : RingBuffer α) : Prop := r.nwrite = (r.nread + N) % M

instance (r : RingBuffer α) : Decidable (r.Full N M) := inferInstanceAs (Decidable (_ = _))

/-- What is taken out next. -/
def front (r : RingBuffer α) : α := r.data (r.nread % N)

def push (r : RingBuffer α) (a : α) : RingBuffer α where
  data := update r.data (r.nwrite % N) a
  nread := r.nread
  nwrite := (r.nwrite + 1) % M

def pop (r : RingBuffer α) : RingBuffer α where
  data := r.data
  nread := (r.nread + 1) % M
  nwrite := r.nwrite

/-- Take back what was put in last. -/
def unpush (r : RingBuffer α) : RingBuffer α where
  data := r.data
  nread := r.nread
  nwrite := (r.nwrite + (M - 1)) % M

/-- The elements at `len` places from place `i` on. -/
def segment (r : RingBuffer α) (i len : ℕ) : List α :=
  (List.range len).map fun k => r.data ((i + k) % N)

/-- The ring after `stored` has been put in and `taken` has been taken out. -/
structure Streams (r : RingBuffer α) (stored taken : List α) : Prop where
  nwrite : r.nwrite = stored.length % M
  nread : r.nread = taken.length % M
  room : stored.length ≤ taken.length + N
  initial : taken <+: stored
  data : ∀ k (hk : k < stored.length), taken.length ≤ k → r.data (k % N) = stored[k]

namespace Streams

variable {N M} {r : RingBuffer α} {stored taken : List α}

section

variable (h : r.Streams N M stored taken)

include h

theorem le : taken.length ≤ stored.length := h.initial.length_le

/-- The number of elements in the ring, computed from the counters. -/
theorem count (hNM : N < M) : (r.nwrite + M - r.nread) % M = stored.length - taken.length := by
  have hle := h.le
  have hroom := h.room
  have hM : 0 < M := Nat.lt_of_le_of_lt (Nat.zero_le N) hNM
  have hlt : taken.length % M < M := Nat.mod_lt _ hM
  obtain ⟨d, hd⟩ := Nat.exists_eq_add_of_le hle
  have hsub : (taken.length + d) % M + M - taken.length % M
      = (taken.length % M + d) % M + M - taken.length % M := by
    rw [Nat.mod_add_mod]
  rw [h.nwrite, h.nread, hd, hsub, Nat.add_sub_cancel_left]
  rcases Nat.lt_or_ge (taken.length % M + d) M with hno | hwrap
  · rw [Nat.mod_eq_of_lt hno]
    have : taken.length % M + d + M - taken.length % M = d + M := by omega
    rw [this, Nat.add_mod_right]
    exact Nat.mod_eq_of_lt (by omega)
  · have honce : (taken.length % M + d) % M = taken.length % M + d - M := by
      rw [Nat.mod_eq_sub_mod hwrap]
      exact Nat.mod_eq_of_lt (by omega)
    have : taken.length % M + d - M + M - taken.length % M = d := by omega
    rw [honce, this]
    exact Nat.mod_eq_of_lt (by omega)

theorem empty_iff (hNM : N < M) : r.Empty ↔ taken.length = stored.length := by
  have hcount := h.count hNM
  have hle := h.le
  have hroom := h.room
  unfold Empty
  constructor
  · intro heq
    rw [heq, Nat.add_sub_cancel_left, Nat.mod_self] at hcount
    omega
  · intro heq
    rw [h.nread, h.nwrite, heq]

theorem full_iff (hNM : N < M) : r.Full N M ↔ stored.length = taken.length + N := by
  have hle := h.le
  have hroom := h.room
  unfold Full
  rw [h.nread, h.nwrite, Nat.mod_add_mod]
  constructor
  · intro heq
    -- two numbers at most `N` apart that agree modulo `M` are equal
    have hmod : stored.length ≡ taken.length + N [MOD M] := heq
    obtain ⟨d, hd⟩ := Nat.exists_eq_add_of_le hroom
    rw [hd] at hmod
    have hdvd : M ∣ d := by
      have := (Nat.modEq_iff_dvd' (Nat.le_add_right stored.length d)).mp hmod
      rwa [Nat.add_sub_cancel_left] at this
    have hzero : d = 0 := Nat.eq_zero_of_dvd_of_lt hdvd (by omega)
    omega
  · intro heq
    rw [heq]

/-- Putting an element into a ring that is not full. -/
theorem push (hdvd : N ∣ M) (hNM : N < M)
    (hfull : ¬ r.Full N M) (a : α) :
  (r.push N M a).Streams N M (stored ++ [a]) taken
  := by
  have hplace : stored.length < taken.length + N := by
    apply Nat.lt_of_le_of_ne h.room
    intro heq
    exact hfull ((h.full_iff hNM).mpr heq)
  have hindex : r.nwrite % N = stored.length % N := by
    rw [h.nwrite, Nat.mod_mod_of_dvd _ hdvd]
  refine ⟨?_, h.nread, ?_, h.initial.trans (List.prefix_append _ _), ?_⟩
  · simp only [RingBuffer.push, h.nwrite, List.length_append, List.length_singleton, Nat.mod_add_mod]
  · rw [List.length_append, List.length_singleton]
    omega
  · intro k hk hle
    simp only [RingBuffer.push, hindex]
    rw [List.length_append, List.length_singleton] at hk
    rcases Nat.lt_or_ge k stored.length with hold | hnew
    · -- an older element is at another place, less than `N` before the new one
      have hne : k % N ≠ stored.length % N := by
        intro heq
        have hdiff := (Nat.modEq_iff_dvd' (Nat.le_of_lt hold)).mp heq
        have := Nat.le_of_dvd (by omega) hdiff
        omega
      rw [update_of_ne hne, List.getElem_append_left hold]
      exact h.data k hold hle
    · obtain rfl : k = stored.length := by omega
      rw [update_self, List.getElem_concat_length rfl]

/-- Taking an element out of a ring that is not empty. -/
theorem pop (hdvd : N ∣ M) (hNM : N < M) (hempty : ¬ r.Empty) :
  (r.pop M).Streams N M stored (taken ++ [r.front N])
  := by
  have hlt : taken.length < stored.length := by
    apply Nat.lt_of_le_of_ne h.le
    intro heq
    exact hempty ((h.empty_iff hNM).mpr heq)
  have hfront : r.front N = stored[taken.length] := by
    unfold front
    rw [h.nread, Nat.mod_mod_of_dvd _ hdvd]
    exact h.data _ hlt (Nat.le_refl _)
  have hroom := h.room
  refine ⟨h.nwrite, ?_, ?_, ?_, ?_⟩
  · simp only [RingBuffer.pop, h.nread, List.length_append, List.length_singleton, Nat.mod_add_mod]
  · rw [List.length_append, List.length_singleton]
    omega
  · rw [hfront, List.prefix_iff_eq_take, List.length_append, List.length_singleton,
      List.take_succ_eq_append_getElem hlt, ← List.prefix_iff_eq_take.mp h.initial]
  · intro k hk hle
    rw [List.length_append, List.length_singleton] at hle
    exact h.data k hk (by omega)

end

/-- Taking back an element that has not been taken out. -/
theorem unpush {a : α} (h : r.Streams N M (stored ++ [a]) taken) (hM : 0 < M)
    (hle : taken.length ≤ stored.length) :
  (r.unpush M).Streams N M stored taken
  := by
  have hroom := h.room
  rw [List.length_append, List.length_singleton] at hroom
  refine ⟨?_, h.nread, by omega, ?_, ?_⟩
  · simp only [RingBuffer.unpush, h.nwrite, List.length_append, List.length_singleton, Nat.mod_add_mod]
    have : stored.length + 1 + (M - 1) = stored.length + M := by omega
    rw [this, Nat.add_mod_right]
  · exact List.prefix_of_prefix_length_le h.initial (List.prefix_append _ _) hle
  · intro k hk hkt
    have hlt : k < (stored ++ [a]).length := by
      rw [List.length_append]
      omega
    have := h.data k hlt hkt
    rwa [List.getElem_append_left hk] at this

/-- The places behind what was taken out hold what was put in. -/
theorem segment (h : r.Streams N M stored taken) (hdvd : N ∣ M) {i len : ℕ}
    (hi : taken.length ≤ i) (hlen : i + len ≤ stored.length) :
  r.segment N (i % M) len = (stored.drop i).take len
  := by
  apply List.ext_getElem
  · simp only [RingBuffer.segment, List.length_map, List.length_range, List.length_take,
      List.length_drop]
    omega
  · intro k hk _
    simp only [RingBuffer.segment, List.length_map, List.length_range] at hk
    have hindex : (i % M + k) % N = (i + k) % N := by
      rw [Nat.add_mod, Nat.mod_mod_of_dvd _ hdvd, ← Nat.add_mod]
    simp only [RingBuffer.segment, List.getElem_map, List.getElem_range, List.getElem_take,
      List.getElem_drop, hindex]
    exact h.data (i + k) (by omega) (by omega)

end Streams

/-- A new ring. -/
theorem streams_nil {r : RingBuffer α} (hnread : r.nread = 0) (hnwrite : r.nwrite = 0) :
  r.Streams N M [] []
  := by
  refine ⟨?_, ?_, Nat.zero_le _, List.nil_prefix, ?_⟩
  · rw [hnwrite, List.length_nil, Nat.zero_mod]
  · rw [hnread, List.length_nil, Nat.zero_mod]
  · intro k hk
    exact absurd hk (Nat.not_lt_zero k)

end RingBuffer
