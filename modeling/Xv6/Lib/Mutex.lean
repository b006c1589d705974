import Xv6.Lib.Update

/-!
# Locks and program counters

Threads stand at program counters, some of which lie inside the critical section of a
lock.  `Guards h f pc` says that `h` is the holder of the lock: the one thread that stands
inside, or none.  Moving one thread keeps this when the thread stays on its side of the
boundary, enters while nobody holds the lock, or leaves.
-/

universe u v

variable {P : Type u} {K : Type v}

/-- The threads that stand where `f` holds are those that hold the lock. -/
def Guards (h : Option P) (f : K → Prop) (pc : P → K) : Prop :=
  ∀ p, h = some p ↔ f (pc p)

namespace Guards

open Function

variable {h : Option P} {f : K → Prop} {pc : P → K} {p q : P} {k : K}

/-- Two threads inside are the same thread. -/
theorem eq (hg : Guards h f pc) (hp : f (pc p)) (hq : f (pc q)) :
  p = q
  := by
  have h1 := (hg p).mpr hp
  have h2 := (hg q).mpr hq
  rw [h1] at h2
  apply Option.some.inj h2

/-- Nobody is inside while the lock is free. -/
theorem not_inside (hg : Guards none f pc) (p : P) :
  ¬ f (pc p)
  := by
  intro hp
  cases (hg p).mpr hp

variable [DecidableEq P]

theorem keep (hg : Guards h f pc) (hk : f k ↔ f (pc p)) :
  Guards h f (update pc p k)
  := by
  intro q
  refine update_cases q ?_ (fun _ => hg q)
  rw [hk]
  apply hg

theorem acquire (hg : Guards none f pc) (hk : f k) :
  Guards (some p) f (update pc p k)
  := by
  intro q
  refine update_cases q ?_ ?_
  · simpa using hk
  · intro hq
    constructor
    · intro h
      apply absurd (Option.some.inj h).symm hq
    · intro h
      apply absurd h (hg.not_inside q)

theorem release (hg : Guards h f pc) (hp : f (pc p)) (hk : ¬ f k) :
  Guards none f (update pc p k)
  := by
  intro q
  refine update_cases q ?_ ?_
  · simpa using hk
  · intro hq
    constructor
    · intro h
      cases h
    · intro h
      apply absurd (hg.eq h hp) hq

variable {α : Type*} [DecidableEq α] {holder : α → Option P} {g : α → K → Prop}
  (hg : ∀ a, Guards (holder a) (g a) pc) {a : α}

include hg

/-- A family of locks, one of which is acquired. -/
theorem acquire_at (ha : holder a = none)
    (hp : ∀ b, b ≠ a → (g b k ↔ g b (pc p))) (hk : g a k) (b : α) :
  Guards (update holder a (some p) b) (g b) (update pc p k)
  := by
  refine update_cases b ?_ (fun hb => (hg b).keep (hp b hb))
  apply acquire _ hk
  rw [← ha]
  apply hg

/-- A family of locks, one of which is released. -/
theorem release_at (ha : g a (pc p))
    (hp : ∀ b, b ≠ a → (g b k ↔ g b (pc p))) (hk : ¬ g a k) (b : α) :
  Guards (update holder a none b) (g b) (update pc p k)
  := by
  exact update_cases b ((hg a).release ha hk) (fun hb => (hg b).keep (hp b hb))

end Guards
