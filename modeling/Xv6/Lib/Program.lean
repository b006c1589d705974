import Xv6.Lib.Heap

/-!
# Programs over a pool of cells

A program takes cells from a pool, gives them back, and reads and changes the contents of
cells.  It may panic, and it may fail to return.  Run in a heap (`wp`), a program may take
any cell of the pool that is not in the heap; it may use and give back only cells of the
heap.  The mode says whether it may also be refused a cell, and whether it may panic.

A triple `Triple pool m A c B` says that in every heap with a part that has property `A`, the
program `c` returns, or panics if the mode allows that, and leaves the rest of the heap as it
is and in place of that part one with property `B`.
-/

/-- Programs over cells `P` with contents `F`. -/
inductive Prog (P F α : Type) : Type where
  | ret (a : α)
  | panic (message : String)
  /-- The program does not return. -/
  | diverge
  /-- Take a cell from the pool. -/
  | alloc (k : Option P → Prog P F α)
  /-- Give a cell back. -/
  | free (p : P) (k : Prog P F α)
  /-- Read a cell. -/
  | load (p : P) (k : F → Prog P F α)
  /-- Change the contents of a cell. -/
  | modify (p : P) (g : F → F) (k : Prog P F α)

open Function

namespace Prog

variable {P F α β γ : Type}

/-- One program after another. -/
def bind : Prog P F α → (α → Prog P F β) → Prog P F β
  | ret a, c => c a
  | panic message, _ => panic message
  | diverge, _ => diverge
  | alloc k, c => alloc fun r => (k r).bind c
  | free p k, c => free p (k.bind c)
  | load p k, c => load p fun f => (k f).bind c
  | modify p g k, c => modify p g (k.bind c)

instance : Monad (Prog P F) where
  pure := ret
  bind := bind

theorem bind_ret (c : Prog P F α) : c.bind ret = c := by
  induction c with
  | ret | panic | diverge => rfl
  | alloc k ih => exact congrArg alloc (funext ih)
  | free p k ih => exact congrArg (free p) ih
  | load p k ih => exact congrArg (load p) (funext ih)
  | modify p g k ih => exact congrArg (modify p g) ih

theorem bind_bind (c : Prog P F α) (d : α → Prog P F β) (e : β → Prog P F γ) :
  (c.bind d).bind e = c.bind fun a => (d a).bind e
  := by
  induction c with
  | ret | panic | diverge => rfl
  | alloc k ih => exact congrArg alloc (funext ih)
  | free p k ih => exact congrArg (free p) ih
  | load p k ih => exact congrArg (load p) (funext ih)
  | modify p g k ih => exact congrArg (modify p g) ih

instance : LawfulMonad (Prog P F) :=
  LawfulMonad.mk' (Prog P F) bind_ret (fun _ _ => rfl) bind_bind

/-- Take a cell from the pool. -/
def take : Prog P F (Option P) := alloc ret

/-- Give a cell back. -/
def give (p : P) : Prog P F Unit := free p (ret ())

/-- The contents of a cell. -/
def read (p : P) : Prog P F F := load p ret

/-- Change the contents of a cell. -/
def write (p : P) (g : F → F) : Prog P F Unit := modify p g (ret ())

/-! ### Running a program in a heap -/

/-- What may happen to a program. -/
structure Mode where
  /-- It may be refused a cell. -/
  oom : Prop
  /-- It may panic. -/
  panics : Prop

variable [DecidableEq P]

/-- Run in the heap, the program returns, and the postcondition holds of what it returns and
of the heap it leaves. -/
def wp (pool : Finset P) (m : Mode) : Prog P F α → (α → Heap P F → Prop) → Heap P F → Prop
  | ret a, Q, h => Q a h
  | panic _, _, _ => m.panics
  | diverge, _, _ => False
  | alloc k, Q, h =>
    (m.oom → wp pool m (k none) Q h)
      ∧ ∀ p ∈ pool, h p = none → ∀ f, wp pool m (k (some p)) Q (update h p (some f))
  | free p k, Q, h => h p ≠ none ∧ wp pool m k Q (update h p none)
  | load p k, Q, h => ∃ f, h p = some f ∧ wp pool m (k f) Q h
  | modify p g k, Q, h =>
    ∃ f, h p = some f ∧ wp pool m k Q (update h p (some (g f)))

variable {pool : Finset P} {m : Mode} {c : Prog P F α} {h : Heap P F} {d : α → Prog P F β}

theorem wp_bind_mono {Q : α → Heap P F → Prop}
    {Q' : β → Heap P F → Prop} (hwp : c.wp pool m Q h) (hd : ∀ a h, Q a h → (d a).wp pool m Q' h) :
  (c.bind d).wp pool m Q' h
  := by
  induction c generalizing h with
  | ret a => exact hd a h hwp
  | panic message => exact hwp
  | diverge => exact hwp
  | alloc k ih => exact ⟨fun hoom => ih none (hwp.1 hoom), fun p hp hn f => ih _ (hwp.2 p hp hn f)⟩
  | free p k ih => exact ⟨hwp.1, ih hwp.2⟩
  | load p k ih =>
    obtain ⟨f, hf, hk⟩ := hwp
    exact ⟨f, hf, ih f hk⟩
  | modify p g k ih =>
    obtain ⟨f, hf, hk⟩ := hwp
    exact ⟨f, hf, ih hk⟩

theorem wp_mono {Q Q' : α → Heap P F → Prop} (hwp : c.wp pool m Q h) (hQ : ∀ a h, Q a h → Q' a h) :
  c.wp pool m Q' h
  := by
  rw [← c.bind_ret]
  exact wp_bind_mono hwp hQ

theorem wp_bind {Q : β → Heap P F → Prop} (hwp : c.wp pool m (fun a => (d a).wp pool m Q) h) :
  (c >>= d).wp pool m Q h
  := wp_bind_mono hwp fun _ _ h => h

end Prog

/-! ### Triples -/

open Assertion

variable {P F α β : Type} [DecidableEq P] {p : P}

/-- Only cells of the pool are owned. -/
def InPool (pool : Finset P) (h : Heap P F) : Prop := ∀ p, h p ≠ none → p ∈ pool

theorem InPool.update {pool : Finset P} {h : Heap P F} (hh : InPool pool h) (hp : p ∈ pool)
    (r : Option F) :
  InPool pool (update h p r)
  := by
  intro q hq
  by_cases hqp : q = p
  · subst hqp
    exact hp
  · rw [update_of_ne hqp] at hq
    exact hh q hq

/-- In every heap with a part that has property `A`, the program returns and leaves one with
property `B` in its place. -/
structure Triple (pool : Finset P) (m : Prog.Mode) (A : Assertion P F) (c : Prog P F α)
    (B : α → Assertion P F) : Prop where
  run : ∀ (R : Assertion P F) (h : Heap P F), InPool pool h → (A * R) h →
    c.wp pool m (fun a h' => InPool pool h' ∧ (B a * R) h') h

namespace Triple

variable {pool : Finset P} {m : Prog.Mode} {A A' R : Assertion P F} {B B' : α → Assertion P F}
  {c : Prog P F α}

theorem ret (a : α) (h : A ≤ B a) : Triple pool m A (Prog.ret a) B :=
  ⟨fun _ h' hin hA => ⟨hin, mul_le_mul_left h _ h' hA⟩⟩

theorem panic (message : String) (h : m.panics) : Triple pool m A (Prog.panic message) B :=
  ⟨fun _ _ _ _ => h⟩

variable {C : β → Assertion P F} {d : Unit → Prog P F β} {f : F} {φ : Prop}

theorem bind {d : α → Prog P F β} (hc : Triple pool m A c B)
    (hd : ∀ a, Triple pool m (B a) (d a) C) :
  Triple pool m A (c >>= d) C
  := by
  constructor
  intro R h hin hA
  apply Prog.wp_bind
  apply Prog.wp_mono (hc.run R h hin hA)
  intro a h' hB
  exact (hd a).run R h' hB.1 hB.2

section

variable (h : Triple pool m A c B)

include h

/-- A weaker postcondition, and a stronger precondition. -/
theorem conseq (hA : A' ≤ A) (hB : ∀ a, B a ≤ B' a) : Triple pool m A' c B' := by
  constructor
  intro R h' hin hA'
  apply Prog.wp_mono (h.run R h' hin (mul_le_mul_left hA R h' hA'))
  intro a h'' hB'
  exact ⟨hB'.1, mul_le_mul_left (hB a) R h'' hB'.2⟩

theorem pre (hA : A' ≤ A) : Triple pool m A' c B :=
  h.conseq hA fun _ => le_refl _

theorem post (hB : ∀ a, B a ≤ B' a) : Triple pool m A c B' :=
  h.conseq (le_refl A) hB

/-- The rest of the heap stays as it is. -/
theorem frame (R : Assertion P F) : Triple pool m (A * R) c (fun a => B a * R) := by
  constructor
  intro R' h' hin hA
  rw [mul_assoc] at hA
  apply Prog.wp_mono (h.run (R * R') h' hin hA)
  intro a h'' hB
  rw [mul_assoc]
  exact hB

end

theorem ex {ι : Sort*} {A : ι → Assertion P F} (h : ∀ i, Triple pool m (A i) c B) :
  Triple pool m (Assertion.ex A) c B
  := by
  constructor
  intro R h' hin hA
  rw [ex_mul] at hA
  obtain ⟨i, hA⟩ := hA
  exact (h i).run R h' hin hA

theorem fact (h : φ → Triple pool m A c B) : Triple pool m (Assertion.fact φ * A) c B := by
  constructor
  intro R h' hin hA
  rw [mul_assoc, fact_mul_iff] at hA
  exact (h hA.1).run R h' hin hA.2

/-- What holds of every heap with the property may be assumed. -/
theorem assuming (hφ : ∀ (R : Assertion P F) h, InPool pool h → (A * R) h → φ)
    (h : φ → Triple pool m A c B) :
  Triple pool m A c B
  := ⟨fun R h' hin hA => (h (hφ R h' hin hA)).run R h' hin hA⟩

/-- A cell that is owned is in the pool. -/
theorem mem_pool (h : p ∈ pool → Triple pool m (single p f * A) c B) :
  Triple pool m (single p f * A) c B
  := by
  apply assuming _ h
  intro R h' hin hA
  rw [mul_assoc] at hA
  apply hin
  rw [owned_of_single hA]
  exact Option.some_ne_none f

/-- After a program that has been proved correct. -/
theorem call {d : α → Prog P F β} (hc : Triple pool m A c B)
    (hd : ∀ a, Triple pool m (B a * R) (d a) C) :
  Triple pool m (A * R) (c >>= d) C
  := (hc.frame R).bind hd

theorem take {d : Option P → Prog P F β}
    (hnone : m.oom → Triple pool m A (d none) C)
    (hsome : ∀ p ∈ pool, ∀ f, Triple pool m (single p f * A) (d (some p)) C) :
  Triple pool m A (Prog.take >>= d) C
  := by
  constructor
  intro R h hin hA
  refine ⟨fun hoom => (hnone hoom).run R h hin hA, ?_⟩
  intro p hp hn f
  apply (hsome p hp f).run R _ (hin.update hp _)
  rw [mul_assoc]
  exact single_alloc hn hA

theorem give (h : Triple pool m A (d ()) C) :
  Triple pool m (single p f * A) (Prog.give p >>= d) C
  := by
  apply mem_pool
  intro hp
  constructor
  intro R h' hin hA
  rw [mul_assoc] at hA
  refine ⟨?_, h.run R _ (hin.update hp _) (single_free hA)⟩
  rw [owned_of_single hA]
  exact Option.some_ne_none f

theorem read {d : F → Prog P F β} (h : Triple pool m (single p f * A) (d f) C) :
  Triple pool m (single p f * A) (Prog.read p >>= d) C
  := by
  constructor
  intro R h' hin hA
  refine ⟨f, ?_, h.run R h' hin hA⟩
  rw [mul_assoc] at hA
  exact owned_of_single hA

theorem write {g : F → F} (h : Triple pool m (single p (g f) * A) (d ()) C) :
  Triple pool m (single p f * A) (Prog.write p g >>= d) C
  := by
  apply mem_pool
  intro hp
  constructor
  intro R h' hin hA
  rw [mul_assoc] at hA
  refine ⟨f, owned_of_single hA, h.run R _ (hin.update hp _) ?_⟩
  rw [mul_assoc]
  exact single_update hA

end Triple
