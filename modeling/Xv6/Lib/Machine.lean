import Xv6.Lib.Program

/-!
# A machine that runs programs

The machine has a memory and a list of the cells that are free.  Taking a cell takes the
first of the list, and is refused when the list is empty; a cell that is given back is put
in front.  A program takes one step after another (`step`), so that several programs can
take turns, or runs to the end (`exec`).

A program that runs in a heap according to `wp` runs on the machine as well, as long as the
heap is part of the memory and has none of the free cells (`step_sound`, `exec_sound`).  What
it owns and what is free is the same in the end as before, taken together, and all other
cells are left alone.
-/

/-- The memory of a machine and its free cells. -/
structure Store (P F : Type) where
  cell : P → F
  free : List P

open Function

namespace Prog

variable {P F α : Type} [DecidableEq P]

/-- One step of a program. -/
def step : Prog P F α → Store P F → Option (Prog P F α × Store P F)
  | ret _, _ => none
  | panic _, _ => none
  | diverge, _ => none
  | alloc k, s =>
    match s.free with
    | [] => some (k none, s)
    | p :: ps => some (k (some p), { s with free := ps })
  | free p k, s => some (k, { s with free := p :: s.free })
  | load p k, s => some (k (s.cell p), s)
  | modify p g k, s => some (k, { s with cell := update s.cell p (g (s.cell p)) })

/-- What a program returns, if it does not panic and returns, and the store it leaves. -/
def exec : Prog P F α → Store P F → Option (α × Store P F)
  | ret a, s => some (a, s)
  | panic _, _ => none
  | diverge, _ => none
  | alloc k, s =>
    match s.free with
    | [] => (k none).exec s
    | p :: ps => (k (some p)).exec { s with free := ps }
  | free p k, s => k.exec { s with free := p :: s.free }
  | load p k, s => (k (s.cell p)).exec s
  | modify p g k, s => k.exec { s with cell := update s.cell p (g (s.cell p)) }

/-- The program is refused no cell. -/
def Ample : Prog P F α → Store P F → Prop
  | ret _, _ => True
  | panic _, _ => True
  | diverge, _ => True
  | alloc k, s =>
    match s.free with
    | [] => False
    | p :: ps => (k (some p)).Ample { s with free := ps }
  | free p k, s => k.Ample { s with free := p :: s.free }
  | load p k, s => (k (s.cell p)).Ample s
  | modify p g k, s => k.Ample { s with cell := update s.cell p (g (s.cell p)) }

/-- Whether the program is refused a cell can be found by running it. -/
def decAmple : (c : Prog P F α) → (s : Store P F) → Decidable (c.Ample s)
  | ret _, _ => isTrue trivial
  | panic _, _ => isTrue trivial
  | diverge, _ => isTrue trivial
  | alloc k, ⟨_, []⟩ => isFalse id
  | alloc k, ⟨cell, p :: ps⟩ => (k (some p)).decAmple ⟨cell, ps⟩
  | free p k, s => k.decAmple { s with free := p :: s.free }
  | load p k, s => (k (s.cell p)).decAmple s
  | modify p g k, s => k.decAmple { s with cell := update s.cell p (g (s.cell p)) }

instance (c : Prog P F α) (s : Store P F) : Decidable (c.Ample s) := c.decAmple s

/-- Whatever the program returns has the property. -/
def Returns (Q : α → Prop) : Prog P F α → Prop
  | ret a => Q a
  | panic _ => True
  | diverge => True
  | alloc k => ∀ r, (k r).Returns Q
  | free _ k => k.Returns Q
  | load _ k => ∀ f, (k f).Returns Q
  | modify _ _ k => k.Returns Q

/-- What the program returns after it has been refused a cell has the property. -/
def Refused (Q : α → Prop) : Prog P F α → Prop
  | ret _ => True
  | panic _ => True
  | diverge => True
  | alloc k => (k none).Returns Q ∧ ∀ p, (k (some p)).Refused Q
  | free _ k => k.Refused Q
  | load _ k => ∀ f, (k f).Refused Q
  | modify _ _ k => k.Refused Q

variable {s s' : Store P F}

theorem exec_of_step {c c' : Prog P F α} (h : c.step s = some (c', s')) :
  c.exec s = c'.exec s'
  := by
  cases c with
  | ret | panic | diverge => cases h
  | alloc k =>
    obtain ⟨cell, _ | ⟨p, ps⟩⟩ := s
    · cases h
      rfl
    · cases h
      rfl
  | free p k | load p k | modify p g k =>
    cases h
    rfl

theorem Ample.step {c c' : Prog P F α} (ha : c.Ample s)
    (h : c.step s = some (c', s')) :
  c'.Ample s'
  := by
  cases c with
  | ret | panic | diverge => cases h
  | alloc k =>
    obtain ⟨cell, _ | ⟨p, ps⟩⟩ := s
    · exact False.elim ha
    · cases h
      exact ha
  | free p k | load p k | modify p g k =>
    cases h
    exact ha

/-! ### One program after another -/

variable {β : Type}

variable {c : Prog P F α} {d : α → Prog P F β}

/-- The second part runs on what the first part returns and leaves. -/
theorem exec_bind_eq (c : Prog P F α) (s : Store P F) :
  (c >>= d).exec s = (c.exec s).bind fun r => (d r.1).exec r.2
  := by
  change (c.bind d).exec s = _
  induction c generalizing s with
  | ret | panic | diverge => rfl
  | alloc k ih =>
    obtain ⟨cell, _ | ⟨p, ps⟩⟩ := s
    · exact ih none _
    · exact ih (some p) _
  | free p k ih | modify p g k ih => exact ih _
  | load p k ih => exact ih (s.cell p) s

theorem exec_bind {a : α}
    (h : c.exec s = some (a, s')) :
  (c >>= d).exec s = (d a).exec s'
  := by
  rw [exec_bind_eq, h]
  rfl

/-- What is returned in the end is returned after a first part. -/
theorem exec_of_bind {b : β}
    (h : (c >>= d).exec s = some (b, s')) :
  ∃ a s₁, c.exec s = some (a, s₁) ∧ (d a).exec s₁ = some (b, s')
  := by
  rw [exec_bind_eq] at h
  obtain ⟨⟨a, s₁⟩, hc, hd⟩ := Option.bind_eq_some_iff.mp h
  exact ⟨a, s₁, hc, hd⟩

theorem Ample.bind {s : Store P F} (hc : c.Ample s)
    (hd : ∀ a s', (d a).Ample s') :
  (c >>= d).Ample s
  := by
  change (c.bind d).Ample s
  induction c generalizing s with
  | ret a => exact hd a s
  | panic | diverge => trivial
  | alloc k ih =>
    obtain ⟨cell, _ | ⟨p, ps⟩⟩ := s
    · exact False.elim hc
    · exact ih (some p) hc
  | free p k ih => exact ih hc
  | load p k ih => exact ih (s.cell p) hc
  | modify p g k ih => exact ih hc

/-! ### Programs that are refused a cell -/

variable {Q : α → Prop} {Q' : β → Prop}

omit [DecidableEq P] in
theorem Returns.bind (hc : c.Returns Q)
    (hd : ∀ a, Q a → (d a).Returns Q') :
  (c >>= d).Returns Q'
  := by
  change (c.bind d).Returns Q'
  induction c with
  | ret a => exact hd a hc
  | panic | diverge => trivial
  | alloc k ih => exact fun r => ih r (hc r)
  | free p k ih => exact ih hc
  | load p k ih => exact fun f => ih f (hc f)
  | modify p g k ih => exact ih hc

omit [DecidableEq P] in
/-- A program that may return anything. -/
theorem returns_any (c : Prog P F α) : c.Returns fun _ => True := by
  induction c with
  | ret | panic | diverge => trivial
  | alloc k ih | free p k ih | load p k ih | modify p g k ih => exact ih

omit [DecidableEq P] in
theorem Refused.bind (hc : c.Refused Q)
    (hreturns : ∀ a, Q a → (d a).Returns Q') (hd : ∀ a, (d a).Refused Q') :
  (c >>= d).Refused Q'
  := by
  change (c.bind d).Refused Q'
  induction c with
  | ret a => exact hd a
  | panic | diverge => trivial
  | alloc k ih => exact ⟨Returns.bind hc.1 hreturns, fun p => ih (some p) (hc.2 p)⟩
  | free p k ih => exact ih hc
  | load p k ih => exact fun f => ih f (hc f)
  | modify p g k ih => exact ih hc

omit [DecidableEq P] in
/-- A program that takes no cells, and then another one. -/
theorem Refused.seq (hc : c.Refused fun _ => False)
    (hd : ∀ a, (d a).Refused Q') :
  (c >>= d).Refused Q'
  := hc.bind (fun _ h => h.elim) hd

/-- A program that is refused a cell and returns. -/
theorem Returns.exec (hc : c.Returns Q) {a : α}
    (h : c.exec s = some (a, s')) :
  Q a
  := by
  induction c generalizing s with
  | ret b =>
    cases h
    exact hc
  | panic | diverge => cases h
  | alloc k ih =>
    obtain ⟨cell, _ | ⟨p, ps⟩⟩ := s
    · exact ih none (hc none) h
    · exact ih (some p) (hc (some p)) h
  | free p k ih => exact ih hc h
  | load p k ih => exact ih _ (hc _) h
  | modify p g k ih => exact ih hc h

theorem Refused.exec (hc : c.Refused Q) {a : α}
    (h : c.exec s = some (a, s')) :
  c.Ample s ∨ Q a
  := by
  induction c generalizing s with
  | ret b => exact Or.inl trivial
  | panic | diverge => cases h
  | alloc k ih =>
    obtain ⟨cell, _ | ⟨p, ps⟩⟩ := s
    · exact Or.inr (Returns.exec hc.1 h)
    · exact ih (some p) (hc.2 p) h
  | free p k ih => exact ih hc h
  | load p k ih => exact ih _ (hc _) h
  | modify p g k ih => exact ih hc h

end Prog

/-! ### Heaps in a memory -/

variable {P F α : Type} [DecidableEq P] {pool : Finset P} {m : Prog.Mode}

/-- The heap is part of the memory, and the free cells are others, each of them listed once. -/
structure Holds (pool : Finset P) (s : Store P F) (h : Heap P F) : Prop where
  cells : ∀ p f, h p = some f → s.cell p = f
  apart : ∀ p ∈ s.free, h p = none
  nodup : s.free.Nodup
  mem_pool : ∀ p ∈ s.free, p ∈ pool

/-- What is owned or free is so afterwards, and nothing else is touched. -/
structure Conserves (s s' : Store P F) (h h' : Heap P F) : Prop where
  owned : ∀ p, h' p ≠ none ∨ p ∈ s'.free ↔ h p ≠ none ∨ p ∈ s.free
  outside : ∀ p, h p = none → p ∉ s.free → s'.cell p = s.cell p

namespace Conserves

variable {s s₁ s' : Store P F} {h h₁ h' : Heap P F}

omit [DecidableEq P] in
theorem refl (s : Store P F) (h : Heap P F) : Conserves s s h h :=
  ⟨fun _ => Iff.rfl, fun _ _ _ => rfl⟩

omit [DecidableEq P] in
theorem trans (hc : Conserves s s₁ h h₁) (hc' : Conserves s₁ s' h₁ h') : Conserves s s' h h' where
  owned p := (hc'.owned p).trans (hc.owned p)
  outside p hp hfree := by
    have hnot : ¬ (h₁ p ≠ none ∨ p ∈ s₁.free) := by
      rw [hc.owned p]
      rintro (hn | hn)
      · exact hn hp
      · exact hfree hn
    push Not at hnot
    rw [hc'.outside p hnot.1 hnot.2, hc.outside p hp hfree]

end Conserves

namespace Holds

variable {s : Store P F} {h : Heap P F} {p : P}

/-- The first free cell is taken. -/
theorem take {ps : List P} (hs : Holds pool s h) (hfree : s.free = p :: ps) :
  Holds pool { s with free := ps } (update h p (some (s.cell p)))
    ∧ Conserves s { s with free := ps } h (update h p (some (s.cell p)))
  := by
  have hnodup := hs.nodup
  rw [hfree, List.nodup_cons] at hnodup
  have hmem : ∀ q ∈ ps, q ∈ s.free := by
    intro q hq
    rw [hfree]
    exact List.mem_cons_of_mem p hq
  constructor
  · constructor
    · intro q f hq
      by_cases hqp : q = p
      · subst hqp
        rw [update_self] at hq
        exact Option.some.inj hq
      · rw [update_of_ne hqp] at hq
        exact hs.cells q f hq
    · intro q hq
      have hqp : q ≠ p := by
        rintro rfl
        exact hnodup.1 hq
      rw [update_of_ne hqp]
      exact hs.apart q (hmem q hq)
    · exact hnodup.2
    · exact fun q hq => hs.mem_pool q (hmem q hq)
  · refine ⟨?_, fun _ _ _ => rfl⟩
    intro q
    rw [hfree, List.mem_cons]
    by_cases hqp : q = p
    · subst hqp
      simp
    · rw [update_of_ne hqp]
      simp [hqp]

/-- A cell of the heap is given back. -/
theorem give (hs : Holds pool s h) (hp : h p ≠ none) (hpool : p ∈ pool) :
  Holds pool { s with free := p :: s.free } (update h p none)
    ∧ Conserves s { s with free := p :: s.free } h (update h p none)
  := by
  constructor
  · constructor
    · intro q f hq
      by_cases hqp : q = p
      · subst hqp
        rw [update_self] at hq
        cases hq
      · rw [update_of_ne hqp] at hq
        exact hs.cells q f hq
    · intro q hq
      by_cases hqp : q = p
      · subst hqp
        rw [update_self]
      · rw [update_of_ne hqp]
        exact hs.apart q ((List.mem_cons.mp hq).resolve_left hqp)
    · exact List.nodup_cons.mpr ⟨fun hn => hp (hs.apart p hn), hs.nodup⟩
    · intro q hq
      rcases List.mem_cons.mp hq with rfl | hq
      · exact hpool
      · exact hs.mem_pool q hq
  · refine ⟨?_, fun _ _ _ => rfl⟩
    intro q
    by_cases hqp : q = p
    · subst hqp
      simp [hp]
    · rw [update_of_ne hqp]
      simp [hqp]

/-- A cell of the heap is changed. -/
theorem set {f : F} (hs : Holds pool s h) (hp : h p = some f) (g : F → F) :
  Holds pool { s with cell := update s.cell p (g (s.cell p)) }
      (update h p (some (g f)))
    ∧ Conserves s { s with cell := update s.cell p (g (s.cell p)) } h
      (update h p (some (g f)))
  := by
  have hne : h p ≠ none := by
    rw [hp]
    exact Option.some_ne_none f
  constructor
  · constructor
    · intro q f' hq
      dsimp only
      by_cases hqp : q = p
      · subst hqp
        rw [update_self] at hq ⊢
        rw [hs.cells q f hp]
        exact Option.some.inj hq
      · rw [update_of_ne hqp] at hq ⊢
        exact hs.cells q f' hq
    · intro q hq
      have hqp : q ≠ p := by
        rintro rfl
        exact hne (hs.apart q hq)
      rw [update_of_ne hqp]
      exact hs.apart q hq
    · exact hs.nodup
    · exact hs.mem_pool
  · constructor
    · intro q
      by_cases hqp : q = p
      · subst hqp
        simp [hp]
      · rw [update_of_ne hqp]
    · intro q hq _
      have hqp : q ≠ p := by
        rintro rfl
        exact hne hq
      exact update_of_ne hqp _ _

end Holds

variable {Q : α → Heap P F → Prop} {h : Heap P F}

/-- A step of a program on the machine is a step in the heap. -/
theorem Prog.step_sound {c c' : Prog P F α} {s s' : Store P F}
    (hwp : c.wp pool m Q h) (hs : Holds pool s h) (hin : InPool pool h) (hoom : m.oom ∨ c.Ample s)
    (hstep : c.step s = some (c', s')) :
  ∃ h', c'.wp pool m Q h' ∧ Holds pool s' h' ∧ InPool pool h' ∧ Conserves s s' h h'
  := by
  cases c with
  | ret | panic | diverge => cases hstep
  | alloc k =>
    obtain ⟨cell, _ | ⟨p, ps⟩⟩ := s
    · cases hstep
      have hoom' : m.oom := hoom.resolve_right id
      exact ⟨h, hwp.1 hoom', hs, hin, Conserves.refl _ h⟩
    · cases hstep
      have hp : p ∈ p :: ps := List.mem_cons_self
      obtain ⟨hs', hc⟩ := hs.take rfl
      exact ⟨_, hwp.2 p (hs.mem_pool p hp) (hs.apart p hp) (cell p), hs',
        hin.update (hs.mem_pool p hp) _, hc⟩
  | free p k =>
    cases hstep
    obtain ⟨hp, hk⟩ := hwp
    obtain ⟨hs', hc⟩ := hs.give hp (hin p hp)
    exact ⟨_, hk, hs', hin.update (hin p hp) _, hc⟩
  | load p k =>
    obtain ⟨f, hf, hk⟩ := hwp
    cases hstep
    rw [hs.cells p f hf]
    exact ⟨h, hk, hs, hin, Conserves.refl s h⟩
  | modify p g k =>
    obtain ⟨f, hf, hk⟩ := hwp
    cases hstep
    obtain ⟨hs', hc⟩ := hs.set hf g
    refine ⟨_, hk, hs', hin.update (hin p ?_) _, hc⟩
    rw [hf]
    exact Option.some_ne_none f

/-- The program returns on the machine what it may return in the heap, or it panics. -/
def Sound (pool : Finset P) (m : Prog.Mode) (Q : α → Heap P F → Prop) (c : Prog P F α)
    (s : Store P F) (h : Heap P F) : Prop :=
  (∃ a s' h', c.exec s = some (a, s') ∧ Q a h' ∧ Holds pool s' h' ∧ InPool pool h'
      ∧ Conserves s s' h h')
    ∨ c.exec s = none ∧ m.panics

theorem Prog.sound_of_step {c c' : Prog P F α} {s s' : Store P F}
    (hwp : c.wp pool m Q h) (hs : Holds pool s h) (hin : InPool pool h)
    (hoom : m.oom ∨ c.Ample s) (hstep : c.step s = some (c', s'))
    (ih : ∀ h', c'.wp pool m Q h' → Holds pool s' h' → InPool pool h' → m.oom ∨ c'.Ample s' →
    Sound pool m Q c' s' h') :
  Sound pool m Q c s h
  := by
  obtain ⟨h', hwp', hs', hin', hc⟩ := step_sound hwp hs hin hoom hstep
  unfold Sound
  rw [exec_of_step hstep]
  rcases ih h' hwp' hs' hin' (hoom.imp_right fun ha => ha.step hstep) with
    ⟨a, s'', h'', hexec, hQ, hs'', hin'', hc'⟩ | hpanic
  · exact Or.inl ⟨a, s'', h'', hexec, hQ, hs'', hin'', hc.trans hc'⟩
  · exact Or.inr hpanic

/-- A program that runs in a heap runs on the machine. -/
theorem Prog.exec_sound {c : Prog P F α} {s : Store P F}
    (hwp : c.wp pool m Q h) (hs : Holds pool s h) (hin : InPool pool h)
    (hoom : m.oom ∨ c.Ample s) :
  Sound pool m Q c s h
  := by
  induction c generalizing s h with
  | ret a => exact Or.inl ⟨a, s, h, rfl, hwp, hs, hin, Conserves.refl s h⟩
  | panic message => exact Or.inr ⟨rfl, hwp⟩
  | diverge => exact hwp.elim
  | alloc k ih =>
    obtain ⟨cell, _ | ⟨p, ps⟩⟩ := s
    · exact sound_of_step hwp hs hin hoom rfl fun h' => ih none
    · exact sound_of_step hwp hs hin hoom rfl fun h' => ih (some p)
  | free p k ih | modify p g k ih => exact sound_of_step hwp hs hin hoom rfl fun h' => ih
  | load p k ih => exact sound_of_step hwp hs hin hoom rfl fun h' => ih (s.cell p)

/-- A program with a triple runs on the machine, in a memory with a part that has the
precondition. -/
theorem Triple.exec {A R : Assertion P F} {B : α → Assertion P F} {c : Prog P F α} {s : Store P F}
    (ht : Triple pool m A c B) (hA : (A * R) h) (hs : Holds pool s h)
    (hin : InPool pool h) (hoom : m.oom ∨ c.Ample s) :
  (∃ a s' h', c.exec s = some (a, s') ∧ (B a * R) h' ∧ Holds pool s' h' ∧ InPool pool h'
      ∧ Conserves s s' h h')
    ∨ c.exec s = none ∧ m.panics
  := by
  rcases Prog.exec_sound (ht.run R h hin hA) hs hin hoom with
    ⟨a, s', h', hexec, hB, hs', hin', hc⟩ | hpanic
  · exact Or.inl ⟨a, s', h', hexec, hB.2, hs', hin', hc⟩
  · exact Or.inr hpanic

/-- The memory has a part with the property, apart from the free cells. -/
def Store.Has (pool : Finset P) (s : Store P F) (A : Assertion P F) : Prop :=
  ∃ h, A h ∧ Holds pool s h ∧ InPool pool h

/-- A program with a triple that may not panic returns. -/
theorem Triple.returns {A R : Assertion P F} {B : α → Assertion P F} {c : Prog P F α} {s : Store P F}
    (ht : Triple pool m A c B) (hm : ¬ m.panics) (hs : s.Has pool (A * R)) (hoom : m.oom ∨ c.Ample s) :
  ∃ a s', c.exec s = some (a, s') ∧ s'.Has pool (B a * R)
  := by
  obtain ⟨h, hA, hholds, hin⟩ := hs
  rcases ht.exec hA hholds hin hoom with ⟨a, s', h', hexec, hB, hholds', hin', _⟩ | ⟨_, hpanic⟩
  · exact ⟨a, s', hexec, h', hB, hholds', hin'⟩
  · exact absurd hpanic hm

/-- The same cells are free, and every other cell is as it was. -/
structure Restored (s s' : Store P F) : Prop where
  free : ∀ p, p ∈ s'.free ↔ p ∈ s.free
  cell : ∀ p ∉ s.free, s'.cell p = s.cell p

omit [DecidableEq P] in
/-- A heap that is owned before and afterwards. -/
theorem Conserves.restored {s s' : Store P F} (hc : Conserves s s' h h)
    (hs : Holds pool s h) (hs' : Holds pool s' h) :
  Restored s s'
  := by
  constructor
  · intro p
    have howned := hc.owned p
    constructor
    · intro hp
      exact (howned.mp (Or.inr hp)).resolve_left (not_not.mpr (hs'.apart p hp))
    · intro hp
      exact (howned.mpr (Or.inr hp)).resolve_left (not_not.mpr (hs.apart p hp))
  · intro p hp
    cases hown : h p with
    | none => exact hc.outside p hown hp
    | some f => rw [hs.cells p f hown, hs'.cells p f hown]
