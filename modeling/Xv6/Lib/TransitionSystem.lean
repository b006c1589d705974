import Mathlib.Data.List.Induction
import Mathlib.Logic.Relation

/-!
# Transition systems

A transition system has initial states and a partial function `step` giving the effect
of every label.  Whatever choice a step leaves open is part of its label, so the system
can be run on a list of labels: `exec s as` is the state the labels `as` lead to, when
each of them is enabled in turn.

A predicate that holds initially and is preserved by the steps holds in every reachable
state (`Reachable.invariant`).  When the steps preserve it only if their labels are
admissible, it holds in the states an admissible run reaches (`exec_invariant`).  What holds
at the end of a run and not at its beginning has held since one of the steps (`exec_since`).  When a
step is admissible exactly if it does not fail, and there are no steps after a failure, the
runs that do not fail are the admissible ones (`exec_admissible_iff`).  A map of states that
sends every step to a run of another system carries reachable states to reachable states
(`Reachable.map`); when that run consists of what an observer sees of the step, the trace of
every run is a run of the other system (`exec_trace`).
-/

universe u v

/-- A labelled transition system. -/
structure TransitionSystem (σ : Type u) (ℓ : Type v) where
  /-- The initial states. -/
  init : σ → Prop
  /-- The state a label leads to, if the label is enabled. -/
  step : σ → ℓ → Option σ

namespace TransitionSystem

variable {σ σ' : Type u} {ℓ ℓ' : Type v} (T : TransitionSystem σ ℓ)

/-- The state a list of labels leads to, if each is enabled in turn. -/
def exec (s : σ) : List ℓ → Option σ
  | [] => some s
  | a :: as => (T.step s a).bind (exec · as)

/-- The states that some run from an initial state reaches. -/
inductive Reachable : σ → Prop where
  | init {s : σ} : T.init s → Reachable s
  | step {s s' : σ} {a : ℓ} : Reachable s → T.step s a = some s' → Reachable s'

variable {T}

variable {as : List ℓ} {s s' : σ} {a : ℓ}

theorem exec_cons_iff :
  T.exec s (a :: as) = some s' ↔ ∃ s₁, T.step s a = some s₁ ∧ T.exec s₁ as = some s'
  := Option.bind_eq_some_iff

theorem exec_append (s : σ) (as bs : List ℓ) :
  T.exec s (as ++ bs) = (T.exec s as).bind (T.exec · bs)
  := by
  induction as generalizing s with
  | nil => rfl
  | cons a as ih => simp only [List.cons_append, exec, ih, Option.bind_assoc]

/-- A run from a reachable state ends in a reachable state. -/
theorem Reachable.exec (hs : T.Reachable s) (h : T.exec s as = some s') :
  T.Reachable s'
  := by
  induction as generalizing s with
  | nil =>
    cases h
    apply hs
  | cons a as ih =>
    obtain ⟨s₁, h₁, h⟩ := exec_cons_iff.mp h
    apply ih (hs.step h₁) h

variable {I : σ → Prop}

/-- What holds initially and is preserved by every step holds in every reachable state. -/
theorem Reachable.invariant
    (hinit : ∀ s, T.init s → I s)
    (hstep : ∀ s a s', I s → T.step s a = some s' → I s') {s : σ} (hs : T.Reachable s) :
  I s
  := by
  induction hs with
  | init h => apply hinit _ h
  | step _ h ih => apply hstep _ _ _ ih h

variable (T) in
/-- Every label of a run is admissible in the state where it is taken. -/
def Admissible (ok : σ → ℓ → Prop) : σ → List ℓ → Prop
  | _, [] => True
  | s, a :: as => ok s a ∧ (T.step s a).elim True (Admissible ok · as)

instance decidableAdmissible (ok : σ → ℓ → Prop) [∀ s a, Decidable (ok s a)] :
    (s : σ) → (as : List ℓ) → Decidable (T.Admissible ok s as)
  | _, [] => .isTrue trivial
  | s, a :: as =>
    haveI : Decidable ((T.step s a).elim True (T.Admissible ok · as)) :=
      match T.step s a with
      | none => .isTrue trivial
      | some s₁ => decidableAdmissible ok s₁ as
    inferInstanceAs (Decidable (_ ∧ _))

variable {ok : σ → ℓ → Prop}

/-- What is preserved by every step taken under an admissible label is preserved by every
run in which each label is admissible where it is taken. -/
theorem exec_invariant
    (hstep : ∀ s a s', I s → ok s a → T.step s a = some s' → I s')
    (hs : I s) (h : T.exec s as = some s') (hok : T.Admissible ok s as) :
  I s'
  := by
  induction as generalizing s with
  | nil =>
    cases h
    apply hs
  | cons a as ih =>
    obtain ⟨s₁, h₁, h⟩ := exec_cons_iff.mp h
    obtain ⟨ha, hrest⟩ := hok
    rw [h₁] at hrest
    apply ih (hstep s a s₁ hs ha h₁) h hrest

theorem Admissible.mono {ok ok' : σ → ℓ → Prop} (hok : ∀ s a, ok s a → ok' s a) {s : σ}
    (h : T.Admissible ok s as) :
  T.Admissible ok' s as
  := by
  induction as generalizing s with
  | nil => trivial
  | cons a as ih =>
    obtain ⟨ha, hrest⟩ := h
    refine ⟨hok s a ha, ?_⟩
    cases hs : T.step s a with
    | none => trivial
    | some s₁ =>
      rw [hs] at hrest
      exact ih hrest

theorem Admissible.append_left {s : σ} {as bs : List ℓ}
    (h : T.Admissible ok s (as ++ bs)) :
  T.Admissible ok s as
  := by
  induction as generalizing s with
  | nil => trivial
  | cons a as ih =>
    obtain ⟨ha, hrest⟩ := h
    refine ⟨ha, ?_⟩
    cases hs : T.step s a with
    | none => trivial
    | some s₁ =>
      rw [hs] at hrest
      exact ih hrest

/-- The label behind a part of an admissible run is admissible. -/
theorem Admissible.ok_of_append {s s₁ : σ} {as bs : List ℓ}
    (h : T.Admissible ok s (as ++ a :: bs)) (has : T.exec s as = some s₁) :
  ok s₁ a
  := by
  induction as generalizing s with
  | nil =>
    cases has
    exact h.1
  | cons b as ih =>
    obtain ⟨s₂, h₂, has⟩ := exec_cons_iff.mp has
    obtain ⟨_, hrest⟩ := h
    rw [h₂] at hrest
    exact ih hrest has

/-- What does not hold at first and holds in the end has begun to hold at some step, and has
held ever since. -/
theorem exec_since
    {P : σ → Prop} (hs : ¬ P s) (h : T.exec s as = some s') (hs' : P s') :
  ∃ bs a cs s₁, as = bs ++ a :: cs ∧ T.exec s bs = some s₁ ∧ ¬ P s₁
    ∧ ∀ ds es s₂, cs = ds ++ es → T.exec s (bs ++ a :: ds) = some s₂ → P s₂
  := by
  induction as using List.reverseRecOn generalizing s' with
  | nil =>
    cases h
    contradiction
  | append_singleton as a ih =>
    have hlast := h
    rw [exec_append] at h
    obtain ⟨s₁, h₁, _⟩ := Option.bind_eq_some_iff.mp h
    by_cases hp : P s₁
    · obtain ⟨bs, b, cs, s₂, rfl, hbs, hnot, hsince⟩ := ih h₁ hp
      refine ⟨bs, b, cs ++ [a], s₂, by simp, hbs, hnot, ?_⟩
      intro ds es s₃ hsplit hds
      -- the run ends in `s'`, or before the last step
      rcases List.eq_nil_or_concat es with rfl | ⟨es, e, rfl⟩
      · rw [List.append_nil] at hsplit
        rw [← hsplit, ← List.cons_append, ← List.append_assoc, hlast] at hds
        cases hds
        exact hs'
      · rw [List.concat_eq_append, ← List.append_assoc] at hsplit
        obtain ⟨hcs, _⟩ := List.append_inj' hsplit rfl
        exact hsince ds es s₃ hcs hds
    · refine ⟨as, a, [], s₁, rfl, h₁, hp, ?_⟩
      intro ds es s₂ hsplit hds
      obtain ⟨rfl, rfl⟩ := List.nil_eq_append_iff.mp hsplit
      obtain rfl := Option.some.inj (hlast.symm.trans hds)
      exact hs'

/-- When a step fails exactly if its label is not admissible, and nothing follows a failure,
a run fails exactly if one of its labels is not admissible. -/
theorem exec_admissible_iff
    (fails : σ → Prop) (ok : σ → ℓ → Prop) (hstuck : ∀ s a, fails s → T.step s a = none)
    (hstep : ∀ s a s', I s → T.step s a = some s' → I s')
    (hfails : ∀ s a s', I s → T.step s a = some s' → (ok s a ↔ ¬ fails s'))
    (hs : I s) (hok : ¬ fails s) (h : T.exec s as = some s') :
  (∀ bs a cs s₁, as = bs ++ a :: cs → T.exec s bs = some s₁ → ok s₁ a) ↔ ¬ fails s'
  := by
  induction as generalizing s with
  | nil =>
    cases h
    simp [hok]
  | cons a as ih =>
    obtain ⟨s₁, h₁, h⟩ := exec_cons_iff.mp h
    have ha := hfails s a s₁ hs h₁
    by_cases hbad : fails s₁
    · -- the failure ends the run
      have hnil : as = [] := by
        cases as with
        | nil => rfl
        | cons b as =>
          obtain ⟨s₂, h₂, _⟩ := exec_cons_iff.mp h
          rw [hstuck s₁ b hbad] at h₂
          cases h₂
      subst hnil
      cases h
      constructor
      · intro hall
        exact ha.mp (hall [] a [] s rfl rfl)
      · intro hgood
        contradiction
    · rw [← ih (hstep s a s₁ hs h₁) hbad h]
      constructor
      · intro hall bs b cs s₂ hsplit hbs
        apply hall (a :: bs) b cs s₂
        · rw [hsplit, List.cons_append]
        · apply exec_cons_iff.mpr
          use s₁, h₁
      · intro hall bs b cs s₂ hsplit hbs
        cases bs with
        | nil =>
          obtain ⟨rfl, rfl⟩ := List.cons.inj hsplit
          cases hbs
          exact ha.mpr hbad
        | cons c bs =>
          obtain ⟨rfl, htail⟩ := List.cons.inj hsplit
          obtain ⟨s₃, h₃, hbs⟩ := exec_cons_iff.mp hbs
          obtain rfl := Option.some.inj (h₁.symm.trans h₃)
          exact hall bs b cs s₂ htail hbs

/-- What an observer who sees `ev` of every step sees of a run. -/
def trace (T : TransitionSystem σ ℓ) (ev : σ → ℓ → σ → List ℓ') (s : σ) : List ℓ → List ℓ'
  | [] => []
  | a :: as =>
    match T.step s a with
    | some s₁ => ev s a s₁ ++ trace T ev s₁ as
    | none => []

/-- When every step is seen as a run of another system, every trace is a run of it. -/
theorem exec_trace
    {T' : TransitionSystem σ' ℓ'} {f : σ → σ'} {ev : σ → ℓ → σ → List ℓ'}
    (hstep : ∀ s a s', I s → T.step s a = some s' → I s')
    (hev : ∀ s a s', I s → T.step s a = some s' → T'.exec (f s) (ev s a s') = some (f s'))
    (hs : I s) (h : T.exec s as = some s') :
  T'.exec (f s) (T.trace ev s as) = some (f s')
  := by
  induction as generalizing s with
  | nil =>
    cases h
    rfl
  | cons a as ih =>
    obtain ⟨s₁, h₁, h⟩ := exec_cons_iff.mp h
    simp only [trace, h₁, exec_append, hev s a s₁ hs h₁, Option.bind_some]
    apply ih (hstep s a s₁ hs h₁) h

end TransitionSystem
