import Mathlib.Tactic

/-!
# Programs that may stop

A program of `EStateM ε σ` ends with a result, or stops early and leaves the state it has
reached, as a computer does that loses power.  `wp x Q C s` says that `x` started in `s`
ends in a state with `Q`, or stops in one with `C`.  The rules follow the shape of the
program; a loop is handled by an invariant indexed by the number of rounds.  `Preserves I P x` says
that `x` preserves `I` and stops only for reasons with `P`, whatever it returns; a program made
of such programs is such a program.
-/

namespace Stop

variable {ε σ α β : Type}

/-- Started in `s`, the program ends with `Q` or stops with `C`. -/
def wp (x : EStateM ε σ α) (Q : α → σ → Prop) (C : ε → σ → Prop) (s : σ) : Prop :=
  match x s with
  | .ok a s' => Q a s'
  | .error e s' => C e s'

variable {x : EStateM ε σ α} {f : α → EStateM ε σ β} {Q Q' : α → σ → Prop} {C C' : ε → σ → Prop}
  {s s' : σ} {l : List α} {g : α → EStateM ε σ PUnit} {n : ℕ} {e : ε} {b : β}

@[simp]
theorem wp_pure (a : α) : wp (pure a : EStateM ε σ α) Q C s ↔ Q a s := Iff.rfl

@[simp]
theorem wp_bind {R : β → σ → Prop} :
  wp (x >>= f) R C s ↔ wp x (fun a s' => wp (f a) R C s') C s
  := by
  simp only [wp, bind, EStateM.bind]
  cases x s <;> rfl

@[simp]
theorem wp_get {Q : σ → σ → Prop} : wp (get : EStateM ε σ σ) Q C s ↔ Q s s := Iff.rfl

@[simp]
theorem wp_set {Q : PUnit → σ → Prop} : wp (set s' : EStateM ε σ PUnit) Q C s ↔ Q ⟨⟩ s' := Iff.rfl

@[simp]
theorem wp_modify {Q : PUnit → σ → Prop} (g : σ → σ) :
  wp (modify g : EStateM ε σ PUnit) Q C s ↔ Q ⟨⟩ (g s)
  := Iff.rfl

@[simp]
theorem wp_throw (e : ε) : wp (throw e : EStateM ε σ α) Q C s ↔ C e s := Iff.rfl

theorem wp_mono
    (h : wp x Q C s) (hQ : ∀ a s', Q a s' → Q' a s') (hC : ∀ e s', C e s' → C' e s') :
  wp x Q' C' s
  := by
  unfold wp at h ⊢
  cases hx : x s with
  | ok a s' =>
    rw [hx] at h
    apply hQ a s' h
  | error e s' =>
    rw [hx] at h
    apply hC e s' h

/-- A run has what each of two specifications says of it. -/
theorem wp_and (h : wp x Q C s) (h' : wp x Q' C s) : wp x (fun a s' => Q a s' ∧ Q' a s') C s := by
  unfold wp at h h' ⊢
  cases hx : x s with
  | ok a s' =>
    rw [hx] at h h'
    exact ⟨h, h'⟩
  | error e s' =>
    rw [hx] at h
    exact h

/-- The same for the runs that stop. -/
theorem wp_both (h : wp x Q C s) (h' : wp x Q' C' s) :
  wp x (fun a s' => Q a s' ∧ Q' a s') (fun e s' => C e s' ∧ C' e s') s
  := by
  unfold wp at h h' ⊢
  cases hx : x s with
  | ok a s' | error e s' =>
    rw [hx] at h h'
    exact ⟨h, h'⟩

/-- Nothing is asked of a run. -/
theorem wp_trivial : wp x (fun _ _ => True) (fun _ _ => True) s := by
  unfold wp
  cases x s <;> trivial

/-- What follows holds however a run ends. -/
theorem wp_skip (h : ∀ a s', Q a s') : wp x Q (fun _ _ => True) s :=
  wp_mono wp_trivial (fun a s' _ => h a s') (fun _ _ _ => trivial)

/-- A program whose run is known to end. -/
theorem wp_of_ok {a : α} (hx : x s = .ok a s') (h : wp x Q C s) : Q a s' := by
  unfold wp at h
  rwa [hx] at h

/-- A program that does not stop ends with a result. -/
theorem exists_ok_of_wp (h : wp x Q (fun _ _ => False) s) : ∃ a s', x s = .ok a s' ∧ Q a s' := by
  unfold wp at h
  cases hx : x s with
  | ok a s' =>
    rw [hx] at h
    exact ⟨a, s', rfl, h⟩
  | error e s' =>
    rw [hx] at h
    exact h.elim

/-- A program that does not end stops. -/
theorem exists_error_of_wp (h : wp x (fun _ _ => False) C s) : ∃ e s', x s = .error e s' ∧ C e s' := by
  unfold wp at h
  cases hx : x s with
  | ok a s' =>
    rw [hx] at h
    exact h.elim
  | error e s' =>
    rw [hx] at h
    exact ⟨e, s', rfl, h⟩

/-- A program whose run is known to stop. -/
theorem wp_of_error (hx : x s = .error e s') (h : wp x Q C s) : C e s' := by
  unfold wp at h
  rwa [hx] at h

/-- Two programs run alike if they do so up to some point, and from there on in every state that
is reached. -/
theorem run_bind_congr {x' : EStateM ε σ α} {f' : α → EStateM ε σ β} (hx : x s = x' s)
    (hf : wp x (fun a s' => f a s' = f' a s') C s) :
  (x >>= f) s = (x' >>= f') s
  := by
  simp only [bind, EStateM.bind, ← hx]
  unfold wp at hf
  cases hrun : x s with
  | ok a s' =>
    rw [hrun] at hf
    exact hf
  | error e s' => rfl

/-- A loop over the elements of a list that carries a value, with an invariant indexed by the
number of rounds done. -/
theorem wp_foldlM {g : β → α → EStateM ε σ β} (I : ℕ → β → σ → Prop)
    (hstep : ∀ i (hi : i < l.length) b s, I i b s → wp (g b l[i]) (fun b' => I (i + 1) b') C s)
    (h : I 0 b s) :
  wp (l.foldlM g b) (fun b' => I l.length b') C s
  := by
  induction l generalizing I b s with
  | nil => exact h
  | cons a l ih =>
    rw [List.foldlM_cons, wp_bind]
    apply wp_mono (hstep 0 (Nat.succ_pos _) b s h)
    · intro b' s' hs'
      apply ih (fun i => I (i + 1)) _ hs'
      intro i hi b'' s'' hs''
      exact hstep (i + 1) (Nat.succ_lt_succ hi) b'' s'' hs''
    · intro e s' hs'
      exact hs'

/-- A loop over the elements of a list, with an invariant indexed by the number of rounds
done. -/
theorem wp_forM (I : ℕ → σ → Prop)
    (hstep : ∀ i (hi : i < l.length) s, I i s → wp (g l[i]) (fun _ => I (i + 1)) C s) (h : I 0 s) :
  wp (l.forM g) (fun _ => I l.length) C s
  := by
  induction l generalizing I s with
  | nil => exact h
  | cons a l ih =>
    rw [List.forM_eq_forM, List.forM_cons, wp_bind]
    apply wp_mono (hstep 0 (Nat.succ_pos _) s h)
    · intro _ s' hs'
      apply ih (fun i => I (i + 1)) _ hs'
      intro i hi s'' hs''
      exact hstep (i + 1) (Nat.succ_lt_succ hi) s'' hs''
    · intro e s' hs'
      exact hs'

/-- A loop over the elements of a list that keeps an invariant and establishes something of every
element. -/
theorem wp_forM_mem {I : σ → Prop} {P : α → Prop}
    (hstep : ∀ a ∈ l, ∀ s, I s → wp (g a) (fun _ s' => I s' ∧ P a) C s) (h : I s) :
  wp (l.forM g) (fun _ s' => I s' ∧ ∀ a ∈ l, P a) C s
  := by
  induction l generalizing s with
  | nil => exact ⟨h, fun a ha => absurd ha List.not_mem_nil⟩
  | cons a l ih =>
    rw [List.forM_eq_forM, List.forM_cons, wp_bind]
    apply wp_mono (hstep a List.mem_cons_self s h) _ (fun _ _ he => he)
    rintro _ s₁ ⟨hI, hPa⟩
    apply wp_mono (ih (fun b hb => hstep b (List.mem_cons_of_mem a hb)) hI) _ (fun _ _ he => he)
    rintro _ s₂ ⟨hI', hP⟩
    exact ⟨hI', List.forall_mem_cons.mpr ⟨hPa, hP⟩⟩

/-- A loop over the numbers below `n` that carries a value. -/
theorem wp_foldlM_finRange {g : β → Fin n → EStateM ε σ β} (I : ℕ → β → σ → Prop)
    (hstep : ∀ (j : Fin n) b s, I j b s → wp (g b j) (fun b' => I (j + 1) b') C s) (h : I 0 b s) :
  wp ((List.finRange n).foldlM g b) (fun b' => I n b') C s
  := by
  have hloop : wp ((List.finRange n).foldlM g b) (fun b' => I (List.finRange n).length b') C s := by
    apply wp_foldlM I _ h
    intro i hi b' s' hs'
    rw [List.getElem_finRange]
    exact hstep _ b' s' hs'
  rwa [List.length_finRange] at hloop

/-- A loop over the numbers below `n`. -/
theorem wp_forM_finRange {g : Fin n → EStateM ε σ PUnit} (I : ℕ → σ → Prop)
    (hstep : ∀ (j : Fin n) s, I j s → wp (g j) (fun _ => I (j + 1)) C s) (h : I 0 s) :
  wp ((List.finRange n).forM g) (fun _ => I n) C s
  := by
  have hloop : wp ((List.finRange n).forM g) (fun _ => I (List.finRange n).length) C s := by
    apply wp_forM I _ h
    intro i hi s' hs'
    rw [List.getElem_finRange]
    exact hstep _ s' hs'
  rwa [List.length_finRange] at hloop

/-- A loop over the elements of a list and their indices. -/
theorem wp_forM_zipIdx {f : α × ℕ → EStateM ε σ PUnit} (I : ℕ → σ → Prop)
    (hstep : ∀ i (hi : i < l.length) s, I i s → wp (f (l[i], i)) (fun _ => I (i + 1)) C s)
    (h : I 0 s) :
  wp (l.zipIdx.forM f) (fun _ => I l.length) C s
  := by
  have hloop : wp (l.zipIdx.forM f) (fun _ => I l.zipIdx.length) C s := by
    apply wp_forM I _ h
    intro i hi s' hs'
    rw [List.getElem_zipIdx, Nat.zero_add]
    rw [List.length_zipIdx] at hi
    exact hstep i hi s' hs'
  rwa [List.length_zipIdx] at hloop

/-! ### Invariants -/

/-- The program preserves `I`, and stops only with `P`. -/
def Preserves (I : σ → Prop) (P : ε → Prop) (x : EStateM ε σ α) : Prop :=
  ∀ s, I s → wp x (fun _ s' => I s') (fun e _ => P e) s

section Preserves

variable {I : σ → Prop} {P : ε → Prop}

theorem preserves_pure (a : α) : Preserves I P (pure a : EStateM ε σ α) := fun _ h => h

theorem preserves_throw (h : P e) : Preserves I P (throw e : EStateM ε σ α) := fun _ _ => h

theorem Preserves.bind (hx : Preserves I P x) (hf : ∀ a, Preserves I P (f a)) : Preserves I P (x >>= f) := by
  intro s hs
  rw [wp_bind]
  apply wp_mono (hx s hs)
  · intro a s' hs'
    apply hf a s' hs'
  · intro e s' he
    exact he

theorem Preserves.ret {g : α → β} (hx : Preserves I P x) : Preserves I P (x >>= fun a => pure (g a)) :=
  hx.bind fun _ => preserves_pure _

end Preserves

end Stop
