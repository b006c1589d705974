import Xv6.Lib.Stop

/-!
# The calls a program makes

A program that calls a procedure is given as a function of the procedure.  `Called p S X s`
says that `X p`, started in `s`, calls `p` with the arguments in `S` and with no others: its run
does not depend on what the procedure does elsewhere, and it comes to a stop when the
procedure is made to stop at any of them.

`wpc` goes through a program like `wp` and collects the arguments.  A tracker says what the
calls, and nothing else, do to a part of the state, also when the run stops.
-/

namespace Stop

variable {ι ε σ τ α β : Type} {p : ι → EStateM ε σ Unit} {s s' : τ}

/-- A program that calls a procedure.  The procedure may work on a part of the state. -/
abbrev Caller (ι ε σ τ α : Type) : Type := (ι → EStateM ε σ Unit) → EStateM ε τ α

/-- The calls of a program. -/
structure Called (p : ι → EStateM ε σ Unit) (S : Finset ι) (X : Caller ι ε σ τ α) (s : τ) : Prop where
  only : ∀ q, (∀ i ∈ S, q i = p i) → X q s = X p s
  each : ∀ i ∈ S, ∀ q e, (∀ j, j ≠ i → q j = p j) → (∀ t, ∃ t', q i t = .error e t') →
    ∃ t', X q s = .error e t'

theorem called_const (x : EStateM ε τ α) : Called p ∅ (fun _ => x) s := by
  refine ⟨fun _ _ => rfl, ?_⟩
  intro i hi
  exact absurd hi (Finset.notMem_empty i)

theorem called_call {s : σ} (i : ι) : Called p {i} (fun q => q i) s := by
  refine ⟨?_, ?_⟩
  · intro q hq
    rw [hq i (Finset.mem_singleton_self i)]
  · intro j hj q e _ hstop
    obtain rfl := Finset.mem_singleton.mp hj
    exact hstop s

variable {S S' : Finset ι} {X : Caller ι ε σ τ α} {F : α → Caller ι ε σ τ β} {a : α}

/-- A run that does not depend on the procedure. -/
theorem called_empty (h : ∀ q, X q s = X p s) : Called p ∅ X s := by
  refine ⟨fun q _ => h q, ?_⟩
  intro i hi
  exact absurd hi (Finset.notMem_empty i)

theorem Called.bind_ok [DecidableEq ι] (h : Called p S X s) (hrun : X p s = .ok a s')
    (h' : Called p S' (F a) s') :
  Called p (S ∪ S') (fun q => X q >>= fun a => F a q) s
  := by
  have hcongr : ∀ q, X q s = X p s → (X q >>= fun a => F a q) s = F a q s' := by
    intro q hq
    simp only [Bind.bind, EStateM.bind, hq, hrun]
  refine ⟨?_, ?_⟩
  · intro q hq
    have hX := h.only q (fun i hi => hq i (Finset.mem_union_left S' hi))
    rw [hcongr q hX, hcongr p rfl]
    exact h'.only q (fun i hi => hq i (Finset.mem_union_right S hi))
  · intro i hi q e hother hstop
    by_cases hS : i ∈ S
    · obtain ⟨t', ht'⟩ := h.each i hS q e hother hstop
      refine ⟨t', ?_⟩
      simp only [Bind.bind, EStateM.bind, ht']
    · have hS' : i ∈ S' := (Finset.mem_union.mp hi).resolve_left hS
      have hX := h.only q (fun j hj => hother j (fun heq => hS (heq ▸ hj)))
      rw [hcongr q hX]
      exact h'.each i hS' q e hother hstop

theorem Called.bind_error {e : ε} (h : Called p S X s) (hrun : X p s = .error e s') :
  Called p S (fun q => X q >>= fun a => F a q) s
  := by
  refine ⟨?_, ?_⟩
  · intro q hq
    simp only [Bind.bind, EStateM.bind, h.only q hq, hrun]
  · intro i hi q e' hother hstop
    obtain ⟨t', ht'⟩ := h.each i hi q e' hother hstop
    refine ⟨t', ?_⟩
    simp only [Bind.bind, EStateM.bind, ht']

/-! ### Trackers -/

/-- What the calls with the arguments in a set do to a part of the state. -/
structure Tracker (ι τ : Type) [DecidableEq ι] where
  rel : τ → Finset ι → τ → Prop
  refl : ∀ s, rel s ∅ s
  trans : ∀ {s s' s'' S S'}, rel s S s' → rel s' S' s'' → rel s (S ∪ S') s''

variable [DecidableEq ι] {R : Tracker ι τ}

/-- The program does nothing to that part. -/
class Quiet (R : Tracker ι τ) (x : EStateM ε τ α) : Prop where
  quiet : ∀ s, wp x (fun _ s' => R.rel s ∅ s') (fun _ s' => R.rel s ∅ s') s

/-- The procedure does to it what the tracker says. -/
class Tracks (R : Tracker ι τ) (p : ι → EStateM ε τ Unit) : Prop where
  tracks : ∀ i s, wp (p i) (fun _ s' => R.rel s {i} s') (fun _ s' => R.rel s {i} s') s

instance quiet_pure (a : α) : Quiet R (pure a : EStateM ε τ α) := ⟨R.refl⟩

instance quiet_throw (e : ε) : Quiet R (throw e : EStateM ε τ α) := ⟨R.refl⟩

instance quiet_get : Quiet R (get : EStateM ε τ τ) := ⟨R.refl⟩

instance quiet_bind {x : EStateM ε τ α} {f : α → EStateM ε τ β} [hx : Quiet R x]
    [hf : ∀ a, Quiet R (f a)] : Quiet R (x >>= f) := by
  refine ⟨fun s => ?_⟩
  have htrans : ∀ {s₁ s₂}, R.rel s ∅ s₁ → R.rel s₁ ∅ s₂ → R.rel s ∅ s₂ := by
    intro s₁ s₂ h₁ h₂
    rw [← Finset.union_self ∅]
    exact R.trans h₁ h₂
  rw [wp_bind]
  apply wp_mono (hx.quiet s)
  · intro a s₁ h₁
    exact wp_mono ((hf a).quiet s₁) (fun _ _ h₂ => htrans h₁ h₂) (fun _ _ h₂ => htrans h₁ h₂)
  · intro e s₁ h₁
    exact h₁

instance quiet_ite {c : Prop} [Decidable c] {x y : EStateM ε τ α} [hx : Quiet R x] [hy : Quiet R y] :
    Quiet R (if c then x else y) := by
  split_ifs
  · exact hx
  · exact hy

/-! ### Rules -/

/-- Started in `s`, the program calls `p` with some arguments and ends with `Q` or stops with `C`
of them. -/
def wpc (R : Tracker ι τ) (p : ι → EStateM ε σ Unit) (X : Caller ι ε σ τ α)
    (Q : Finset ι → α → τ → Prop) (C : Finset ι → ε → τ → Prop) (s : τ) : Prop :=
  ∃ S, Called p S X s
    ∧ wp (X p) (fun a s' => R.rel s S s' ∧ Q S a s') (fun e s' => R.rel s S s' ∧ C S e s') s

section Rules

variable {Q Q' : Finset ι → α → τ → Prop} {C C' : Finset ι → ε → τ → Prop} {x : EStateM ε τ α}
  {i : ι}

theorem wpc_bind {P : Finset ι → β → τ → Prop}
    (h : wpc R p X
      (fun S a s' => wpc R p (F a) (fun S' => P (S ∪ S')) (fun S' => C (S ∪ S')) s') C s) :
  wpc R p (fun q => X q >>= fun a => F a q) P C s
  := by
  obtain ⟨S, hcalled, hwp⟩ := h
  unfold wp at hwp
  cases hrun : X p s with
  | ok a s' =>
    rw [hrun] at hwp
    obtain ⟨hrel, S', hcalled', hwp'⟩ := hwp
    refine ⟨S ∪ S', hcalled.bind_ok hrun hcalled', ?_⟩
    rw [wp_bind]
    unfold wp
    rw [hrun]
    apply wp_mono hwp'
    · intro b s'' h
      exact ⟨R.trans hrel h.1, h.2⟩
    · intro e s'' h
      exact ⟨R.trans hrel h.1, h.2⟩
  | error e s' =>
    rw [hrun] at hwp
    refine ⟨S, hcalled.bind_error hrun, ?_⟩
    rw [wp_bind]
    unfold wp
    rw [hrun]
    exact hwp

theorem wpc_mono (h : wpc R p X Q C s) (hQ : ∀ S a s', Q S a s' → Q' S a s')
    (hC : ∀ S e s', C S e s' → C' S e s') :
  wpc R p X Q' C' s
  := by
  obtain ⟨S, hcalled, hwp⟩ := h
  refine ⟨S, hcalled, wp_mono hwp ?_ ?_⟩
  · intro a s' h
    exact ⟨h.1, hQ S a s' h.2⟩
  · intro e s' h
    exact ⟨h.1, hC S e s' h.2⟩

/-- What else is known of the run. -/
theorem wpc_and {P : α → τ → Prop} {D : ε → τ → Prop} (h : wpc R p X Q C s) (h' : wp (X p) P D s) :
  wpc R p X (fun S a s' => Q S a s' ∧ P a s') (fun S e s' => C S e s' ∧ D e s') s
  := by
  obtain ⟨S, hcalled, hwp⟩ := h
  refine ⟨S, hcalled, wp_mono (wp_both hwp h') ?_ ?_⟩
  · rintro a s' ⟨⟨hrel, hQ⟩, hP⟩
    exact ⟨hrel, hQ, hP⟩
  · rintro e s' ⟨⟨hrel, hC⟩, hD⟩
    exact ⟨hrel, hC, hD⟩

/-- A program that stops only with `D`. -/
theorem wpc_stops {D : ε → τ → Prop} (h : wpc R p X Q C s) (h' : wp (X p) (fun _ _ => True) D s) :
  wpc R p X Q (fun S e s' => C S e s' ∧ D e s') s
  := wpc_mono (wpc_and h h') (fun _ _ _ h => h.1) (fun _ _ _ h => h)

/-- A part of the program that does not call the procedure. -/
theorem wpc_const [hx : Quiet R x] (h : wp x (Q ∅) (C ∅) s) :
  wpc R p (fun _ => x) Q C s
  := ⟨∅, called_const x, wp_both (hx.quiet s) h⟩

/-- A run that is the same whatever the procedure does. -/
theorem wpc_alike (hx : Quiet R x) (h : ∀ q, X q s = x s) (hwp : wp (X p) (Q ∅) (C ∅) s) :
  wpc R p X Q C s
  := by
  refine ⟨∅, called_empty (fun q => (h q).trans (h p).symm), wp_both ?_ hwp⟩
  have hquiet := hx.quiet s
  unfold wp at hquiet ⊢
  rw [h p]
  exact hquiet

theorem wpc_pure (h : Q ∅ a s) : wpc R p (fun _ => (pure a : EStateM ε τ α)) Q C s :=
  wpc_const h

theorem wpc_call {R : Tracker ι σ} {s : σ} [hp : Tracks R p] {Q : Finset ι → Unit → σ → Prop}
    {C : Finset ι → ε → σ → Prop} (h : wp (p i) (Q {i}) (C {i}) s) :
  wpc R p (fun q => q i) Q C s
  := ⟨{i}, called_call i, wp_both (hp.tracks i s) h⟩

/-- The program starts with a part that does not call the procedure. -/
theorem wpc_const_bind {x : EStateM ε τ β} [Quiet R x] {F : β → Caller ι ε σ τ α}
    (h : wp x (fun b s' => wpc R p (F b) Q C s') (C ∅) s) :
  wpc R p (fun q => x >>= fun b => F b q) Q C s
  := by
  apply wpc_bind
  apply wpc_const
  simpa only [Finset.empty_union] using h

/-- The program starts with a part that does not call the procedure and of which nothing is asked. -/
theorem wpc_skip {x : EStateM ε τ β} [Quiet R x] {F : β → Caller ι ε σ τ α}
    (hF : ∀ b s', wpc R p (F b) Q C s') (hC : ∀ e s', C ∅ e s') :
  wpc R p (fun q => x >>= fun b => F b q) Q C s
  := wpc_const_bind (wp_mono wp_trivial (fun b s' _ => hF b s') (fun e s' _ => hC e s'))

/-- The program starts with a call of which nothing is asked. -/
theorem wpc_call_seq {R : Tracker ι σ} {s : σ} [Tracks R p] {F : Unit → Caller ι ε σ σ α}
    {Q : Finset ι → α → σ → Prop} {C : Finset ι → ε → σ → Prop}
    (hF : ∀ s', wpc R p (F ()) (fun S => Q ({i} ∪ S)) (fun S => C ({i} ∪ S)) s')
    (hC : ∀ e s', C {i} e s') :
  wpc R p (fun q => q i >>= fun u => F u q) Q C s
  := by
  apply wpc_bind
  apply wpc_call
  apply wp_mono wp_trivial
  · intro _ s' _
    exact hF s'
  · intro e s' _
    exact hC e s'

theorem wpc_ite {c : Prop} [Decidable c] {X Y : Caller ι ε σ τ α} (hX : c → wpc R p X Q C s)
    (hY : ¬ c → wpc R p Y Q C s) :
  wpc R p (fun q => if c then X q else Y q) Q C s
  := by
  by_cases hc : c
  · simp only [if_pos hc]
    exact hX hc
  · simp only [if_neg hc]
    exact hY hc

/-- A loop whose rounds make the calls `G`, with an invariant of the rounds that are left. -/
theorem wpc_foldlM {γ : Type} [DecidableEq γ] {F : α → γ → Caller ι ε σ τ α} (G : γ → Finset ι)
    (J : List γ → α → τ → Prop) (hstep : ∀ x l a s, J (x :: l) a s →
      wpc R p (F a x) (fun S a' s' => S = G x ∧ J l a' s') (fun S _ _ => S ⊆ G x) s)
    {l : List γ} (h : J l a s) :
  wpc R p (fun q => l.foldlM (fun a x => F a x q) a)
    (fun S a' s' => S = l.toFinset.biUnion G ∧ J [] a' s') (fun S _ _ => S ⊆ l.toFinset.biUnion G) s
  := by
  induction l generalizing a s with
  | nil => exact wpc_pure ⟨rfl, h⟩
  | cons x l ih =>
    simp only [List.foldlM_cons, List.toFinset_cons, Finset.biUnion_insert]
    apply wpc_bind
    apply wpc_mono (hstep x l a s h)
    · rintro S a' s' ⟨rfl, hJ⟩
      apply wpc_mono (ih hJ)
      · rintro S' _ _ ⟨rfl, hJ'⟩
        exact ⟨rfl, hJ'⟩
      · intro S' _ _ hS'
        exact Finset.union_subset_union_right hS'
    · intro S _ _ hS
      exact hS.trans Finset.subset_union_left

theorem wpc_forM {γ : Type} [DecidableEq γ] {F : γ → Caller ι ε σ τ Unit} (G : γ → Finset ι)
    (J : List γ → τ → Prop)
    (hstep : ∀ x l s, J (x :: l) s →
      wpc R p (F x) (fun S _ s' => S = G x ∧ J l s') (fun S _ _ => S ⊆ G x) s)
    {l : List γ} (h : J l s) :
  wpc R p (fun q => l.forM (fun x => F x q))
    (fun S _ s' => S = l.toFinset.biUnion G ∧ J [] s') (fun S _ _ => S ⊆ l.toFinset.biUnion G) s
  := by
  induction l generalizing s with
  | nil => exact wpc_pure ⟨rfl, h⟩
  | cons x l ih =>
    rw [List.toFinset_cons, Finset.biUnion_insert]
    apply wpc_bind
    apply wpc_mono (hstep x l s h)
    · rintro S _ s' ⟨rfl, hJ⟩
      apply wpc_mono (ih hJ)
      · rintro S' _ _ ⟨rfl, hJ'⟩
        exact ⟨rfl, hJ'⟩
      · intro S' _ _ hS'
        exact Finset.union_subset_union_right hS'
    · intro S _ _ hS
      exact hS.trans Finset.subset_union_left

/-- What holds of the calls however the run ends. -/
theorem wpc.called {P : Finset ι → Prop} (h : wpc R p X (fun S _ _ => P S) (fun S _ _ => P S) s) :
  ∃ S, Called p S X s ∧ P S
  := by
  obtain ⟨S, hcalled, hwp⟩ := h
  refine ⟨S, hcalled, ?_⟩
  unfold wp at hwp
  split at hwp
  · exact hwp.2
  · exact hwp.2

end Rules

end Stop
