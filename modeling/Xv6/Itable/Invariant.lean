import Xv6.Itable.Effect

/-!
# The invariant of the inode table

An entry counts the references to it, no two entries in use are for the same inode, and an
entry that has been read agrees with the disk unless the process that has it locked has
changed it or is about to declare it free.  Every step of the table is one of a few changes,
each of which keeps the invariant (`Inv.step`).
-/

namespace Xv6

open Function

namespace InodePc

/-- The entry that the process is working on. -/
def entry : InodePc → Option InodePtr
  | idle | iallocScan .. | iallocGet _ => none
  | ilockWait e | ilockRead e | iputSleep e | iputTrunc e | iputFree e | iputValid e
  | iputDrop e => some e

end InodePc

namespace Itable

variable {ι : Type}

/-! ### Looking for entries -/

variable {key : ℕ × ℕ}

/-- An inode that is not found has no entry in use. -/
theorem find_eq_none {s : Itable ι} (h : s.find key = none) (e : InodePtr)
    (hpos : 0 < (s.inode e).ref) :
  (s.inode e).key ≠ key
  := by
  intro heq
  have := List.find?_eq_none.mp h e (List.mem_finRange e)
  simp [hpos, heq] at this

theorem of_find {s : Itable ι} {e : InodePtr} (h : s.find key = some e) :
  0 < (s.inode e).ref ∧ (s.inode e).key = key
  := by
  have := List.find?_some h
  simpa using this

theorem of_empty {s : Itable ι} {e : InodePtr} (h : s.empty = some e) : (s.inode e).ref = 0 := by
  have := List.find?_some h
  simpa using this

/-! ### The invariant -/

/-- A lock that nobody has, or one process. -/
theorem ne_of_lock {t : ι} {l : Option ι} (hl : l = none ∨ l = some t) : ∀ t', t' ≠ t → l ≠ some t' := by
  rintro t' hne rfl
  obtain hl | hl := hl
  · cases hl
  · exact hne (Option.some.inj hl)

/-- What holds of the entry on which a process is working. -/
def PcOk (s : Itable ι) (t : ι) : InodePc → Prop
  | .idle | .iallocScan .. | .iallocGet _ => True
  | .ilockWait e => e ∈ s.refs t
  | .ilockRead e => (s.inode e).lock = some t ∧ (s.inode e).valid = false
  | .iputSleep e => s.lock = some t ∧ (s.inode e).ref = 1 ∧ e ∈ s.refs t
      ∧ (s.inode e).valid = true ∧ (s.inode e).copy.nlink = 0 ∧ (s.inode e).lock ≠ some t
  | .iputTrunc e | .iputFree e | .iputValid e =>
    (s.inode e).lock = some t ∧ (s.inode e).valid = true ∧ (s.inode e).dirty = false
  | .iputDrop e => e ∈ s.refs t ∧ (s.inode e).lock ≠ some t

variable {k k₀ : InodePc}

/-- Only the entry a process is working on, its references and `itable.lock` matter. -/
theorem PcOk.congr {s s' : Itable ι} {t : ι} (h : s.PcOk t k)
    (hrefs : s'.refs t = s.refs t) (hlock : s.lock = some t → s'.lock = some t)
    (hent : ∀ e, k.entry = some e → s'.inode e = s.inode e) :
  s'.PcOk t k
  := by
  cases k with
  | iputSleep e =>
    have := hent e rfl
    simp only [PcOk, hrefs, this] at h ⊢
    exact ⟨hlock h.1, h.2⟩
  | _ => simp_all [PcOk, InodePc.entry]

/-- While nobody keeps `itable.lock`, a change of the count does not matter. -/
theorem PcOk.setRef {s s' : Itable ι} {t : ι} {e : InodePtr} {n : ℕ} (h : s.PcOk t k)
    (hfree : s.lock = none) (hent : k.entry = some e) (hrefs : s'.refs t = s.refs t)
    (hinode : s'.inode e = (s.inode e).setRef n) :
  s'.PcOk t k
  := by
  cases k with
  | iputSleep e' =>
    rw [h.1] at hfree
    cases hfree
  | _ => simp_all [PcOk, InodePc.entry, InCore.setRef]

variable [Fintype ι]

/-- The invariant. -/
structure Inv (s : Itable ι) : Prop where
  ref : ∀ e, (s.inode e).ref = tally (List.count e) s.refs
  unique : ∀ e e', 0 < (s.inode e).ref → 0 < (s.inode e').ref →
    (s.inode e).key = (s.inode e').key → e = e'
  holder : ∀ e t, (s.inode e).lock = some t →
    e ∈ s.refs t ∧ ((s.inode e).valid = true ∨ s.pc t = .ilockRead e)
  dirty : ∀ e, (s.inode e).dirty = true → (s.inode e).lock ≠ none
  coherent : ∀ e, 0 < (s.inode e).ref → (s.inode e).valid = true → (∀ t, s.pc t ≠ .iputValid e) →
    ((s.inode e).dirty = true ∨ (s.inode e).copy = s.disk (s.inode e).key)
      ∧ (s.inode e).copy.type ≠ 0 ∧ (s.disk (s.inode e).key).type ≠ 0
  guard : ∀ t, s.lock = some t → ∃ e, s.pc t = .iputSleep e
  pc : ∀ t, s.PcOk t (s.pc t)

namespace Inv

variable {s : Itable ι} {t t' : ι} {e : InodePtr}

/-- A reference keeps the entry in use. -/
theorem ref_pos (h : s.Inv) (he : e ∈ s.refs t) : 0 < (s.inode e).ref := by
  rw [h.ref e]
  exact Nat.lt_of_lt_of_le (List.count_pos_iff.mpr he) (le_tally (List.count e) s.refs t)

/-- A process that works on an entry has a reference to it. -/
theorem mem_of_entry (h : s.Inv) (hent : (s.pc t).entry = some e) : e ∈ s.refs t := by
  have hpc := h.pc t
  cases hk : s.pc t with
  | idle | iallocScan | iallocGet => simp [hk, InodePc.entry] at hent
  | ilockWait e' =>
    rw [hk] at hent hpc
    obtain rfl := Option.some.inj hent
    exact hpc
  | iputSleep e' =>
    rw [hk] at hent hpc
    obtain rfl := Option.some.inj hent
    exact hpc.2.2.1
  | iputDrop e' =>
    rw [hk] at hent hpc
    obtain rfl := Option.some.inj hent
    exact hpc.1
  | ilockRead e' | iputTrunc e' | iputFree e' | iputValid e' =>
    rw [hk] at hent hpc
    obtain rfl := Option.some.inj hent
    exact (h.holder e' t hpc.1).1

theorem lock_ne (h : s.Inv) (hk : ∀ e, s.pc t ≠ .iputSleep e) : s.lock ≠ some t := by
  intro hl
  obtain ⟨e, he⟩ := h.guard t hl
  exact hk e he

/-- Nobody is about to clear `valid` of an entry that nobody, or another process, has locked. -/
theorem ne_iputValid (h : s.Inv) (hl : ∀ t', (s.inode e).lock = some t' → s.pc t' ≠ .iputValid e) (t : ι) :
  s.pc t ≠ .iputValid e
  := by
  intro hk
  have hok := h.pc t
  rw [hk] at hok
  exact hl t hok.1 hk

/-- What a process knows of an inode it has locked. -/
theorem of_locked {k : InodePc} (h : s.Inv) (hpc : s.pc t = k) (hl : (s.inode e).lock = some t)
    (hread : k ≠ .ilockRead e) (hvalid : k ≠ .iputValid e) :
  ((s.inode e).dirty = true ∨ (s.inode e).copy = s.disk (s.inode e).key)
    ∧ (s.inode e).copy.type ≠ 0 ∧ (s.disk (s.inode e).key).type ≠ 0
  := by
  obtain ⟨he, hv⟩ := h.holder e t hl
  rw [hpc] at hv
  apply h.coherent e (h.ref_pos he) (hv.resolve_right hread)
  apply h.ne_iputValid
  intro t' hl'
  obtain rfl := Option.some.inj (hl.symm.trans hl')
  rw [hpc]
  exact hvalid

/-- What is known of an inode that nobody has locked. -/
theorem of_unlocked (h : s.Inv) (he : e ∈ s.refs t) (hl : (s.inode e).lock = none)
    (hv : (s.inode e).valid = true) :
  ((s.inode e).dirty = true ∨ (s.inode e).copy = s.disk (s.inode e).key)
    ∧ (s.inode e).copy.type ≠ 0 ∧ (s.disk (s.inode e).key).type ≠ 0
  := by
  apply h.coherent e (h.ref_pos he) hv
  apply h.ne_iputValid
  intro t' hl'
  rw [hl] at hl'
  cases hl'

variable [DecidableEq ι]

/-- The only reference is that of one process. -/
theorem eq_of_ref_one (h : s.Inv) (hone : (s.inode e).ref = 1) (he : e ∈ s.refs t) (he' : e ∈ s.refs t') :
  t' = t
  := by
  by_contra hne
  have hupd := tally_update (List.count e) s.refs t []
  have hle := le_tally (List.count e) (update s.refs t []) t'
  rw [update_of_ne hne] at hle
  have hpos := List.count_pos_iff.mpr he
  have hpos' := List.count_pos_iff.mpr he'
  have := h.ref e
  rw [List.count_nil] at hupd
  omega

theorem lock_none_of_unheld (h : s.Inv) (hone : (s.inode e).ref = 1) (he : e ∈ s.refs t)
    (hlock : (s.inode e).lock ≠ some t) :
  (s.inode e).lock = none
  := by
  cases hl : (s.inode e).lock with
  | none => rfl
  | some t' =>
    obtain rfl := h.eq_of_ref_one hone he (h.holder e t' hl).1
    exact absurd hl hlock

/-- A process that works on an entry to which another process has a reference, and does not
have it locked, waits for the lock or is about to give up its reference. -/
theorem aside (h : s.Inv) (he : e ∈ s.refs t) (hne : t' ≠ t) (hlock : (s.inode e).lock ≠ some t')
    (hent : (s.pc t').entry = some e) :
  s.pc t' = .ilockWait e ∨ s.pc t' = .iputDrop e
  := by
  have hpc := h.pc t'
  cases hk : s.pc t' with
  | idle | iallocScan | iallocGet => simp [hk, InodePc.entry] at hent
  | ilockWait e' =>
    rw [hk] at hent
    exact .inl (congrArg _ (Option.some.inj hent))
  | iputDrop e' =>
    rw [hk] at hent
    exact .inr (congrArg _ (Option.some.inj hent))
  | iputSleep e' =>
    rw [hk] at hent hpc
    obtain rfl := Option.some.inj hent
    exact absurd (h.eq_of_ref_one hpc.2.1 he hpc.2.2.1) hne
  | ilockRead e' | iputTrunc e' | iputFree e' | iputValid e' =>
    rw [hk] at hent hpc
    obtain rfl := Option.some.inj hent
    exact absurd hpc.1 hlock

end Inv

variable [DecidableEq ι]

namespace Inv

variable {s s' : Itable ι} {t t' : ι} {e : InodePtr}

section

variable (h : s.Inv) {ip : InCore ι} {d : Dinode}

include h

/-- What another process does to an entry to which it has a reference. -/
theorem pc_other (he : e ∈ s.refs t) (hne : t' ≠ t) (hl : (s.inode e).lock ≠ some t')
    (hl' : (s'.inode e).lock ≠ some t') (hinode : ∀ e', e' ≠ e → s'.inode e' = s.inode e')
    (hrefs : s'.refs t' = s.refs t') (hlock : s.lock = some t' → s'.lock = some t') :
  s'.PcOk t' (s.pc t')
  := by
  by_cases hent : (s.pc t').entry = some e
  · have hpc := h.pc t'
    obtain hk | hk := h.aside he hne hl hent
    · rw [hk] at hpc ⊢
      simpa only [PcOk, hrefs] using hpc
    · rw [hk] at hpc ⊢
      exact ⟨hrefs ▸ hpc.1, hl'⟩
  · apply (h.pc t').congr hrefs hlock
    intro e' he'
    apply hinode
    rintro rfl
    exact hent he'

/-- A process moves without touching the table. -/
theorem goto (hfrom : (s.pc t).entry = none) (hk : s.PcOk t k) : (s.goto t k).Inv := by
  have hne : ∀ {k'}, k'.entry ≠ none → s.pc t ≠ k' := by
    rintro k' hk' rfl
    exact hk' hfrom
  refine ⟨h.ref, h.unique, ?_, h.dirty, ?_, ?_, ?_⟩
  · intro e t₁ hl
    obtain ⟨he, hvalid⟩ := h.holder e t₁ hl
    refine ⟨he, hvalid.imp_right fun hread => ?_⟩
    have : t₁ ≠ t := by
      rintro rfl
      exact hne (by simp [InodePc.entry]) hread
    exact (update_of_ne this _ _).trans hread
  · intro e hpos hvalid hpc
    apply h.coherent e hpos hvalid
    intro t₁ hk₁
    by_cases ht₁ : t₁ = t
    · subst ht₁
      exact hne (by simp [InodePc.entry]) hk₁
    · exact hpc t₁ ((update_of_ne ht₁ _ _).trans hk₁)
  · intro t₁ hl
    obtain ⟨e, he⟩ := h.guard t₁ hl
    have : t₁ ≠ t := by
      rintro rfl
      exact hne (by simp [InodePc.entry]) he
    exact ⟨e, (update_of_ne this _ _).trans he⟩
  · intro t₁
    change (s.goto t k).PcOk t₁ (update s.pc t k t₁)
    refine update_cases t₁ ?_ (fun _ => ?_)
    · exact hk.congr rfl id fun _ _ => rfl
    · exact (h.pc t₁).congr rfl id fun _ _ => rfl

/-- A process changes an entry to which it has a reference, the inode on the disk, and its
own place. -/
theorem rework (hinode : s'.inode = update s.inode e ip)
    (hdisk : s'.disk = update s.disk (s.inode e).key d) (hpcs : s'.pc = update s.pc t k)
    (hrefs : s'.refs = s.refs) (he : e ∈ s.refs t) (hpc : s.pc t = k₀)
    (hent : ∀ e', k₀.entry = some e' → e' = e)
    (hl : s'.lock = none ∧ s.lock = some t ∨ s'.lock = s.lock ∧ ∀ e', k₀ ≠ .iputSleep e')
    (hlock : (s.inode e).lock = none ∨ (s.inode e).lock = some t)
    (hlock' : ip.lock = none ∨ ip.lock = some t) (hkey : ip.key = (s.inode e).key)
    (href : ip.ref = (s.inode e).ref)
    (hholder : ip.lock = some t → ip.valid = true ∨ k = .ilockRead e)
    (hdirty : ip.dirty = true → ip.lock ≠ none) (hcoherent : ip.valid = true → k ≠ .iputValid e →
    (ip.dirty = true ∨ ip.copy = d) ∧ ip.copy.type ≠ 0 ∧ d.type ≠ 0) (hk : s'.PcOk t k) :
  s'.Inv
  := by
  have hpos := h.ref_pos he
  have hread : ∀ {e'}, e' ≠ e → ∀ {k'}, k'.entry = some e' → s.pc t ≠ k' := by
    rintro e' hne k' hk' rfl
    exact hne (hent e' (hpc ▸ hk'))
  have hself : s'.lock ≠ some t := by
    obtain ⟨hnone, -⟩ | ⟨hsame, hsleep⟩ := hl
    · simp [hnone]
    · rw [hsame]
      exact h.lock_ne (hpc ▸ hsleep)
  have hother : ∀ t', t' ≠ t → (s'.lock = some t' ↔ s.lock = some t') := by
    intro t' ht'
    obtain ⟨hnone, hown⟩ | ⟨hsame, -⟩ := hl
    · simp [hnone, hown, ht'.symm]
    · rw [hsame]
  refine ⟨?_, ?_, ?_, ?_, ?_, ?_, ?_⟩
  all_goals simp only [hinode, hdisk, hpcs, hrefs]
  · intro e'
    refine update_cases e' ?_ (fun _ => h.ref e')
    rw [href, h.ref]
  · intro e₁ e₂
    have hsame : ∀ e', (update s.inode e ip e').ref = (s.inode e').ref
        ∧ (update s.inode e ip e').key = (s.inode e').key :=
      fun e' => update_cases e' ⟨href, hkey⟩ fun _ => ⟨rfl, rfl⟩
    simp only [(hsame e₁).1, (hsame e₁).2, (hsame e₂).1, (hsame e₂).2]
    exact h.unique e₁ e₂
  · intro e' t₁
    refine update_cases e' ?_ ?_
    · intro hl₁
      obtain rfl : t₁ = t := by
        by_contra hne
        exact ne_of_lock hlock' t₁ hne hl₁
      rw [update_self]
      exact ⟨he, hholder hl₁⟩
    · intro hee hl₁
      obtain ⟨he', hvalid⟩ := h.holder e' t₁ hl₁
      refine ⟨he', hvalid.imp_right fun hk₁ => ?_⟩
      have : t₁ ≠ t := by
        rintro rfl
        exact hread hee rfl hk₁
      rwa [update_of_ne this]
  · intro e'
    exact update_cases e' hdirty (fun _ => h.dirty e')
  · intro e'
    refine update_cases e' ?_ ?_
    · intro _ hvalid hpc'
      rw [hkey, update_self]
      apply hcoherent hvalid
      intro hkk
      apply hpc' t
      rw [update_self, hkk]
    · intro hee hpos' hvalid hpc'
      have hkeys : (s.inode e').key ≠ (s.inode e).key := by
        intro heq
        exact hee (h.unique e' e hpos' hpos heq)
      rw [update_of_ne hkeys]
      apply h.coherent e' hpos' hvalid
      intro t₁ hk₁
      by_cases ht₁ : t₁ = t
      · subst ht₁
        exact hread hee rfl hk₁
      · apply hpc' t₁
        rwa [update_of_ne ht₁]
  · intro t₁ hl₁
    have ht₁ : t₁ ≠ t := by
      rintro rfl
      exact hself hl₁
    obtain ⟨e₁, he₁⟩ := h.guard t₁ ((hother t₁ ht₁).mp hl₁)
    exact ⟨e₁, (update_of_ne ht₁ _ _).trans he₁⟩
  · intro t₁
    refine update_cases t₁ hk (fun ht₁ => ?_)
    apply h.pc_other he ht₁ (ne_of_lock hlock t₁ ht₁)
    · simp only [hinode, update_self]
      exact ne_of_lock hlock' t₁ ht₁
    · intro e' hee
      simp only [hinode, update_of_ne hee]
    · rw [hrefs]
    · exact (hother t₁ ht₁).mpr

/-- A process changes the references it has to an entry, or gets the first reference to an
entry that was not in use. -/
theorem recount {l : List InodePtr} (hinode : s'.inode = update s.inode e ip)
    (hdisk : s'.disk = s.disk) (hlocks : s'.lock = s.lock) (hpcs : s'.pc = update s.pc t k)
    (hrefs : s'.refs = update s.refs t l) (hfree : s.lock = none)
    (hfrom : (s.pc t).entry = none ∨ s.pc t = .iputDrop e) (hto : k.entry = none)
    (href : ip.ref = tally (List.count e) (update s.refs t l))
    (hcount : ∀ e', e' ≠ e → l.count e' = (s.refs t).count e')
    (hkept : (s.inode e).lock = some t → e ∈ l)
    (hlock : ip.lock = (s.inode e).lock) (hdirty : ip.dirty = (s.inode e).dirty)
    (hused : 0 < (s.inode e).ref → ip = (s.inode e).setRef ip.ref)
    (hunused : (s.inode e).ref = 0 → ip.valid = false
    ∧ ∀ e', 0 < (s.inode e').ref → (s.inode e').key ≠ ip.key) :
  s'.Inv
  := by
  have hne : ∀ {k'}, k'.entry ≠ none → (∀ e, k' ≠ .iputDrop e) → s.pc t ≠ k' := by
    rintro k' hk' hdrop rfl
    exact hfrom.elim hk' (hdrop e)
  have hmem : ∀ e' t₁, e' ∈ s.refs t₁ → (t₁ = t → e' = e → e' ∈ l) →
      e' ∈ update s.refs t l t₁ := by
    intro e' t₁ he' hself
    by_cases ht₁ : t₁ = t
    · subst ht₁
      rw [update_self]
      by_cases hee : e' = e
      · exact hself rfl hee
      · rw [← List.count_pos_iff, hcount e' hee]
        exact List.count_pos_iff.mpr he'
    · rwa [update_of_ne ht₁]
  refine ⟨?_, ?_, ?_, ?_, ?_, ?_, ?_⟩
  all_goals simp only [hinode, hdisk, hlocks, hpcs, hrefs]
  · intro e'
    refine update_cases e' href (fun hee => ?_)
    rw [h.ref e', tally_update_of_eq (hcount e' hee)]
  · intro e₁ e₂
    have hkey : ∀ e', e' ≠ e → 0 < ip.ref → 0 < (s.inode e').ref → (s.inode e').key ≠ ip.key := by
      intro e' hee _ hpos' heq
      rcases Nat.eq_zero_or_pos (s.inode e).ref with h0 | hpos
      · exact (hunused h0).2 e' hpos' heq
      · rw [hused hpos] at heq
        exact hee (h.unique e' e hpos' hpos heq)
    refine update_cases e₁ (update_cases e₂ ?_ ?_) fun h₁ => update_cases e₂ ?_ ?_
    · exact fun _ _ _ => rfl
    · exact fun h₂ hp hp' heq => absurd heq.symm (hkey e₂ h₂ hp hp')
    · exact fun hp hp' heq => absurd heq (hkey e₁ h₁ hp' hp)
    · exact fun _ => h.unique e₁ e₂
  · intro e' t₁ hl₁
    have hl₁' : (s.inode e').lock = some t₁ := by
      revert hl₁
      exact update_cases e' (fun hl₁ => hlock ▸ hl₁) (fun _ => id)
    obtain ⟨he', hvalid⟩ := h.holder e' t₁ hl₁'
    refine ⟨hmem e' t₁ he' ?_, hvalid.imp ?_ ?_⟩
    · rintro rfl rfl
      exact hkept hl₁'
    · intro hv
      by_cases hee : e' = e
      · subst hee
        rw [update_self, hused (h.ref_pos he')]
        exact hv
      · rwa [update_of_ne hee]
    · intro hk₁
      have : t₁ ≠ t := by
        rintro rfl
        exact hne (by simp [InodePc.entry]) (by simp) hk₁
      rwa [update_of_ne this]
  · intro e'
    refine update_cases e' ?_ (fun _ => h.dirty e')
    rw [hdirty, hlock]
    exact h.dirty e
  · intro e' hpos hvalid hpc
    have hpc' : ∀ t₁, s.pc t₁ ≠ .iputValid e' := by
      intro t₁ hk₁
      by_cases ht₁ : t₁ = t
      · subst ht₁
        exact hne (by simp [InodePc.entry]) (by simp) hk₁
      · exact hpc t₁ ((update_of_ne ht₁ _ _).trans hk₁)
    by_cases hee : e' = e
    · subst hee
      simp only [update_self] at hpos hvalid ⊢
      rcases Nat.eq_zero_or_pos (s.inode e').ref with h0 | hpos'
      · rw [(hunused h0).1] at hvalid
        cases hvalid
      · rw [hused hpos'] at hvalid ⊢
        exact h.coherent e' hpos' hvalid hpc'
    · simp only [update_of_ne hee] at hpos hvalid ⊢
      exact h.coherent e' hpos hvalid hpc'
  · intro t₁ hl₁
    simp only [hfree] at hl₁
    cases hl₁
  · intro t₁
    refine update_cases t₁ ?_ (fun ht₁ => ?_)
    · cases k <;> simp_all [InodePc.entry, PcOk]
    · by_cases hent : (s.pc t₁).entry = some e
      · have hpos := h.ref_pos (h.mem_of_entry hent)
        apply (h.pc t₁).setRef hfree hent
        · rw [hrefs, update_of_ne ht₁]
        · rw [hinode, update_self]
          exact hused hpos
      · apply (h.pc t₁).congr
        · rw [hrefs, update_of_ne ht₁]
        · rw [hlocks]
          exact id
        · intro e' he'
          rw [hinode, update_of_ne]
          rintro rfl
          exact hent he'

/-! ### The steps -/

section

variable (hfree : s.lock = none) (hfrom : (s.pc t).entry = none)

include hfree hfrom

/-- One more reference. -/
theorem adopt (hinode : s'.inode = update s.inode e ip) (hdisk : s'.disk = s.disk)
    (hlocks : s'.lock = s.lock) (hpcs : s'.pc = s.pc) (hrefs : s'.refs = update s.refs t (e :: s.refs t))
    (href : ip.ref = (s.inode e).ref + 1) (hlock : ip.lock = (s.inode e).lock)
    (hdirty : ip.dirty = (s.inode e).dirty)
    (hused : 0 < (s.inode e).ref → ip = (s.inode e).setRef ip.ref)
    (hunused : (s.inode e).ref = 0 → ip.valid = false
    ∧ ∀ e', 0 < (s.inode e').ref → (s.inode e').key ≠ ip.key) :
  s'.Inv
  := by
  refine h.recount hinode hdisk hlocks (hpcs.trans (update_eq_self t s.pc).symm) hrefs hfree (.inl hfrom) hfrom
    ?_ ?_ (fun _ => List.mem_cons_self) hlock hdirty hused hunused
  · have := tally_update (List.count e) s.refs t (e :: s.refs t)
    rw [List.count_cons_self, ← h.ref e] at this
    omega
  · intro e' hee
    rw [List.count_cons_of_ne hee.symm]

/-- The entry is in use. -/
theorem gain (hpos : 0 < (s.inode e).ref) (fresh : Bool) : ((s.gain t e).setFresh e fresh).Inv := by
  refine h.adopt hfree hfrom rfl rfl rfl rfl rfl rfl rfl rfl (fun _ => rfl) ?_
  intro h0
  omega

/-- The reference is the first one to the entry. -/
theorem recycle (hzero : (s.inode e).ref = 0) (hkey : s.find key = none) (fresh : Bool) :
  (((s.setInode e ((s.inode e).recycle key)).setRefs t (e :: s.refs t)).setFresh e fresh).Inv
  := by
  refine h.adopt hfree hfrom rfl rfl rfl rfl rfl ?_ rfl rfl ?_ (fun _ => ⟨rfl, find_eq_none hkey⟩)
  · rw [hzero]
    rfl
  · intro hpos
    omega

theorem got {fresh : Bool} (hgot : s.Got t key fresh s') : s'.Inv := by
  cases hgot with
  | found hfind => exact h.gain hfree hfrom (of_find hfind).1 _
  | recycled hfind hempty => exact h.recycle hfree hfrom (of_empty hempty) hfind fresh

end

/-- A reference is given up. -/
theorem lose (hfree : s.lock = none)
    (hfrom : (s.pc t).entry = none ∨ s.pc t = .iputDrop e) (he : e ∈ s.refs t)
    (hkept : (s.inode e).lock = some t → 2 ≤ (s.refs t).count e) :
  ((s.lose t e).goto t .idle).Inv
  := by
  have hpos := h.ref_pos he
  refine h.recount rfl rfl rfl rfl rfl hfree hfrom rfl ?_ ?_ ?_ rfl rfl (fun _ => rfl) ?_
  · have := tally_update (List.count e) s.refs t ((s.refs t).erase e)
    rw [List.count_erase_self, ← h.ref e] at this
    have hcount := List.count_pos_iff.mpr he
    simp only [InCore.setRef]
    omega
  · intro e' hee
    rw [List.count_erase_of_ne hee]
  · intro hl
    have := hkept hl
    rw [← List.count_pos_iff, List.count_erase_self]
    omega
  · intro h0
    omega

/-- `iput` decides to free the inode. -/
theorem hold (hfree : s.lock = none) (hfrom : s.pc t = .idle) (he : e ∈ s.refs t)
    (hone : (s.inode e).ref = 1) (hvalid : (s.inode e).valid = true)
    (hnlink : (s.inode e).copy.nlink = 0)
    (hkept : (s.inode e).lock = some t → 2 ≤ (s.refs t).count e) :
  ((s.setLock (some t)).goto t (.iputSleep e)).Inv
  := by
  have hne : ∀ {t₁ k}, s.pc t₁ = k → k ≠ .idle → update s.pc t (.iputSleep e) t₁ = k := by
    rintro t₁ k rfl hk
    apply update_of_ne
    rintro rfl
    exact hk hfrom
  refine ⟨h.ref, h.unique, ?_, h.dirty, ?_, ?_, ?_⟩
  · intro e' t₁ hl
    obtain ⟨he', hv⟩ := h.holder e' t₁ hl
    exact ⟨he', hv.imp_right fun hk => hne hk (by simp)⟩
  · intro e' hpos hv hpc
    apply h.coherent e' hpos hv
    intro t₁ hk
    exact hpc t₁ (hne hk (by simp))
  · intro t₁ hl
    obtain rfl := Option.some.inj hl
    exact ⟨e, update_self ..⟩
  · intro t₁
    by_cases ht₁ : t₁ = t
    · subst ht₁
      simp only [Itable.goto, Itable.setLock, update_self]
      refine ⟨rfl, hone, he, hvalid, hnlink, ?_⟩
      intro hl
      have hcount := hkept hl
      have hle := le_tally (List.count e) s.refs t₁
      rw [← h.ref e, hone] at hle
      omega
    · simp only [Itable.goto, Itable.setLock, update_of_ne ht₁]
      refine PcOk.congr (h.pc t₁) rfl ?_ fun _ _ => rfl
      intro hl
      rw [hfree] at hl
      cases hl

omit [DecidableEq ι] in
/-- `ialloc` takes a free inode. -/
theorem allocate (htype : (s.disk key).type = 0) (d : Dinode) : (s.setDisk key d).Inv := by
  refine ⟨h.ref, h.unique, h.holder, h.dirty, ?_, h.guard, ?_⟩
  · intro e hpos hvalid hpc
    have hcoh := h.coherent e hpos hvalid hpc
    have hne : (s.inode e).key ≠ key := by
      rintro rfl
      exact hcoh.2.2 htype
    simp only [Itable.setDisk, update_of_ne hne]
    exact hcoh
  · intro t
    exact (h.pc t).congr rfl id fun _ _ => rfl

/-- `ilock` has acquired the lock. -/
theorem takeLock (hpc : s.pc t = .ilockWait e) (hl : (s.inode e).lock = none) :
  ((s.setInode e ((s.inode e).setLock (some t))).goto t
    (if (s.inode e).valid then .idle else .ilockRead e)).Inv
  := by
  have hok := h.pc t
  rw [hpc] at hok
  have he : e ∈ s.refs t := hok
  refine h.rework rfl (update_eq_self ..).symm rfl rfl he hpc (by rintro _ ⟨⟩; rfl)
    (.inr ⟨rfl, by rintro _ ⟨⟩⟩) (.inl hl) (.inr rfl) rfl rfl ?_ ?_ ?_ ?_
  · intro _
    cases hv : (s.inode e).valid with
    | true => exact .inl hv
    | false => exact .inr rfl
  · intro _ hnone
    cases hnone
  · intro hv _
    exact h.of_unlocked he hl hv
  · cases hv : (s.inode e).valid with
    | true => trivial
    | false =>
      simp only [Bool.false_eq_true, if_false, PcOk, Itable.goto, Itable.setInode, update_self]
      exact ⟨rfl, hv⟩

/-- `ilock` has read the inode. -/
theorem read (hpc : s.pc t = .ilockRead e) (htype : (s.disk (s.inode e).key).type ≠ 0) :
  (((s.setInode e ((s.inode e).fill (s.disk (s.inode e).key))).setFresh e false).goto t .idle).Inv
  := by
  have hok := h.pc t
  rw [hpc] at hok
  refine h.rework rfl (update_eq_self ..).symm rfl rfl (h.holder e t hok.1).1 hpc (by rintro _ ⟨⟩; rfl)
    (.inr ⟨rfl, by rintro _ ⟨⟩⟩) (.inr hok.1) (.inr hok.1) rfl rfl ?_ (h.dirty e) ?_ trivial
  · intro _
    exact .inl rfl
  · intro _ _
    exact ⟨.inr rfl, htype, htype⟩

/-- A process changes the copy that it has locked. -/
theorem change (hpc : s.pc t = .idle) (hl : (s.inode e).lock = some t) (htype : d.type ≠ 0) :
  (s.setInode e ((s.inode e).change d)).Inv
  := by
  obtain ⟨he, hvalid⟩ := h.holder e t hl
  have hv : (s.inode e).valid = true := by
    rw [hpc] at hvalid
    simpa using hvalid
  refine h.rework (k := .idle) rfl (update_eq_self ..).symm ?_ rfl he hpc (by rintro _ ⟨⟩)
    (.inr ⟨rfl, by rintro _ ⟨⟩⟩) (.inr hl) (.inr hl) rfl rfl ?_ ?_ ?_ trivial
  · rw [← hpc, update_eq_self]
    rfl
  · intro _
    exact .inl hv
  · intro _
    simp [InCore.change, hl]
  · intro _ _
    exact ⟨.inl rfl, htype, (h.of_locked hpc hl (by simp) (by simp)).2.2⟩

/-- A process writes an inode that it has locked. -/
theorem save (hpc : s.pc t = k₀) (hent : ∀ e', k₀.entry = some e' → e' = e)
    (hsleep : ∀ e', k₀ ≠ .iputSleep e')
    (hl : (s.inode e).lock = some t) (hv : (s.inode e).valid = true)
    (htype : k ≠ .iputValid e → d.type ≠ 0) (hk : k = .idle ∨ k = .iputFree e ∨ k = .iputValid e) :
  ((s.save e d).goto t k).Inv
  := by
  refine h.rework rfl rfl rfl rfl (h.holder e t hl).1 hpc hent (.inr ⟨rfl, hsleep⟩) (.inr hl) (.inr hl)
    rfl rfl ?_ ?_ ?_ ?_
  · intro _
    exact .inl hv
  · intro hd
    cases hd
  · intro _ hne
    exact ⟨.inr rfl, htype hne, htype hne⟩
  · have hok : ((((s.save e d).goto t k).inode e).lock = some t
        ∧ (((s.save e d).goto t k).inode e).valid = true
        ∧ (((s.save e d).goto t k).inode e).dirty = false) := by
      simp [Itable.save, Itable.goto, Itable.setInode, Itable.setDisk, InCore.save, hl, hv]
    obtain rfl | rfl | rfl := hk
    · trivial
    · exact hok
    · exact hok

/-- A process releases the lock of an inode. -/
theorem unlock (hl : (s.inode e).lock = some t) (hd : (s.inode e).dirty = false)
    (hk : (ip = (s.inode e).setLock none ∧ s.pc t = .idle ∧ k = .idle)
    ∨ (ip = (s.inode e).invalidate.setLock none ∧ s.pc t = .iputValid e ∧ k = .iputDrop e)) :
  ((s.setInode e ip).goto t k).Inv
  := by
  obtain ⟨he, hvalid⟩ := h.holder e t hl
  obtain ⟨rfl, hpc, rfl⟩ | ⟨rfl, hpc, rfl⟩ := hk
  · refine h.rework rfl (update_eq_self ..).symm rfl rfl he hpc (by rintro _ ⟨⟩)
      (.inr ⟨rfl, by rintro _ ⟨⟩⟩) (.inr hl) (.inl rfl) rfl rfl (by rintro ⟨⟩) ?_ ?_ trivial
    · intro hd'
      exact absurd (hd.symm.trans hd') Bool.false_ne_true
    · intro _ _
      exact h.of_locked hpc hl (by simp) (by simp)
  · refine h.rework rfl (update_eq_self ..).symm rfl rfl he hpc (by rintro _ ⟨⟩; rfl)
      (.inr ⟨rfl, by rintro _ ⟨⟩⟩) (.inr hl) (.inl rfl) rfl rfl (by rintro ⟨⟩) ?_ (by rintro ⟨⟩) ?_
    · intro hd'
      exact absurd (hd.symm.trans hd') Bool.false_ne_true
    · simp only [PcOk, Itable.goto, Itable.setInode, update_self]
      exact ⟨he, by rintro ⟨⟩⟩

/-- `iput` has acquired the lock of the inode and gives up `itable.lock`. -/
theorem wake (hpc : s.pc t = .iputSleep e) (hl : (s.inode e).lock = none) :
  (((s.setInode e ((s.inode e).setLock (some t))).setLock none).goto t (.iputTrunc e)).Inv
  := by
  have hok := h.pc t
  rw [hpc] at hok
  obtain ⟨hlock, -, he, hv, -, -⟩ := hok
  refine h.rework rfl (update_eq_self ..).symm rfl rfl he hpc (by rintro _ ⟨⟩; rfl)
    (.inl ⟨rfl, hlock⟩) (.inl hl) (.inr rfl) rfl rfl ?_ ?_ ?_ ?_
  · intro _
    exact .inl hv
  · intro _ hnone
    cases hnone
  · intro _ _
    exact h.of_unlocked he hl hv
  · simp only [PcOk, Itable.goto, Itable.setInode, Itable.setLock, update_self]
    refine ⟨rfl, hv, ?_⟩
    cases hd : (s.inode e).dirty with
    | false => exact hd
    | true => exact absurd hl (h.dirty e hd)

end

omit [DecidableEq ι] in
theorem boot (disk : ℕ × ℕ → Dinode) : (Itable.boot disk : Itable ι).Inv where
  ref := by
    intro e
    have : tally (List.count e) (fun _ : ι => ([] : List InodePtr)) = 0 := tally_eq_zero.mpr (by simp)
    exact this.symm
  unique := by
    intro e e' hpos
    cases hpos
  holder := by
    intro e t hl
    cases hl
  dirty := by
    intro e hd
    cases hd
  coherent := by
    intro e hpos
    cases hpos
  guard := by
    intro t hl
    cases hl
  pc := by
    intro t
    trivial

/-- Every step keeps the invariant, unless it panics. -/
theorem step {ninodes : ℕ} {a : InodeAct ι} (h : s.Inv) (heff : s.Effect ninodes a s') :
  s'.Inv
  := by
  have hentry : ∀ {t k}, s.pc t = k → k.entry = none → (s.pc t).entry = none := by
    rintro t k rfl hk
    exact hk
  cases heff with
  | iget hpc hfree _ hgot | handOut hpc hfree hgot =>
    refine (h.got hfree (hentry hpc rfl) hgot).goto ?_ trivial
    rw [hgot.pc_eq, hentry hpc rfl]
  | idup hpc hfree he =>
    exact (h.gain hfree (hentry hpc rfl) (h.ref_pos he) _).goto (hentry hpc rfl) trivial
  | ilock hpc he => exact h.goto (hentry hpc rfl) he
  | modify hpc hl htype => exact (h.change hpc hl htype).goto (hentry hpc rfl) trivial
  | iupdate hpc hl =>
    have hvalid := (h.holder _ _ hl).2
    simp only [hpc, reduceCtorEq, or_false] at hvalid
    apply h.save hpc (by rintro _ ⟨⟩) (by rintro _ ⟨⟩) hl hvalid _ (.inl rfl)
    intro _
    exact (h.of_locked hpc hl (by simp) (by simp)).2.1
  | iunlock hpc hl hclean => exact h.unlock hl hclean (.inl ⟨rfl, hpc, rfl⟩)
  | last hpc hfree he hkept hone hvalid hnlink => exact h.hold hfree hpc he hone hvalid hnlink hkept
  | iput hpc hfree he hkept _ => exact h.lose hfree (.inl (hentry hpc rfl)) he hkept
  | ialloc hpc _ => exact h.goto (hentry hpc rfl) trivial
  | lock hpc hl => exact h.takeLock hpc hl
  | read hpc htype => exact h.read hpc htype
  | wake hpc hl => exact h.wake hpc hl
  | @trunc t e hpc =>
    have hok := h.pc t
    rw [hpc] at hok
    apply h.save hpc (by rintro _ ⟨⟩; rfl) (by rintro _ ⟨⟩) hok.1 hok.2.1 _ (.inr (.inl rfl))
    intro _
    exact (h.of_locked hpc hok.1 (by simp) (by simp)).2.1
  | @free t e hpc =>
    have hok := h.pc t
    rw [hpc] at hok
    apply h.save hpc (by rintro _ ⟨⟩; rfl) (by rintro _ ⟨⟩) hok.1 hok.2.1 _ (.inr (.inr rfl))
    intro hne
    exact absurd rfl hne
  | @invalidate t e hpc =>
    have hok := h.pc t
    rw [hpc] at hok
    exact h.unlock hok.1 hok.2.2 (.inr ⟨rfl, hpc, rfl⟩)
  | @drop t e hpc hfree =>
    have hok := h.pc t
    rw [hpc] at hok
    exact h.lose hfree (.inr hpc) hok.1 fun hl => absurd hl hok.2
  | allocate hpc _ htype => exact (h.allocate htype _).goto (hentry hpc rfl) trivial
  | scan hpc hnext =>
    apply h.goto (hentry hpc rfl)
    obtain rfl | rfl := hnext <;> trivial

end Inv

end Itable

end Xv6
