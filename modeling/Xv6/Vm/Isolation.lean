import Xv6.Vm.Fork

/-!
# Parent and child

After a `kfork` the child sees the memory of the parent, but the two have no page in common.
So whatever one of them does to its memory, the other sees what it saw before.
-/

namespace Xv6.Uvm

open Assertion PtTree Prog

variable {L : Link} {σ σ' : Kernel} {p np : Slot} {S S' : Space} {s s' : Store ℕ PageData}
  {f : PageData} {R R' : Assertion ℕ PageData} {pt pt' tf tf' va : ℕ} {pa : ℕ → ℕ} {t : PtTree 2}
  {op : UserOp}

/-- Where the memory of a process is. -/
def Task.mem (t : Task) : ProcMem := ⟨t.pagetable, t.sz⟩

/-- Operations of two processes, one after another. -/
def runBoth (L : Link) : ProcMem × ProcMem → List (UserOp ⊕ UserOp) → Vm (ProcMem × ProcMem)
  | ms, [] => return ms
  | ms, .inl op :: ops => do
    let r ← op.run L ms.1
    runBoth L (r.2, ms.2) ops
  | ms, .inr op :: ops => do
    let r ← op.run L ms.2
    runBoth L (ms.1, r.2) ops

/-- The page that the page table has for an address. -/
def physical (pagetable va : ℕ) : Vm (Option ℕ) := do
  match ← walk pagetable va false with
  | none => return none
  | some pte =>
    let w ← readPte pte
    if w &&& PTE_V = 0 then return none else return some (PTE2PA w)

/-- If there is memory, the operation is seen to do the same in both cases. -/
def SeenAlike (L : Link) (m m' : ProcMem) (s s' : Store ℕ PageData) (op : UserOp) : Prop :=
  (op.run L m).Ample s → (op.run L m').Ample s' →
    ∃ o m₁ s₁ m₂ s₂, (op.run L m).exec s = some ((o, m₁), s₁) ∧ (op.run L m').exec s' = some ((o, m₂), s₂)

/-! ### One process -/

theorem run_exec (hs : s.Has L.pool (isSpace L pt tf S * R)) (op : UserOp) :
  ∃ o S' s', (op.run L ⟨pt, S.sz⟩).exec s = some ((o, ⟨pt, S'.sz⟩), s')
    ∧ Acts (¬ (op.run L ⟨pt, S.sz⟩).Ample s) S op o S'
    ∧ s'.Has L.pool (isSpace L pt tf S' * R)
  := by
  have hspec := run_spec L { oom := ¬ (op.run L ⟨pt, S.sz⟩).Ample s, panics := False } pt tf S op
  obtain ⟨⟨o, m⟩, s', hexec, hs'⟩ := hspec.returns not_false hs (Classical.em _).symm
  rw [ex_mul] at hs'
  obtain ⟨h', ⟨S', hS'⟩, hholds, hin⟩ := hs'
  rw [mul_assoc, fact_mul_iff] at hS'
  obtain ⟨⟨hacts, hm⟩, hS'⟩ := hS'
  dsimp only at hacts hm
  subst hm
  exact ⟨o, S', s', hexec, hacts, h', hS', hholds, hin⟩

theorem runOps_exec (hs : s.Has L.pool (isSpace L pt tf S * R)) (ops : List UserOp) :
  ∃ r s' S', (runOps L ⟨pt, S.sz⟩ ops).exec s = some (r, s')
    ∧ s'.Has L.pool (isSpace L pt tf S' * R)
  := by
  have hspec := runOps_spec L { oom := True, panics := False } pt tf S ops
  obtain ⟨r, s', hexec, hs'⟩ := hspec.returns not_false hs (Or.inl trivial)
  rw [ex_mul] at hs'
  obtain ⟨h', ⟨S', hS'⟩, hholds, hin⟩ := hs'
  rw [mul_assoc, fact_mul_iff] at hS'
  exact ⟨r, s', S', hexec, h', hS'.2, hholds, hin⟩

/-- The operation is a load or a store. -/
def UserOp.IsAccess : UserOp → Prop
  | .load _ => True
  | .store _ _ => True
  | _ => False

/-- If there is memory, what is seen of an access is determined by the address space. -/
theorem Acts.seen_unique {oom oom' : Prop} {o o' : Seen} {S₁ S₂ : Space}
    (hop : op.IsAccess) (h : Acts oom S op o S₁) (h' : Acts oom' S op o' S₂) (hoom : ¬ oom)
    (hoom' : ¬ oom') :
  o = o'
  := by
  cases h with
  | load hallows _ =>
    cases h' with
    | load _ _ => rfl
    | loadKilled hwhy =>
      rcases hwhy with hnot | ⟨_, h⟩
      · exact absurd hallows hnot
      · exact absurd h hoom'
  | loadKilled hwhy =>
    cases h' with
    | load hallows _ =>
      rcases hwhy with hnot | ⟨_, h⟩
      · exact absurd hallows hnot
      · exact absurd h hoom
    | loadKilled _ => rfl
  | store hallows _ _ =>
    cases h' with
    | store _ _ _ => rfl
    | storeKilled hwhy =>
      rcases hwhy with hnot | ⟨_, h⟩
      · exact absurd hallows hnot
      · exact absurd h hoom'
  | storeKilled hwhy =>
    cases h' with
    | store hallows _ _ =>
      rcases hwhy with hnot | ⟨_, h⟩
      · exact absurd hallows hnot
      · exact absurd h hoom
    | storeKilled _ => rfl
  | sbrk | copyin | copyout => exact hop.elim

/-- Two processes with the same address space, or one at different times. -/
theorem seenAlike (hop : op.IsAccess) (hs : s.Has L.pool (isSpace L pt tf S * R))
    (hs' : s'.Has L.pool (isSpace L pt' tf' S * R')) :
  SeenAlike L ⟨pt, S.sz⟩ ⟨pt', S.sz⟩ s s' op
  := by
  intro hample hample'
  obtain ⟨o, S₁, s₁, hexec, hacts, _⟩ := run_exec hs op
  obtain ⟨o', S₂, s₂, hexec', hacts', _⟩ := run_exec hs' op
  obtain rfl := hacts.seen_unique hop hacts' (not_not.mpr hample) (not_not.mpr hample')
  exact ⟨_, _, s₁, _, s₂, hexec, hexec'⟩

/-! ### Two processes -/

/-- Each of two processes keeps an address space of its own. -/
theorem runBoth_exec (hs : s.Has L.pool (isSpace L pt tf S * (isSpace L pt' tf' S' * R)))
    (ops : List (UserOp ⊕ UserOp)) :
  ∃ (S₁ S₁' : Space) (s₁ : Store ℕ PageData),
    (runBoth L (⟨pt, S.sz⟩, ⟨pt', S'.sz⟩) ops).exec s = some ((⟨pt, S₁.sz⟩, ⟨pt', S₁'.sz⟩), s₁)
      ∧ s₁.Has L.pool (isSpace L pt tf S₁ * (isSpace L pt' tf' S₁' * R))
  := by
  induction ops generalizing s S S' with
  | nil => exact ⟨S, S', s, rfl, hs⟩
  | cons op ops ih =>
    cases op with
    | inl op =>
      obtain ⟨o, S₁, s₁, hexec, _, hs₁⟩ := run_exec hs op
      rw [runBoth, exec_bind hexec]
      exact ih hs₁
    | inr op =>
      rw [mul_left_comm] at hs
      obtain ⟨o, S₁', s₁, hexec, _, hs₁⟩ := run_exec hs op
      rw [runBoth, exec_bind hexec]
      rw [mul_left_comm] at hs₁
      exact ih hs₁

/-- Whatever the first process does, the second one sees what it saw. -/
theorem sees_same (hs : s.Has L.pool (isSpace L pt tf S * (isSpace L pt' tf' S' * R)))
    (ops : List UserOp) :
  ∃ r s', (runOps L ⟨pt, S.sz⟩ ops).exec s = some (r, s')
    ∧ ∀ a, SeenAlike L ⟨pt', S'.sz⟩ ⟨pt', S'.sz⟩ s s' (.load a)
  := by
  obtain ⟨r, s', S₁, hexec, hs'⟩ := runOps_exec hs ops
  refine ⟨r, s', hexec, ?_⟩
  intro a
  rw [mul_left_comm] at hs hs'
  exact seenAlike trivial hs hs'

/-! ### Pages -/

theorem physical_spec {m : Prog.Mode} (hM : Maps L tf t pa S.page) (hva : va < S.sz) :
  Triple L.pool m (isTable pt t) (physical pt va)
    (fun r => fact (r = (S.page (va / PGSIZE)).map fun _ => pa (va / PGSIZE)) * isTable pt t)
  := by
  have hv : va / PGSIZE < UPN := S.lt_UPN (page_lt_sz hva)
  have hvpn : va < MAXVA := by
    have hsz := S.sz_le
    unfold TRAPFRAME TRAMPOLINE PGSIZE at hsz
    omega
  rw [← mul_one (isTable pt t)]
  unfold physical
  apply Triple.walk (fun _ => hvpn)
  · intro t' q _ hw hq
    obtain rfl := hw.same rfl
    apply Triple.readPte hq
    rw [entry_eq_pte]
    cases hpg : S.page (va / PGSIZE) with
    | none =>
      rw [if_pos (not_not.mp (hM.invalid hv hpg))]
      apply Triple.ret
      exact le_fact_mul rfl (le_refl _)
    | some pg =>
      rw [hM.mapped _ pg hpg, if_neg (pg.entry_valid _), Link.PTE2PA_or (hM.pool _ pg hpg) pg.isFlags]
      apply Triple.ret
      exact le_fact_mul rfl (le_refl _)
  · intro t' _ hw hzero
    obtain rfl := hw.same rfl
    apply Triple.ret
    rw [hM.page_eq_none hzero]
    exact le_fact_mul rfl (le_refl _)

theorem physical_exec {h : Heap ℕ PageData} {a : ℕ}
    (hM : Maps L tf t pa S.page) (hva : va < S.sz) (hh : (isTable pt t * R) h)
    (hholds : Holds L.pool s h) (hin : InPool L.pool h)
    (hexec : (physical pt va).exec s = some (some a, s')) :
  ∃ pg, S.page (va / PGSIZE) = some pg ∧ a = pa (va / PGSIZE)
  := by
  have hspec : Triple L.pool ⟨True, False⟩ (isTable pt t) (physical pt va) _ := physical_spec hM hva
  obtain ⟨r, s₁, hexec', h', hr, _⟩ := hspec.returns not_false ⟨h, hh, hholds, hin⟩ (Or.inl trivial)
  rw [hexec] at hexec'
  obtain ⟨rfl, _⟩ := Prod.mk.inj (Option.some.inj hexec')
  rw [mul_assoc, fact_mul_iff] at hr
  obtain ⟨pg, hpg, ha⟩ := Option.map_eq_some_iff.mp hr.1.symm
  exact ⟨pg, hpg, ha.symm⟩

/-- Two address spaces in memory have no page in common. -/
theorem physical_ne {va' a b : ℕ} {s₁ s₂ : Store ℕ PageData}
    (hs : s.Has L.pool (isSpace L pt tf S * (isSpace L pt' tf' S' * R))) (hva : va < S.sz)
    (hva' : va' < S'.sz) (ha : (physical pt va).exec s = some (some a, s₁))
    (hb : (physical pt' va').exec s = some (some b, s₂)) :
  a ≠ b
  := by
  obtain ⟨h, hh, hholds, hin⟩ := hs
  unfold isSpace at hh
  simp only [ex_mul, mul_ex] at hh
  obtain ⟨t', pa', t, pa, hh⟩ := hh
  have hac : fact (Maps L tf t pa S.page) * (isTable pt t * frames pa S.page)
        * (fact (Maps L tf' t' pa' S'.page) * (isTable pt' t' * frames pa' S'.page) * R)
      = fact (Maps L tf t pa S.page) * (fact (Maps L tf' t' pa' S'.page)
        * (isTable pt t * (isTable pt' t' * (frames pa S.page * (frames pa' S'.page * R))))) := by
    ac_rfl
  rw [hac] at hh
  obtain ⟨hM, hh⟩ := fact_mul_iff.mp hh
  obtain ⟨hM', hh⟩ := fact_mul_iff.mp hh
  obtain ⟨pg, hpg, rfl⟩ := physical_exec hM hva hh hholds hin ha
  have hh' := hh
  rw [mul_left_comm] at hh'
  obtain ⟨pg', hpg', rfl⟩ := physical_exec hM' hva' hh' hholds hin hb
  rw [frames_some (Space.lt_UPN_of_some hpg) hpg, frames_some (Space.lt_UPN_of_some hpg') hpg'] at hh
  have hpages : isTable pt t * (isTable pt' t' * (single (pa (va / PGSIZE)) pg.data
        * others pa S.page (va / PGSIZE) * (single (pa' (va' / PGSIZE)) pg'.data
          * others pa' S'.page (va' / PGSIZE) * R)))
      = single (pa (va / PGSIZE)) pg.data * (single (pa' (va' / PGSIZE)) pg'.data
        * (isTable pt t * (isTable pt' t' * (others pa S.page (va / PGSIZE)
          * (others pa' S'.page (va' / PGSIZE) * R))))) := by
    ac_rfl
  rw [hpages] at hh
  exact ne_of_single hh

/-! ### Parent and child -/

/-- The registers of the child are the ones of the parent, apart from `a0`. -/
structure TrapframeCopied (f f' : PageData) : Prop where
  a0 : f' A0 = 0
  other : ∀ i : Fin 512, i.val < TRAPWORDS → i ≠ A0 → f' i = f i

theorem copyTrapframe_copied (f old : PageData) : TrapframeCopied f (copyTrapframe f old) := by
  constructor
  · exact Function.update_self _ _ _
  · intro i hi hne
    unfold copyTrapframe
    rw [Function.update_of_ne hne, if_pos hi]

/-- The child has a copy of the memory of the parent, and it is a memory of its own. -/
structure Isolated (L : Link) (parent child : Task) (s : Store ℕ PageData) : Prop where
  sz : child.sz = parent.sz
  accesses : ∀ op : UserOp, op.IsAccess → SeenAlike L parent.mem child.mem s s op
  pages : ∀ va va' a b s₁ s₂, va < parent.sz → va' < child.sz →
    (physical parent.pagetable va).exec s = some (some a, s₁) →
    (physical child.pagetable va').exec s = some (some b, s₂) → a ≠ b
  -- after any operations of both, the operations of one are not seen by the other
  later : ∀ before : List (UserOp ⊕ UserOp), ∃ ms s₁,
    (runBoth L (parent.mem, child.mem) before).exec s = some (ms, s₁) ∧ ∀ ops,
      (∃ r s₂, (runOps L ms.1 ops).exec s₁ = some (r, s₂)
        ∧ ∀ a, SeenAlike L ms.2 ms.2 s₁ s₂ (.load a))
      ∧ ∃ r s₂, (runOps L ms.2 ops).exec s₁ = some (r, s₂)
        ∧ ∀ a, SeenAlike L ms.1 ms.1 s₁ s₂ (.load a)
  trapframe : TrapframeCopied (s.cell parent.trapframe) (s.cell child.trapframe)

theorem cell_of_has {q : ℕ} (hs : s.Has L.pool (single q f * R)) : s.cell q = f := by
  obtain ⟨h, hh, hholds, _⟩ := hs
  exact hholds.cells q f (owned_of_single hh)

theorem isolated_of_has {parent child : Task} {f' : PageData} (hsz : parent.sz = S.sz)
    (hsz' : child.sz = S.sz) (hf : TrapframeCopied f f')
    (hs : s.Has L.pool (owns L child S f' * (owns L parent S f * R))) :
  Isolated L parent child s
  := by
  unfold owns at hs
  have hspaces : isSpace L child.pagetable child.trapframe S * single child.trapframe f'
        * (isSpace L parent.pagetable parent.trapframe S * single parent.trapframe f * R)
      = isSpace L parent.pagetable parent.trapframe S
        * (isSpace L child.pagetable child.trapframe S
          * (single parent.trapframe f * (single child.trapframe f' * R))) := by
    ac_rfl
  have hparent : isSpace L parent.pagetable parent.trapframe S
        * (isSpace L child.pagetable child.trapframe S
          * (single parent.trapframe f * (single child.trapframe f' * R)))
      = single parent.trapframe f * (isSpace L parent.pagetable parent.trapframe S
        * (isSpace L child.pagetable child.trapframe S * (single child.trapframe f' * R))) := by
    ac_rfl
  have hchild : isSpace L parent.pagetable parent.trapframe S
        * (isSpace L child.pagetable child.trapframe S
          * (single parent.trapframe f * (single child.trapframe f' * R)))
      = single child.trapframe f' * (isSpace L parent.pagetable parent.trapframe S
        * (isSpace L child.pagetable child.trapframe S * (single parent.trapframe f * R))) := by
    ac_rfl
  rw [hspaces] at hs
  have hmem : parent.mem = ⟨parent.pagetable, S.sz⟩ := by rw [Task.mem, hsz]
  have hmem' : child.mem = ⟨child.pagetable, S.sz⟩ := by rw [Task.mem, hsz']
  constructor
  · rw [hsz, hsz']
  · intro op hop
    have hs' := hs
    rw [mul_left_comm] at hs'
    rw [hmem, hmem']
    exact seenAlike hop hs hs'
  · intro va va' a b s₁ s₂ hva hva'
    rw [hsz] at hva
    rw [hsz'] at hva'
    exact physical_ne hs hva hva'
  · intro before
    obtain ⟨S₁, S₁', s₁, hexec, hs₁⟩ := runBoth_exec hs before
    rw [hmem, hmem']
    refine ⟨_, s₁, hexec, fun ops => ⟨sees_same hs₁ ops, ?_⟩⟩
    rw [mul_left_comm] at hs₁
    exact sees_same hs₁ ops
  · have hf₁ : s.cell parent.trapframe = f := by
      rw [hparent] at hs
      exact cell_of_has hs
    have hf₂ : s.cell child.trapframe = f' := by
      rw [hchild] at hs
      exact cell_of_has hs
    rw [hf₁, hf₂]
    exact hf

end Xv6.Uvm
