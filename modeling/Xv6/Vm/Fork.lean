import Xv6.Vm.Process
import Xv6.Vm.Usermode

/-!
# Fork

`kfork` gives the child an address space of its own with the pages of the parent, or leaves
everything as it was.
-/

namespace Xv6.Uvm

open Assertion PtTree Prog

variable {L : Link} {σ σ' : Kernel} {p np : Slot} {S : Space} {s s' : Store ℕ PageData}
  {f : PageData} {R A : Assertion ℕ PageData} {pa : ℕ → ℕ} {pid : ℤ}

/-! ### Failure -/

theorem freeproc_refused (L : Link) (t : Task) : (freeproc L t).Refused fun _ => False := by
  unfold freeproc
  have hfree := procFreepagetable_refused L t.pagetable t.sz
  generalize procFreepagetable L t.pagetable t.sz = free at hfree ⊢
  split_ifs
  · apply (kfree_refused L t.trapframe).seq
    intro _
    apply hfree.seq
    intro _
    trivial
  · apply hfree.seq
    intro _
    trivial
  · apply (kfree_refused L t.trapframe).seq
    intro _
    trivial
  · trivial

theorem allocproc_refused (L : Link) (σ : Kernel) :
  (allocproc L σ).Refused fun r => r.1 = none
  := by
  unfold allocproc
  cases σ.unusedSlot with
  | none => trivial
  | some np =>
    apply kalloc_refused.bind
    · rintro r rfl
      exact (returns_any _).bind fun _ _ => rfl
    intro r
    cases r with
    | none => exact (freeproc_refused L _).seq fun _ => trivial
    | some trapframe =>
      apply (procPagetable_refused L trapframe).bind
      · rintro r rfl
        rw [if_pos rfl]
        exact (returns_any _).bind fun _ _ => rfl
      intro pagetable
      by_cases hzero : pagetable = 0
      · rw [if_pos hzero]
        exact (freeproc_refused L _).seq fun _ => trivial
      · rw [if_neg hzero]
        trivial

theorem forkMemory_refused (L : Link) (σ : Kernel) (p : Slot) :
  (forkMemory L σ p).Refused fun r => r.1 = none
  := by
  unfold forkMemory
  apply (allocproc_refused L σ).bind
  · rintro r hr
    rw [hr]
    exact rfl
  rintro ⟨slot, σ'⟩
  cases slot with
  | none => trivial
  | some np =>
    apply (copyLoop_refused L _ _ _ _ _).bind
    · rintro e rfl
      rw [if_pos (by decide)]
      exact (returns_any _).bind fun _ _ => rfl
    intro e
    by_cases he : e < 0
    · rw [if_pos he]
      exact (freeproc_refused L _).seq fun _ => trivial
    · rw [if_neg he]
      exact fun _ => trivial

/-- The part of `kfork` after the memory of the child takes no pages. -/
theorem dupFiles_ample (p np : Slot) (is : List (Fin NOFILE)) (σ : Kernel) (s : Store ℕ PageData) :
  (dupFiles p np is σ).Ample s
  := by
  induction is generalizing σ s with
  | nil => trivial
  | cons i is ih =>
    unfold dupFiles
    cases (σ.procs p).ofile i with
    | none => exact ih σ s
    | some f =>
      apply Ample.bind
      · unfold filedup
        split_ifs <;> trivial
      · intro σ' s'
        exact ih _ s'

theorem kfork_ample (h : (forkMemory L σ p).Ample s) : (kfork L σ p).Ample s := by
  unfold kfork
  apply h.bind
  rintro ⟨slot, σ'⟩ s'
  cases slot with
  | none => trivial
  | some np =>
    apply (dupFiles_ample p np _ σ' s').bind
    intro σ'' s''
    dsimp only
    cases (σ''.procs p).cwd with
    | none => trivial
    | some ip => trivial

/-- What a `kfork` that fails has done to the kernel: nothing if there was no slot, and
otherwise a slot is as `freeproc` leaves it and a pid has been used. -/
inductive Failed (σ : Kernel) : Kernel → Prop where
  | full (hfull : ∀ q, (σ.procs q).state ≠ .unused) : Failed σ σ
  | freed (np : Slot) (hnp : (σ.procs np).state = .unused) : Failed σ (σ.freed np)

/-- The memory of a process and its trapframe. -/
def owns (L : Link) (t : Task) (S : Space) (f : PageData) : Assertion ℕ PageData :=
  isSpace L t.pagetable t.trapframe S * single t.trapframe f

/-- What `forkMemory` leaves, in a memory that had the address space of the parent. -/
inductive MemoryForked (L : Link) (oom : Prop) (σ : Kernel) (p : Slot) (S : Space) (f : PageData)
    (R : Assertion ℕ PageData) (s s' : Store ℕ PageData) : Option Slot × Kernel → Prop where
  | failed {σ' : Kernel} (hfailed : Failed σ σ') (hwhy : (∀ q, (σ.procs q).state ≠ .unused) ∨ oom)
      (hrestored : Restored s s') : MemoryForked L oom σ p S f R s s' (none, σ')
  | forked (np : Slot) (q r : ℕ) (hnp : (σ.procs np).state = .unused)
      (hs' : s'.Has L.pool (owns L ((σ.forked p np q r).procs np) S (copyTrapframe f (memset 5))
        * (owns L (σ.procs p) S f * R))) :
      MemoryForked L oom σ p S f R s s' (some np, σ.forked p np q r)

/-- A page table and the pages of an address space are a fixed part of the memory. -/
theorem isTable_exact {l : ℕ} (q : ℕ) (t : PtTree l) : Exact (isTable q t) := by
  induction t generalizing q with
  | leaf d => exact Exact.single q d
  | node addr sub ih =>
    unfold isTable
    apply (Exact.single q _).mul
    apply Exact.prod
    intro i _
    cases addr i with
    | none => exact Exact.one
    | some q' => exact ih i q'

theorem frames_exact (pa : ℕ → ℕ) (page : ℕ → Option Page) : Exact (frames pa page) := by
  apply Exact.prod
  intro v _
  cases page v with
  | none => exact Exact.one
  | some pg => exact Exact.single _ _

/-- The address space of a process at known addresses, and the rest of the memory. -/
theorem le_owns {t : Task} {tree : PtTree 2} (hM : Maps L t.trapframe tree pa S.page) (hA : A ≤ R) :
  isTable t.pagetable tree * (frames pa S.page * (single t.trapframe f * A)) ≤ owns L t S f * R
  := by
  refine le_trans (le_isSpace hM) ?_
  unfold owns
  rw [mul_assoc]
  exact mul_le_mul_right (mul_le_mul_right hA _) _

theorem forked_procs_self (σ : Kernel) (p np : Slot) (q r : ℕ) :
  (σ.forked p np q r).procs np
    = { σ.procs np with
        pid := σ.nextpid, state := .used, trapframe := q, pagetable := r, sz := (σ.procs p).sz }
  := by
  unfold Kernel.forked
  rw [allocated_procs_self]
  exact Kernel.set_procs_self _ np _

/-- What `forkMemory` leaves in memory, if the address space of the parent and the rest of the
memory are `A`. -/
def forkPost (L : Link) (oom : Prop) (σ : Kernel) (p : Slot) (S : Space) (f : PageData)
    (A : Assertion ℕ PageData) : Option Slot × Kernel → Assertion ℕ PageData
  | (none, σ') => fact (Failed σ σ' ∧ ((∀ q, (σ.procs q).state ≠ .unused) ∨ oom)) * A
  | (some np, σ') => ex fun q => ex fun r =>
    fact ((σ.procs np).state = .unused ∧ σ' = σ.forked p np q r)
      * (owns L (σ'.procs np) S (copyTrapframe f (memset 5)) * A)

theorem forkMemory_spec (m : Prog.Mode) {t : PtTree 2}
    (htidy : σ.Tidy) (hp : (σ.procs p).state ≠ .unused) (hsz : S.sz = (σ.procs p).sz)
    (hM : Maps L (σ.procs p).trapframe t pa S.page) :
  Triple L.pool m
    (isTable (σ.procs p).pagetable t * (frames pa S.page * (single (σ.procs p).trapframe f * A)))
    (forkMemory L σ p)
    (forkPost L m.oom σ p S f
      (isTable (σ.procs p).pagetable t * (frames pa S.page * (single (σ.procs p).trapframe f * A))))
  := by
  rw [← bind_pure (forkMemory L σ p)]
  apply Triple.forkMemory htidy hp hM (hsz ▸ S.sz_le) (hsz ▸ S.below)
  · intro hfull
    apply Triple.ret
    exact le_fact_mul ⟨.full hfull, Or.inl hfull⟩ (le_refl _)
  · intro np hnp hoom
    apply Triple.ret
    exact le_fact_mul ⟨.freed np hnp, Or.inr hoom⟩ (le_refl _)
  · intro np q r tn pan hnp hN
    apply Triple.ret
    apply le_ex q
    apply le_ex r
    apply le_fact_mul ⟨hnp, rfl⟩
    rw [forked_procs_self]
    exact le_owns (t := { σ.procs np with
      pid := σ.nextpid, state := .used, trapframe := q, pagetable := r, sz := (σ.procs p).sz }) hN (le_refl _)

theorem forkMemory_exec (htidy : σ.Tidy) (hp : (σ.procs p).state ≠ .unused)
    (hsz : S.sz = (σ.procs p).sz) (hs : s.Has L.pool (owns L (σ.procs p) S f * R)) :
  ∃ r s', (forkMemory L σ p).exec s = some (r, s')
    ∧ MemoryForked L (¬ (forkMemory L σ p).Ample s) σ p S f R s s' r
  := by
  obtain ⟨h, hown, hholds, hin⟩ := hs
  unfold owns isSpace at hown
  simp only [ex_mul, mul_assoc] at hown
  obtain ⟨t, pa, hown⟩ := hown
  obtain ⟨hM, hown⟩ := fact_mul_iff.mp hown
  -- the rest of the memory is fixed as well
  obtain ⟨A, hexact, hAR, hA⟩ : ∃ A : Assertion ℕ PageData, Exact A ∧ A ≤ R
      ∧ (isTable (σ.procs p).pagetable t
        * (frames pa S.page * (single (σ.procs p).trapframe f * A))) h := by
    obtain ⟨h₁, h₁', hs₁, ht, h₂, h₂', hs₂, hpages, h₃, hR, hs₃, hf, hR⟩ := hown
    refine ⟨fun h => h = _, ?_, ?_, h₁, h₁', hs₁, ht, h₂, h₂', hs₂, hpages, h₃, _, hs₃, hf, rfl⟩
    · rintro h h' rfl rfl
      rfl
    · rintro h rfl
      exact hR
  have hpexact : Exact (isTable (σ.procs p).pagetable t
      * (frames pa S.page * (single (σ.procs p).trapframe f * A))) :=
    (isTable_exact _ t).mul ((frames_exact pa S.page).mul ((Exact.single _ f).mul hexact))
  have hle := le_owns (f := f) hM hAR
  have htriple := forkMemory_spec (f := f) (A := A)
    { oom := ¬ (forkMemory L σ p).Ample s, panics := False } htidy hp hsz hM
  rw [← mul_one (_ * _)] at hA
  rcases htriple.exec hA hholds hin (Classical.em _).symm with
    ⟨⟨slot, σ'⟩, s', h', hexec, hpost, hholds', hin', hc⟩ | ⟨_, hpanic⟩
  · refine ⟨_, s', hexec, ?_⟩
    rw [mul_one] at hA hpost
    cases slot with
    | none =>
      obtain ⟨⟨hfailed, hwhy⟩, hpost⟩ := fact_mul_iff.mp hpost
      obtain rfl := hpexact h h' hA hpost
      exact .failed hfailed hwhy (hc.restored hholds hholds')
    | some np =>
      obtain ⟨q, r, hpost⟩ := hpost
      obtain ⟨⟨hnp, rfl⟩, hpost⟩ := fact_mul_iff.mp hpost
      apply MemoryForked.forked np q r hnp
      exact ⟨h', mul_le_mul_right hle _ _ hpost, hholds', hin'⟩
  · exact hpanic.elim

/-- The slot is not used, and its fields are zero. -/
structure Task.IsCleared (t : Task) : Prop where
  state : t.state = .unused
  pid : t.pid = 0
  parent : t.parent = none
  sz : t.sz = 0
  pagetable : t.pagetable = 0
  trapframe : t.trapframe = 0
  killed : t.killed = false
  chan : t.chan = none

theorem cleared_isCleared (t : Task) : t.cleared.IsCleared := ⟨rfl, rfl, rfl, rfl, rfl, rfl, rfl, rfl⟩

/-- The kernel and the memory are as before a `kfork`, apart from a slot that was not used and is
cleared now, and the next pid. -/
structure NoTrace (σ σ' : Kernel) (s s' : Store ℕ PageData) : Prop where
  slots : σ' = σ ∨ ∃ np, (σ.procs np).state = .unused ∧ (σ'.procs np).IsCleared
    ∧ ∀ q ≠ np, σ'.procs q = σ.procs q
  fileRef : σ'.fileRef = σ.fileRef
  inodeRef : σ'.inodeRef = σ.inodeRef
  memory : Restored s s'

theorem Failed.noTrace (h : Failed σ σ') (hs : Restored s s') : NoTrace σ σ' s s' := by
  cases h with
  | full _ => exact ⟨Or.inl rfl, rfl, rfl, hs⟩
  | freed np hnp =>
    have hself : (σ.freed np).procs np = (σ.procs np).cleared := Kernel.set_procs_self _ np _
    refine ⟨Or.inr ⟨np, hnp, ?_, fun q hq => Kernel.set_procs_of_ne _ _ hq⟩, rfl, rfl, hs⟩
    rw [hself]
    exact cleared_isCleared _

/-- A `kfork` that finds no slot or is refused a page, wherever that happens, returns `-1` and
leaves no trace. -/
theorem kfork_failed (htidy : σ.Tidy) (hp : (σ.procs p).state ≠ .unused)
    (hsz : S.sz = (σ.procs p).sz) (hs : s.Has L.pool (owns L (σ.procs p) S f * R))
    (hfail : (∀ q, (σ.procs q).state ≠ .unused) ∨ ¬ (kfork L σ p).Ample s) :
  ∃ σ' s', (kfork L σ p).exec s = some ((-1, σ'), s') ∧ NoTrace σ σ' s s'
  := by
  obtain ⟨r, s', hexec, hforked⟩ := forkMemory_exec htidy hp hsz hs
  cases hforked with
  | failed hfailed hwhy hrestored =>
    refine ⟨_, s', ?_, hfailed.noTrace hrestored⟩
    unfold kfork
    rw [exec_bind hexec]
    rfl
  | forked np q r hnp hs' =>
    exfalso
    rcases hfail with hfull | hrefused
    · exact hfull np hnp
    · rcases (forkMemory_refused L σ p).exec hexec with hample | hnone
      · exact hrefused (kfork_ample hample)
      · cases hnone

/-! ### The small machine with a process -/

/-- `allocproc` gives a slot its trapframe and an empty address space. -/
theorem allocproc_exec (htidy : σ.Tidy) (hs : s.Has L.pool R) :
  ∃ r s', (allocproc L σ).exec s = some (r, s')
    ∧ ∀ np, r.1 = some np → ∃ q pt, r.2 = σ.allocated np q pt
      ∧ s'.Has L.pool (owns L (r.2.procs np) Space.empty (memset 5) * R)
  := by
  have htriple : Triple L.pool ⟨True, False⟩ 1 (allocproc L σ) fun r =>
      r.1.elim 1 fun np => ex fun q => ex fun pt => fact (r.2 = σ.allocated np q pt)
        * owns L (r.2.procs np) Space.empty (memset 5) := by
    rw [← bind_pure (allocproc L σ)]
    apply Triple.allocproc htidy
    · intro _
      exact Triple.ret _ (le_refl _)
    · intro np _ _
      exact Triple.ret _ (le_refl _)
    · intro np q pt t _ _ _ hM
      apply Triple.ret
      apply le_ex q
      apply le_ex pt
      apply le_fact_mul rfl
      rw [allocated_procs_self]
      have hle := le_owns (S := Space.empty) (f := memset 5) (R := 1) (A := 1)
        (t := { σ.procs np with pid := σ.nextpid, state := .used, trapframe := q, pagetable := pt })
        (hM fun _ => 0) (le_refl _)
      simp only [mul_one, Space.empty, frames_none, one_mul] at hle
      rw [mul_one]
      exact hle
  rw [← one_mul R] at hs
  obtain ⟨r, s', hexec, hs'⟩ := htriple.returns not_false hs (Or.inl trivial)
  refine ⟨r, s', hexec, ?_⟩
  intro np hnp
  rw [hnp] at hs'
  simp only [Option.elim_some, ex_mul] at hs'
  obtain ⟨h', ⟨q, pt, hown⟩, hholds, hin⟩ := hs'
  rw [mul_assoc, fact_mul_iff] at hown
  exact ⟨q, pt, hown.1, h', hown.2, hholds, hin⟩

/-- The kernel before the first process. -/
def Kernel.boot : Kernel where
  procs _ := { Proc.zero with sz := 0, pagetable := 0, trapframe := 0, ofile := fun _ => none, cwd := none }
  nextpid := 1
  fileRef _ := 0
  inodeRef i := if i = 0 then 1 else 0

theorem boot_tidy : Kernel.boot.Tidy := fun _ _ => ⟨rfl, rfl, rfl⟩

/-- The kernel while the first process runs, in the root directory. -/
def Kernel.start (σ : Kernel) : Kernel := σ.set 0 { σ.procs 0 with state := .running, cwd := some 0 }

theorem start_procs_zero (σ : Kernel) :
  σ.start.procs 0 = { σ.procs 0 with state := .running, cwd := some 0 }
  := Kernel.set_procs_self σ 0 _

theorem start_tidy (h : ∀ p ≠ 0, σ.procs p = Kernel.boot.procs p) : σ.start.Tidy := by
  intro p hp
  by_cases h0 : p = 0
  · subst h0
    rw [start_procs_zero] at hp
    cases hp
  · have hother : σ.start.procs p = Kernel.boot.procs p :=
      (Kernel.set_procs_of_ne σ _ h0).trans (h p h0)
    rw [hother]
    exact ⟨rfl, rfl, rfl⟩

/-- The small machine with the given number of free pages. -/
def smallPages (n : ℕ) : Store ℕ PageData := { smallStore with free := smallStore.free.take n }

theorem smallPages_has (n : ℕ) : (smallPages n).Has smallLink.pool 1 := by
  obtain ⟨h, hone, hholds, hin⟩ := smallStore_has
  have hmem : ∀ q ∈ (smallPages n).free, q ∈ smallStore.free := fun q hq => List.mem_of_mem_take hq
  refine ⟨h, hone, ⟨hholds.cells, fun q hq => hholds.apart q (hmem q hq), ?_, ?_⟩, hin⟩
  · exact hholds.nodup.sublist (List.take_sublist n _)
  · exact fun q hq => hholds.mem_pool q (hmem q hq)

/-- The small machine with the first process. -/
def smallMachine (n : ℕ) : Option ((Option Slot × Kernel) × Store ℕ PageData) :=
  (allocproc smallLink Kernel.boot).exec (smallPages n)

theorem smallMachine_has {n : ℕ} {σ : Kernel} (h : smallMachine n = some ((some 0, σ), s)) :
  σ.start.Tidy ∧ (σ.start.procs 0).state = .running ∧ (σ.start.procs 0).sz = 0
    ∧ s.Has smallLink.pool (owns smallLink (σ.start.procs 0) Space.empty (memset 5) * 1)
  := by
  obtain ⟨r, s', hexec, hr⟩ := allocproc_exec boot_tidy (smallPages_has n)
  obtain ⟨rfl, rfl⟩ := Prod.mk.inj (Option.some.inj (h.symm.trans hexec))
  obtain ⟨q, pt, rfl, hs⟩ := hr 0 rfl
  have hzero := start_procs_zero (Kernel.boot.allocated 0 q pt)
  rw [allocated_procs_self] at hs hzero
  rw [hzero]
  refine ⟨start_tidy fun p hp => allocated_procs_of_ne _ q pt hp, rfl, rfl, hs⟩

/-- The first process forks when one page is free. -/
theorem kfork_failed_small :
  ∃ σ s, smallMachine 5 = some ((some 0, σ), s) ∧ ¬ (kfork smallLink σ.start 0).Ample s
    ∧ ∃ σ' s', (kfork smallLink σ.start 0).exec s = some ((-1, σ'), s') ∧ NoTrace σ.start σ' s s'
  := by
  have hslot : (smallMachine 5).map (·.1.1) = some (some 0) := by
    decide
  obtain ⟨⟨⟨_, σ⟩, s⟩, hexec, rfl⟩ := Option.map_eq_some_iff.mp hslot
  have hrefused : (smallMachine 5).all fun r => ¬ (kfork smallLink r.1.2.start 0).Ample r.2 := by
    decide
  rw [hexec] at hrefused
  have hrefused' : ¬ (kfork smallLink σ.start 0).Ample s := of_decide_eq_true hrefused
  obtain ⟨htidy, hrun, hsz, hs⟩ := smallMachine_has hexec
  have hused : (σ.start.procs 0).state ≠ .unused := by
    rw [hrun]
    decide
  exact ⟨σ, s, hexec, hrefused', kfork_failed htidy hused hsz.symm hs (Or.inr hrefused')⟩

/-! ### Success -/

/-- What the loop over the open files leaves: only the child's table of open files and the
reference counts of files are changed. -/
structure Duplicated (σ σ' : Kernel) (np : Slot) : Prop where
  others : ∀ q ≠ np, σ'.procs q = σ.procs q
  child : ∃ ofile, σ'.procs np = { σ.procs np with ofile }

theorem Duplicated.refl (σ : Kernel) (np : Slot) : Duplicated σ σ np := ⟨fun _ _ => rfl, _, rfl⟩

theorem Duplicated.trans {σ σ₁ σ' : Kernel} (h : Duplicated σ σ₁ np) (h' : Duplicated σ₁ σ' np) :
  Duplicated σ σ' np
  := by
  obtain ⟨ofile, hchild⟩ := h.child
  obtain ⟨ofile', hchild'⟩ := h'.child
  refine ⟨fun q hq => (h'.others q hq).trans (h.others q hq), ofile', ?_⟩
  rw [hchild', hchild]

theorem filedup_exec {g : Fin NFILE} (h : (filedup σ g).exec s = some (σ', s')) :
  s' = s ∧ σ'.procs = σ.procs
  := by
  unfold filedup at h
  split_ifs at h
  · cases h
  · cases h
    exact ⟨rfl, rfl⟩

theorem dupFiles_exec {is : List (Fin NOFILE)} (h : (dupFiles p np is σ).exec s = some (σ', s')) :
  s' = s ∧ Duplicated σ σ' np
  := by
  induction is generalizing σ s with
  | nil =>
    cases h
    exact ⟨rfl, Duplicated.refl _ np⟩
  | cons i is ih =>
    unfold dupFiles at h
    cases hfile : (σ.procs p).ofile i with
    | none =>
      rw [hfile] at h
      exact ih h
    | some g =>
      rw [hfile] at h
      obtain ⟨σ₁, s₁, hdup, hrest⟩ := exec_of_bind h
      obtain ⟨rfl, hprocs⟩ := filedup_exec hdup
      obtain ⟨rfl, hdup'⟩ := ih hrest
      refine ⟨rfl, Duplicated.trans ⟨?_, ?_⟩ hdup'⟩
      · intro q hq
        rw [← hprocs]
        exact Kernel.set_procs_of_ne σ₁ _ hq
      · refine ⟨Function.update (σ₁.procs np).ofile i (some g), ?_⟩
        rw [← hprocs]
        exact Kernel.set_procs_self σ₁ np _

/-- What `kfork` leaves if it makes a child. -/
structure Forked (L : Link) (σ σ' : Kernel) (p np : Slot) (pid : ℤ) (S : Space) (f : PageData)
    (R : Assertion ℕ PageData) (s' : Store ℕ PageData) : Prop where
  unused : (σ.procs np).state = .unused
  runnable : (σ'.procs np).state = .runnable
  pid : (σ'.procs np).pid = pid
  others : ∀ q ≠ np, σ'.procs q = σ.procs q
  sz : (σ'.procs np).sz = (σ.procs p).sz
  memory : s'.Has L.pool (owns L (σ'.procs np) S (copyTrapframe f (memset 5))
    * (owns L (σ.procs p) S f * R))

/-- `kfork` leaves everything as it was, or makes a child. -/
theorem kfork_exec (htidy : σ.Tidy) (hp : (σ.procs p).state ≠ .unused)
    (hsz : S.sz = (σ.procs p).sz) (hs : s.Has L.pool (owns L (σ.procs p) S f * R))
    (hexec : (kfork L σ p).exec s = some ((pid, σ'), s')) :
  pid = -1 ∧ NoTrace σ σ' s s' ∨ ∃ np, Forked L σ σ' p np pid S f R s'
  := by
  obtain ⟨r, s₁, hexec₁, hforked⟩ := forkMemory_exec htidy hp hsz hs
  unfold kfork at hexec
  rw [exec_bind hexec₁] at hexec
  cases hforked with
  | failed hfailed hwhy hrestored =>
    cases hexec
    exact Or.inl ⟨rfl, hfailed.noTrace hrestored⟩
  | forked np q r hnp hs₁ =>
    right
    obtain ⟨σ₁, s₂, hdup, hrest⟩ := exec_of_bind hexec
    obtain ⟨rfl, hdup'⟩ := dupFiles_exec hdup
    dsimp only at hrest
    cases hcwd : (σ₁.procs p).cwd with
    | none =>
      rw [hcwd] at hrest
      cases hrest
    | some ip =>
      rw [hcwd] at hrest
      obtain ⟨hr, rfl⟩ := Prod.mk.inj (Option.some.inj hrest)
      obtain ⟨rfl, rfl⟩ := Prod.mk.inj hr
      obtain ⟨ofile, hchild⟩ := hdup'.child
      rw [forked_procs_self] at hchild hs₁
      refine ⟨np, hnp, ?_, ?_, ?_, ?_, ?_⟩
      · rw [Kernel.set_procs_self]
      · rw [Kernel.set_procs_self]
      · intro q' hq'
        have hother : (σ.forked p np q r).procs q' = σ.procs q' :=
          (Kernel.set_procs_of_ne _ _ hq').trans (allocated_procs_of_ne σ q r hq')
        rw [← hother, ← hdup'.others q' hq']
        exact Kernel.set_procs_of_ne _ _ hq'
      · rw [Kernel.set_procs_self, hchild]
      · rw [Kernel.set_procs_self, hchild]
        exact hs₁

theorem NoTrace.tidy (h : NoTrace σ σ' s s') (htidy : σ.Tidy) : σ'.Tidy := by
  rcases h.slots with rfl | ⟨np, _, hcleared, hothers⟩
  · exact htidy
  · intro q hq
    by_cases hne : q = np
    · rw [hne]
      exact ⟨hcleared.trapframe, hcleared.pagetable, hcleared.sz⟩
    · rw [hothers q hne] at hq ⊢
      exact htidy q hq

/-- Slots that are not used have no memory after a `kfork` either. -/
theorem kfork_tidy (htidy : σ.Tidy) (hp : (σ.procs p).state ≠ .unused)
    (hsz : S.sz = (σ.procs p).sz) (hs : s.Has L.pool (owns L (σ.procs p) S f * R))
    (hexec : (kfork L σ p).exec s = some ((pid, σ'), s')) :
  σ'.Tidy
  := by
  rcases kfork_exec htidy hp hsz hs hexec with ⟨_, hnotrace⟩ | ⟨np, hforked⟩
  · exact hnotrace.tidy htidy
  · intro q hq
    by_cases hne : q = np
    · rw [hne, hforked.runnable] at hq
      cases hq
    · rw [hforked.others q hne] at hq ⊢
      exact htidy q hq

end Xv6.Uvm
