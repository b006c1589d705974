import Xv6.Proc.Table
import Xv6.Vm.Duplicate
import Xv6.Vm.Refused

/-!
# Processes and their memory

The process table with the fields of `struct proc` that say where the memory of a process is,
which files it has open and what its current directory is; the reference counts of files and
inodes; and the functions of `kernel/proc.c` that give a process its memory and take it away.
A page of memory is a cell of a program, and the rest of the kernel's data is passed along.
The saved context of the kernel thread is left out.
-/

namespace Xv6.Uvm

open Assertion PtTree Function

/-- `struct proc`. -/
structure Task extends Proc where
  sz : ℕ
  pagetable : ℕ
  trapframe : ℕ
  ofile : Fin NOFILE → Option (Fin NFILE)
  cwd : Option (Fin NINODE)

/-- The process table and the reference counts. -/
structure Kernel where
  procs : Slot → Task
  nextpid : ℤ
  fileRef : Fin NFILE → ℤ
  inodeRef : Fin NINODE → ℤ

/-- Changing a slot of the table. -/
def Kernel.set (σ : Kernel) (p : Slot) (t : Task) : Kernel :=
  { σ with procs := update σ.procs p t }

@[simp]
theorem Kernel.set_procs_self (σ : Kernel) (p : Slot) (t : Task) : (σ.set p t).procs p = t := by
  simp only [Kernel.set, update_self]

theorem Kernel.set_procs_of_ne (σ : Kernel) {p q : Slot} (t : Task) (h : q ≠ p) :
  (σ.set p t).procs q = σ.procs q
  := by
  simp only [Kernel.set, update_of_ne h]

/-- The fields of a slot after `freeproc`. -/
def Task.cleared (t : Task) : Task where
  toProc := t.toProc.freeproc
  sz := 0
  pagetable := 0
  trapframe := 0
  ofile := t.ofile
  cwd := t.cwd

def freeproc (L : Link) (t : Task) : Vm Task := do
  if t.trapframe ≠ 0 then kfree L t.trapframe
  if t.pagetable ≠ 0 then procFreepagetable L t.pagetable t.sz
  return t.cleared

/-- The first slot of the table that is not used. -/
def Kernel.unusedSlot (σ : Kernel) : Option Slot :=
  (List.finRange NPROC).find? fun p => (σ.procs p).state = .unused

/-- `allocproc`: the slot, and the kernel afterwards. -/
def allocproc (L : Link) (σ : Kernel) : Vm (Option Slot × Kernel) :=
  match σ.unusedSlot with
  | none => return (none, σ)
  | some p => do
    let t : Task := { σ.procs p with pid := σ.nextpid, state := .used }
    let σ' : Kernel := { σ with nextpid := intSucc σ.nextpid }
    match ← kalloc with
    | none =>
      let t' ← freeproc L { t with trapframe := 0 }
      return (none, σ'.set p t')
    | some trapframe =>
      let pagetable ← procPagetable L trapframe
      if pagetable = 0 then
        let t' ← freeproc L { t with trapframe, pagetable := 0 }
        return (none, σ'.set p t')
      else return (some p, σ'.set p { t with trapframe, pagetable })

/-- The number of words of `struct trapframe`. -/
def TRAPWORDS : ℕ := 36

/-- The word of `struct trapframe` with the register `a0`. -/
def A0 : Fin 512 := 14

/-- `*(np->trapframe) = *(p->trapframe)`, and then `np->trapframe->a0 = 0`. -/
def copyTrapframe (frame old : PageData) : PageData :=
  update (fun i => if i.val < TRAPWORDS then frame i else old i) A0 0

/-- The first part of `kfork`, for the process `p`: a slot with a copy of its memory. -/
def forkMemory (L : Link) (σ : Kernel) (p : Slot) : Vm (Option Slot × Kernel) := do
  let r ← allocproc L σ
  match r.1 with
  | none => return (none, r.2)
  | some np =>
    let e ← uvmcopy L (r.2.procs p).pagetable (r.2.procs np).pagetable (r.2.procs p).sz
    if e < 0 then
      let t ← freeproc L (r.2.procs np)
      return (none, r.2.set np t)
    else
      let frame ← Prog.read (r.2.procs p).trapframe
      Prog.write (r.2.procs np).trapframe (copyTrapframe frame)
      return (some np, r.2.set np { r.2.procs np with sz := (r.2.procs p).sz })

def filedup (σ : Kernel) (f : Fin NFILE) : Vm Kernel :=
  if σ.fileRef f < 1 then Prog.panic "filedup"
  else return { σ with fileRef := update σ.fileRef f (intSucc (σ.fileRef f)) }

def idup (σ : Kernel) (ip : Fin NINODE) : Kernel :=
  { σ with inodeRef := update σ.inodeRef ip (intSucc (σ.inodeRef ip)) }

/-- The loop of `kfork` over the open files of the parent. -/
def dupFiles (p np : Slot) : List (Fin NOFILE) → Kernel → Vm Kernel
  | [], σ => return σ
  | i :: is, σ =>
    match (σ.procs p).ofile i with
    | none => dupFiles p np is σ
    | some f => do
      let σ' ← filedup σ f
      dupFiles p np is
        (σ'.set np { σ'.procs np with ofile := update (σ'.procs np).ofile i (some f) })

/-- `kfork`, for the process `p`: what it returns, and the kernel afterwards. -/
def kfork (L : Link) (σ : Kernel) (p : Slot) : Vm (ℤ × Kernel) := do
  let r ← forkMemory L σ p
  match r.1 with
  | none => return (-1, r.2)
  | some np =>
    let σ' ← dupFiles p np (List.finRange NOFILE) r.2
    match (σ'.procs p).cwd with
    -- the kernel has nothing mapped at address 0
    | none => Prog.panic "kerneltrap"
    | some ip =>
      let np' := σ'.procs np
      return (np'.pid, (idup σ' ip).set np
        { np' with
          cwd := some ip
          name := safestrcpy np'.name (σ'.procs p).name 16
          parent := some p
          state := .runnable })

/-! ### What a slot owns -/

variable {L : Link} {m : Prog.Mode} {α : Type} {A : Assertion ℕ PageData}
  {C : α → Assertion ℕ PageData} {σ σ' : Kernel} {p np : Slot} {t : Task}
  {d : Option Slot × Kernel → Vm α}

/-- The page at an address, unless the address is zero. -/
def optPage (q : ℕ) : Assertion ℕ PageData := if q = 0 then 1 else ex fun f => single q f

/-- An address space of the given size, unless the address of the page table is zero. -/
def optSpace (L : Link) (pt tf sz : ℕ) : Assertion ℕ PageData :=
  if pt = 0 then 1 else ex fun S : Space => fact (S.sz = sz) * isSpace L pt tf S

@[simp]
theorem optPage_zero : optPage 0 = 1 := if_pos rfl

@[simp]
theorem optSpace_zero (L : Link) (tf sz : ℕ) : optSpace L 0 tf sz = 1 := if_pos rfl

theorem single_le_optPage {q : ℕ} (hq : q ≠ 0) (f : PageData) : single q f ≤ optPage q := by
  unfold optPage
  rw [if_neg hq]
  exact le_ex f (le_refl _)

theorem isSpace_le_optSpace {pt : ℕ} (hpt : pt ≠ 0) (tf : ℕ) (S : Space) :
  isSpace L pt tf S ≤ optSpace L pt tf S.sz
  := by
  unfold optSpace
  rw [if_neg hpt]
  exact le_ex S (le_fact_mul rfl (le_refl _))

/-- Every slot that is not used is as `freeproc` leaves it: it has no memory. -/
def Kernel.Tidy (σ : Kernel) : Prop :=
  ∀ p, (σ.procs p).state = .unused →
    (σ.procs p).trapframe = 0 ∧ (σ.procs p).pagetable = 0 ∧ (σ.procs p).sz = 0

theorem unusedSlot_some (h : σ.unusedSlot = some p) : (σ.procs p).state = .unused := by
  have := List.find?_some h
  exact of_decide_eq_true this

theorem unusedSlot_none (h : σ.unusedSlot = none) (p : Slot) : (σ.procs p).state ≠ .unused := by
  intro hp
  have hnot := List.find?_eq_none.mp h p (List.mem_finRange p)
  exact hnot (decide_eq_true hp)

/-- `freeproc` gives back what the slot owns. -/
theorem Triple.freeproc {d : Task → Vm α} {q r tf sz : ℕ} (htf : t.trapframe = q)
    (hpt : t.pagetable = r) (hsz : t.sz = sz) (h : Triple L.pool m A (d t.cleared) C) :
  Triple L.pool m (optPage q * (optSpace L r tf sz * A)) (freeproc L t >>= d) C
  := by
  subst htf hpt hsz
  have hspace : Triple L.pool m (optSpace L t.pagetable tf t.sz * A)
      ((do
        if t.pagetable ≠ 0 then procFreepagetable L t.pagetable t.sz
        return t.cleared) >>= d) C := by
    unfold optSpace
    by_cases hpt : t.pagetable = 0
    · rw [if_pos hpt, if_neg (not_not.mpr hpt), one_mul]
      exact h
    · rw [if_neg hpt, if_pos hpt, ex_mul]
      apply Triple.ex
      intro S
      rw [mul_assoc]
      apply Triple.fact
      intro hsz
      apply Triple.of_isSpace
      intro pt pa hM
      rw [bind_assoc, ← mul_assoc]
      apply Triple.call (procFreepagetable_spec hM (hsz ▸ S.sz_le) (hsz ▸ S.below))
      intro _
      rw [one_mul]
      exact h
  unfold Uvm.freeproc optPage
  by_cases htf : t.trapframe = 0
  · rw [if_pos htf, if_neg (not_not.mpr htf), one_mul]
    exact hspace
  · rw [if_neg htf, if_pos htf, ex_mul, bind_assoc]
    apply Triple.ex
    intro f
    exact Triple.kfree hspace

/-! ### A slot for a child -/

/-- The kernel after `allocproc` has taken a slot and then given it up. -/
def Kernel.freed (σ : Kernel) (np : Slot) : Kernel :=
  { σ with nextpid := intSucc σ.nextpid }.set np (σ.procs np).cleared

/-- The kernel after `allocproc` has given a slot its trapframe and its page table. -/
def Kernel.allocated (σ : Kernel) (np : Slot) (trapframe pagetable : ℕ) : Kernel :=
  { σ with nextpid := intSucc σ.nextpid }.set np
    { σ.procs np with pid := σ.nextpid, state := .used, trapframe, pagetable }

theorem Triple.allocproc (htidy : σ.Tidy)
    (hfull : (∀ p, (σ.procs p).state ≠ .unused) → Triple L.pool m A (d (none, σ)) C)
    (hfail : ∀ np, (σ.procs np).state = .unused → m.oom →
      Triple L.pool m A (d (none, σ.freed np)) C)
    (hok : ∀ (np : Slot) (q r : ℕ) (t : PtTree 2), (σ.procs np).state = .unused → q ∈ L.pool → r ≠ 0 →
      (∀ pa, Maps L q t pa (fun _ => none)) →
      Triple L.pool m (isTable r t * (single q (memset 5) * A)) (d (some np, σ.allocated np q r)) C) :
  Triple L.pool m A (allocproc L σ >>= d) C
  := by
  unfold Uvm.allocproc
  cases hslot : σ.unusedSlot with
  | none => exact hfull (unusedSlot_none hslot)
  | some np =>
    have hnp := unusedSlot_some hslot
    obtain ⟨_, hpt, hsz⟩ := htidy np hnp
    dsimp only
    rw [bind_assoc]
    apply Triple.kalloc
    · intro hoom
      have hpre : A = optPage 0 * (optSpace L 0 0 0 * A) := by
        rw [optPage_zero, optSpace_zero, one_mul, one_mul]
      rw [bind_assoc, hpre]
      apply Triple.freeproc
      · exact rfl
      · exact hpt
      · exact hsz
      · exact hfail np hnp hoom
    · intro q hq
      rw [bind_assoc]
      apply Triple.procPagetable
      · intro hoom
        have hpre : single q (memset 5) * A ≤ optPage q * (optSpace L 0 0 0 * A) := by
          rw [optSpace_zero, one_mul]
          exact mul_le_mul_left (single_le_optPage (ne_zero_of_mem_pool hq) _) _
        rw [if_pos rfl, bind_assoc]
        apply Triple.pre _ hpre
        apply Triple.freeproc
        · exact rfl
        · exact rfl
        · exact hsz
        · exact hfail np hnp hoom
      · intro r t hr hM
        rw [if_neg hr]
        exact hok np q r t hnp hq hr hM

/-- The address space of a process that has not been given any memory. -/
def Space.empty : Space where
  sz := 0
  page _ := none
  sz_le := Nat.zero_le _
  below _ hv := absurd rfl hv

section

variable {pt tf sz : ℕ} {t : PtTree 2} {pa : ℕ → ℕ} {page : ℕ → Option Page} {f : PageData}

/-- The kernel after the child has been given its memory. -/
def Kernel.forked (σ : Kernel) (p np : Slot) (trapframe pagetable : ℕ) : Kernel :=
  (σ.allocated np trapframe pagetable).set np
    { (σ.allocated np trapframe pagetable).procs np with sz := (σ.procs p).sz }

theorem allocated_procs_self (σ : Kernel) (np : Slot) (q r : ℕ) :
  (σ.allocated np q r).procs np
    = { σ.procs np with pid := σ.nextpid, state := .used, trapframe := q, pagetable := r }
  := Kernel.set_procs_self _ np _

theorem allocated_procs_of_ne (σ : Kernel) (q r : ℕ) (h : p ≠ np) :
  (σ.allocated np q r).procs p = σ.procs p
  := Kernel.set_procs_of_ne _ _ h

theorem Kernel.set_set (σ : Kernel) (p : Slot) (t t' : Task) : (σ.set p t).set p t' = σ.set p t' := by
  unfold Kernel.set
  rw [update_idem]

/-- The child has the pages of the parent, or the kernel is as it was. -/
theorem Triple.forkMemory (htidy : σ.Tidy) (hp : (σ.procs p).state ≠ .unused)
    (hM : Maps L (σ.procs p).trapframe t pa page) (hsz : (σ.procs p).sz ≤ TRAPFRAME)
    (hbelow : ∀ v, page v ≠ none → v * PGSIZE < (σ.procs p).sz)
    (hfull : (∀ q, (σ.procs q).state ≠ .unused) → Triple L.pool m
        (isTable (σ.procs p).pagetable t * (frames pa page * (single (σ.procs p).trapframe f * A)))
        (d (none, σ)) C) (hfail : ∀ np, (σ.procs np).state = .unused → m.oom → Triple L.pool m
        (isTable (σ.procs p).pagetable t * (frames pa page * (single (σ.procs p).trapframe f * A)))
        (d (none, σ.freed np)) C)
    (hok : ∀ (np : Slot) (q r : ℕ) (tn : PtTree 2) (pan : ℕ → ℕ), (σ.procs np).state = .unused →
      Maps L q tn pan page → Triple L.pool m
        (isTable r tn * (frames pan page * (single q (copyTrapframe f (memset 5))
          * (isTable (σ.procs p).pagetable t
            * (frames pa page * (single (σ.procs p).trapframe f * A))))))
        (d (some np, σ.forked p np q r)) C) :
  Triple L.pool m
    (isTable (σ.procs p).pagetable t * (frames pa page * (single (σ.procs p).trapframe f * A)))
    (forkMemory L σ p >>= d) C
  := by
  unfold Uvm.forkMemory
  rw [bind_assoc]
  apply Triple.allocproc htidy
  · exact hfull
  · exact hfail
  intro np q r tn hnp hq hr hN
  have hne : p ≠ np := by
    rintro rfl
    exact hp hnp
  have hac : isTable r tn * (single q (memset 5)
        * (isTable (σ.procs p).pagetable t * (frames pa page * (single (σ.procs p).trapframe f * A))))
      = isTable r tn * (isTable (σ.procs p).pagetable t
        * (frames pa page * (single q (memset 5) * (single (σ.procs p).trapframe f * A)))) := by
    ac_rfl
  dsimp only
  rw [allocated_procs_self, allocated_procs_of_ne σ q r hne, bind_assoc, hac]
  apply Triple.uvmcopy hM hsz hbelow (hN fun _ => 0)
  · intro tn' pan' hN'
    have hread : isTable r tn' * (frames pan' page * (isTable (σ.procs p).pagetable t * (frames pa page
          * (single q (memset 5) * (single (σ.procs p).trapframe f * A)))))
        = single (σ.procs p).trapframe f * (single q (memset 5) * (isTable r tn' * (frames pan' page
          * (isTable (σ.procs p).pagetable t * (frames pa page * A))))) := by
      ac_rfl
    have hpost : isTable r tn' * (frames pan' page * (single q (copyTrapframe f (memset 5))
          * (isTable (σ.procs p).pagetable t
            * (frames pa page * (single (σ.procs p).trapframe f * A)))))
        = single q (copyTrapframe f (memset 5)) * (single (σ.procs p).trapframe f * (isTable r tn'
          * (frames pan' page * (isTable (σ.procs p).pagetable t * (frames pa page * A))))) := by
      ac_rfl
    have hd := hok np q r tn' pan' hnp hN'
    unfold Kernel.forked at hd
    rw [allocated_procs_self, hpost] at hd
    rw [if_neg (lt_irrefl (0 : ℤ)), bind_assoc, hread]
    apply Triple.read
    rw [bind_assoc, mul_left_comm]
    apply Triple.write
    exact hd
  · intro tn' pan' hoom hN'
    have hfreed : (σ.allocated np q r).set np (σ.procs np).cleared = σ.freed np := Kernel.set_set _ _ _ _
    have hpre : isTable r tn' * (isTable (σ.procs p).pagetable t * (frames pa page
          * (single q (memset 5) * (single (σ.procs p).trapframe f * A))))
        ≤ optPage q * (optSpace L r q 0 * (isTable (σ.procs p).pagetable t
          * (frames pa page * (single (σ.procs p).trapframe f * A)))) := by
      have hspace : isTable r tn' ≤ optSpace L r q 0 := by
        apply le_trans _ (isSpace_le_optSpace hr q Space.empty)
        have hle : isTable r tn' * (frames pan' Space.empty.page * 1) ≤ isSpace L r q Space.empty * 1 :=
          le_isSpace hN'
        rwa [mul_one, mul_one, Space.empty, frames_none, mul_one] at hle
      have hac : isTable r tn' * (isTable (σ.procs p).pagetable t * (frames pa page
            * (single q (memset 5) * (single (σ.procs p).trapframe f * A))))
          = single q (memset 5) * (isTable r tn' * (isTable (σ.procs p).pagetable t
            * (frames pa page * (single (σ.procs p).trapframe f * A)))) := by
        ac_rfl
      rw [hac]
      apply mul_le_mul' (single_le_optPage (ne_zero_of_mem_pool hq) _)
      exact mul_le_mul_left hspace _
    rw [if_pos (by decide : (-1 : ℤ) < 0), bind_assoc]
    apply Triple.pre _ hpre
    have hd := hfail np hnp hoom
    rw [← hfreed] at hd
    apply Triple.freeproc
    · exact rfl
    · exact rfl
    · exact (htidy np hnp).2.2
    · exact hd

end

end Xv6.Uvm
