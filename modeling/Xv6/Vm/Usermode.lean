import Xv6.Vm.Confined
import Xv6.Vm.Resize

/-!
# A process in user mode

What a process can do to its memory: load and store a byte, change its size, and pass
addresses to the kernel.  An access that the hardware does not allow is a page fault, which
`usertrap` hands to `vmfault`; the instruction is then run again, or the process is killed.
-/

namespace Xv6.Uvm

open Assertion PtTree Function

/-! ### Accesses -/

/-- What an instruction does at an address. -/
inductive Access where
  | read
  | write
  deriving DecidableEq

/-- The flags that an entry must have for an access in user mode. -/
def Access.flags : Access → Word
  | .read => PTE_V ||| PTE_U ||| PTE_R
  | .write => PTE_V ||| PTE_U ||| PTE_W

/-- The flags allow the access. -/
abbrev Access.Permits (acc : Access) (w : Word) : Prop := w &&& acc.flags = acc.flags

/-- The page that the hardware finds for an address in user mode, if its entry allows the
access. -/
def translate (pagetable va : ℕ) (acc : Access) : Vm (Option ℕ) :=
  if MAXVA ≤ va then return none
  else do
    match ← walk pagetable va false with
    | none => return none
    | some pte =>
      let w ← readPte pte
      if acc.Permits w then return some (PTE2PA w) else return none

/-- An access in user mode, with the page fault in `usertrap`; if there is no page, the process
has been killed. -/
def access (L : Link) (p : ProcMem) (va : ℕ) (acc : Access) : Vm (Option ℕ) := do
  match ← translate p.pagetable va acc with
  | some pa => return some pa
  | none =>
    let pa ← vmfault L p p.pagetable va
    if pa ≠ 0 then translate p.pagetable va acc else return none

/-- A byte that the process loads. -/
def load (L : Link) (p : ProcMem) (va : ℕ) : Vm (Option UInt8) := do
  match ← access L p va .read with
  | none => return none
  | some pa =>
    let page ← Prog.read pa
    return some ((pageBytes page).byteAt (va % PGSIZE))

/-- A byte that the process stores; the result says whether it has done so. -/
def store (L : Link) (p : ProcMem) (va : ℕ) (b : UInt8) : Vm Bool := do
  match ← access L p va .write with
  | none => return false
  | some pa =>
    Prog.write pa (patchPage (va % PGSIZE) [b])
    return true

/-- What a process does to its memory. -/
inductive UserOp where
  | load (va : Word)
  | store (va : Word) (b : UInt8)
  | sbrk (n t : BitVec 32)
  | copyin (srcva len : Word)
  | copyout (dstva : Word) (src : List UInt8)

/-- What the process, or the kernel on its behalf, gets to see. -/
inductive Seen where
  | byte (b : UInt8)
  | stored
  | brk (r : ℤ)
  | copied (r : ℤ) (bs : List UInt8)
  | killed
  deriving DecidableEq

/-- One operation of the process: what is seen, and the process afterwards. -/
def UserOp.run (L : Link) (p : ProcMem) : UserOp → Vm (Seen × ProcMem)
  | .load va => do
    match ← Uvm.load L p va.toNat with
    | some b => return (.byte b, p)
    | none => return (.killed, p)
  | .store va b => do
    let ok ← Uvm.store L p va.toNat b
    if ok then return (.stored, p) else return (.killed, p)
  | .sbrk n t => do
    let r ← sysSbrk L p n.toInt t.toInt
    return (.brk r.1, r.2)
  | .copyin srcva len => do
    let r ← Uvm.copyin L p p.pagetable srcva.toNat len.toNat
    return (.copied r.1 r.2, p)
  | .copyout dstva src => do
    let r ← Uvm.copyout L p p.pagetable dstva.toNat src
    return (.copied r [], p)

/-- A sequence of operations, which ends early if the process is killed. -/
def runOps (L : Link) : ProcMem → List UserOp → Vm (List Seen × ProcMem)
  | p, [] => return ([], p)
  | p, op :: ops => do
    let r ← op.run L p
    if r.1 = .killed then return ([r.1], r.2)
    else
      let rest ← runOps L r.2 ops
      return (r.1 :: rest.1, rest.2)

/-! ### The hardware and the page fault -/

variable {L : Link} {m : Prog.Mode} {α : Type} {A : Assertion ℕ PageData}
  {C : α → Assertion ℕ PageData} {pt tf va v : ℕ} {t : PtTree 2} {pa : ℕ → ℕ}
  {page : ℕ → Option Page} {S S' : Space} {p : ProcMem} {acc : Access} {d : Option ℕ → Vm α}
  {w : Word}

/-- The process may access the address, at once or after its page has been mapped. -/
def Space.Allows (S : Space) (acc : Access) (va : ℕ) : Prop :=
  match S.page (va / PGSIZE) with
  | some pg => acc.Permits pg.flags
  | none => va < S.sz

namespace Access

theorem flags_isFlags (acc : Access) : IsFlags acc.flags := by
  cases acc <;> unfold IsFlags <;> decide

theorem permits_entry (acc : Access) (a : ℕ) (fl : Word) :
  acc.Permits (PA2PTE a ||| fl) ↔ acc.Permits fl
  := by
  unfold Permits
  rw [PA2PTE_or_and acc.flags_isFlags]

/-- A page that has just been mapped. -/
theorem permits_zero (acc : Access) : acc.Permits Page.zero.flags := by
  cases acc <;> decide

/-- A flag that every access needs. -/
theorem Permits.and {w flag : Word} (h : acc.Permits w) (hflag : acc.flags &&& flag = flag) :
  w &&& flag = flag
  := by
  calc w &&& flag
      = w &&& (acc.flags &&& flag) := by rw [hflag]
    _ = w &&& acc.flags &&& flag := (BitVec.and_assoc _ _ _).symm
    _ = acc.flags &&& flag := by rw [h]
    _ = flag := hflag

theorem Permits.user (h : acc.Permits w) : w &&& PTE_U ≠ 0 := by
  rw [h.and (by cases acc <;> decide)]
  decide

theorem Permits.valid (h : acc.Permits w) : Valid w := by
  unfold Valid
  rw [h.and (by cases acc <;> decide)]
  decide

theorem Permits.writable (h : write.Permits w) : w &&& PTE_W ≠ 0 := by
  rw [h.and (by decide)]
  decide

end Access

/-- The hardware finds the pages of the process that allow the access. -/
theorem Triple.translate (hM : Maps L tf t pa page)
    (hhit : ∀ pg, page (va / PGSIZE) = some pg → acc.Permits pg.flags →
      Triple L.pool m (isTable pt t * A) (d (some (pa (va / PGSIZE)))) C)
    (hmiss : (∀ pg, page (va / PGSIZE) = some pg → ¬ acc.Permits pg.flags) →
      Triple L.pool m (isTable pt t * A) (d none) C) :
  Triple L.pool m (isTable pt t * A) (translate pt va acc >>= d) C
  := by
  unfold Uvm.translate
  by_cases hva : MAXVA ≤ va
  · rw [if_pos hva]
    apply hmiss
    intro pg hpg
    have hlt := hM.bound _ pg hpg
    have hle : NVPN ≤ va / PGSIZE := Nat.div_le_div_right hva
    rw [← UPN_add_two] at hle
    omega
  have hlt := Nat.lt_of_not_le hva
  rw [if_neg hva, bind_assoc]
  apply Triple.walk (fun _ => hlt)
  · intro t' q _ hw hq
    obtain rfl := hw.same rfl
    rw [bind_assoc]
    apply Triple.readPte hq
    by_cases hhidden : ∀ pg, page (va / PGSIZE) = some pg → ¬ acc.Permits pg.flags
    · rw [if_neg, pure_bind]
      · exact hmiss hhidden
      · intro hpermits
        apply hM.not_user hlt _ ⟨hpermits.valid, hpermits.user⟩
        intro pg hpg huser
        rw [entry_eq_pte, hM.mapped _ pg hpg, acc.permits_entry] at hpermits
        exact hhidden pg hpg hpermits
    · push Not at hhidden
      obtain ⟨pg, hpg, hpermits⟩ := hhidden
      rw [entry_eq_pte, hM.mapped _ pg hpg, if_pos ((acc.permits_entry _ _).mpr hpermits), pure_bind,
        Link.PTE2PA_or (hM.pool _ pg hpg) pg.isFlags]
      exact hhit pg hpg hpermits
  · intro t' _ hw hzero
    obtain rfl := hw.same rfl
    apply hmiss
    intro pg hpg
    rw [hM.page_eq_none hzero] at hpg
    cases hpg

/-- The page that an instruction accesses, after a page fault if need be. -/
theorem Triple.access (hM : Maps L tf t pa S.page) (hpt : p.pagetable = pt) (hsz : p.sz = S.sz)
    (hfail : ∀ t' : PtTree 2,
      ¬ S.Allows acc va ∨ S.page (va / PGSIZE) = none ∧ m.oom → Maps L tf t' pa S.page →
      Triple L.pool m (isTable pt t' * (frames pa S.page * A)) (d none) C)
    (hok : ∀ (t' : PtTree 2) (pa' : ℕ → ℕ) (S' : Space) (pg : Page), S.Allows acc va →
      Touched S (va / PGSIZE) S' → S'.page (va / PGSIZE) = some pg → acc.Permits pg.flags →
      Maps L tf t' pa' S'.page →
      Triple L.pool m (isTable pt t' * (frames pa' S'.page * A)) (d (some (pa' (va / PGSIZE)))) C) :
  Triple L.pool m (isTable pt t * (frames pa S.page * A)) (access L p va acc >>= d) C
  := by
  unfold Uvm.access
  rw [bind_assoc, hpt]
  apply Triple.translate hM
  · intro pg hpg hpermits
    apply hok t pa S pg _ (Touched.same _) hpg hpermits hM
    · unfold Space.Allows
      rw [hpg]
      exact hpermits
    · rw [hpg]
      exact Option.some_ne_none pg
  intro hnot
  rw [bind_assoc]
  apply Triple.vmfault hM hpt hsz
  · intro t' hwhy hM'
    rw [if_neg (not_not.mpr rfl)]
    apply hfail t' _ hM'
    cases hpg : S.page (va / PGSIZE) with
    | some pg =>
      left
      unfold Space.Allows
      rw [hpg]
      exact hnot pg hpg
    | none =>
      rcases hwhy with hle | hmapped | hoom
      · left
        unfold Space.Allows
        rw [hpg]
        exact Nat.not_lt_of_le hle
      · exact absurd hpg hmapped
      · exact Or.inr ⟨rfl, hoom⟩
  · intro t' q hlt hnone hq hM'
    rw [if_pos hq]
    have hself : (S.setPage (va / PGSIZE) Page.zero (page_lt_sz hlt)).page (va / PGSIZE) = some Page.zero :=
      update_self _ _ _
    apply Triple.translate hM'
    · intro pg hpg hpermits
      apply hok t' _ _ pg _ (Touched.mapped (page_lt_sz hlt) hnone) hpg hpermits hM'
      unfold Space.Allows
      rw [hnone]
      exact hlt
    · intro hnot'
      exact absurd acc.permits_zero (hnot' _ hself)

/-! ### One operation -/

/-- What an operation of a process does to its memory, and what is seen of it. -/
inductive Acts (oom : Prop) (S : Space) : UserOp → Seen → Space → Prop where
  | load {va : Word} {S' : Space} (hallows : S.Allows .read va.toNat)
      (htouched : Touched S (va.toNat / PGSIZE) S') :
      Acts oom S (.load va) (.byte (S.byte va.toNat)) S'
  | loadKilled {va : Word}
      (hwhy : ¬ S.Allows .read va.toNat ∨ S.page (va.toNat / PGSIZE) = none ∧ oom) :
      Acts oom S (.load va) .killed S
  | store {va : Word} {b : UInt8} {S₁ S' : Space} (hallows : S.Allows .write va.toNat)
      (htouched : Touched S (va.toNat / PGSIZE) S₁)
      (hwrote : Wrote S₁ S' (va.toNat / PGSIZE) (va.toNat % PGSIZE) [b]) :
      Acts oom S (.store va b) .stored S'
  | storeKilled {va : Word} {b : UInt8}
      (hwhy : ¬ S.Allows .write va.toNat ∨ S.page (va.toNat / PGSIZE) = none ∧ oom) :
      Acts oom S (.store va b) .killed S
  | sbrk {n t : BitVec 32} {r : ℤ} {S' : Space}
      (hresized : (r, S') = S.sbrk n.toInt t.toInt ∨ r = -1 ∧ S' = S ∧ oom) :
      Acts oom S (.sbrk n t) (.brk r) S'
  | copyin {srcva len : Word} {r : ℤ} {bs : List UInt8} {S' : Space}
      (hcopied : CopiedIn oom S S' srcva.toNat len.toNat r bs) :
      Acts oom S (.copyin srcva len) (.copied r bs) S'
  | copyout {dstva : Word} {src : List UInt8} {r : ℤ} {S' : Space}
      (hcopied : CopiedOut oom S S' dstva.toNat src r) :
      Acts oom S (.copyout dstva src) (.copied r []) S'

/-- A byte of a page that has been touched. -/
theorem Touched.byte_eq {pg : Page} (h : Touched S (va / PGSIZE) S') (hpg : S'.page (va / PGSIZE) = some pg) :
  (pageBytes pg.data).byteAt (va % PGSIZE) = S.byte va
  := by
  rw [← h.faulted.byte, Space.byte, hpg]

theorem Touched.sz_eq (h : Touched S v S') : S'.sz = S.sz := h.faulted.sz

theorem run_spec (L : Link) (m : Prog.Mode) (pt tf : ℕ) (S : Space) (op : UserOp) :
  Triple L.pool m (isSpace L pt tf S) (op.run L ⟨pt, S.sz⟩)
    (fun r => ex fun S' => fact (Acts m.oom S op r.1 S' ∧ r.2 = ⟨pt, S'.sz⟩) * isSpace L pt tf S')
  := by
  cases op with
  | load va =>
    rw [← mul_one (isSpace L pt tf S)]
    apply Triple.of_isSpace
    intro t pa hM
    rw [UserOp.run, Uvm.load, bind_assoc]
    apply Triple.access (p := ⟨pt, S.sz⟩) hM rfl rfl
    · intro t' hwhy hM'
      exact Triple.ret_space hM' ⟨.loadKilled hwhy, rfl⟩
    · intro t' pa' S' pg hallows htouched hpg _ hM'
      rw [bind_assoc]
      apply Triple.readPage hpg
      rw [pure_bind]
      apply Triple.ret_space hM'
      rw [htouched.byte_eq hpg, htouched.sz_eq]
      exact ⟨.load hallows htouched, rfl⟩
  | store va b =>
    rw [← mul_one (isSpace L pt tf S)]
    apply Triple.of_isSpace
    intro t pa hM
    rw [UserOp.run, Uvm.store, bind_assoc]
    apply Triple.access (p := ⟨pt, S.sz⟩) hM rfl rfl
    · intro t' hwhy hM'
      exact Triple.ret_space hM' ⟨.storeKilled hwhy, rfl⟩
    · intro t' pa' S' pg hallows htouched hpg hpermits hM'
      have hv : va.toNat / PGSIZE * PGSIZE < S'.sz := by
        apply S'.below
        rw [hpg]
        exact Option.some_ne_none pg
      rw [bind_assoc]
      apply Triple.writePage hpg hv
      rw [pure_bind]
      have hwrote : Wrote S' (S'.setPage (va.toNat / PGSIZE)
          (pg.write (patchPage (va.toNat % PGSIZE) [b] pg.data)) hv) (va.toNat / PGSIZE)
          (va.toNat % PGSIZE) [b] :=
        ⟨rfl, ⟨pg, hpg, hpermits.user, hpermits.writable, update_self _ _ _⟩,
          fun u hu => update_of_ne hu _ _⟩
      apply Triple.ret_space (hM'.write hpg _)
      refine ⟨.store hallows htouched hwrote, ?_⟩
      rw [hwrote.sz, htouched.sz_eq]
  | sbrk n t =>
    rw [UserOp.run]
    apply Triple.bind (sysSbrk_spec L m pt tf S t.toInt ⟨n.le_toInt, n.toInt_lt⟩)
    intro r
    apply Triple.ex
    intro S'
    apply Triple.fact
    intro hresized
    apply Triple.ret
    apply le_ex S'
    exact le_fact_mul ⟨.sbrk hresized.result, hresized.mem⟩ (le_refl _)
  | copyin srcva len =>
    rw [UserOp.run]
    apply Triple.bind (copyin_spec L m pt tf S srcva.toNat len.toNat)
    intro r
    apply Triple.ex
    intro S'
    apply Triple.fact
    intro hcopied
    apply Triple.ret
    apply le_ex S'
    refine le_fact_mul ⟨.copyin hcopied, ?_⟩ (le_refl _)
    rw [hcopied.faulted.sz]
  | copyout dstva src =>
    rw [UserOp.run]
    apply Triple.bind (copyout_spec L m pt tf S dstva.toNat src)
    intro r
    apply Triple.ex
    intro S'
    apply Triple.fact
    intro hcopied
    apply Triple.ret
    apply le_ex S'
    refine le_fact_mul ⟨.copyout hcopied, ?_⟩ (le_refl _)
    rw [hcopied.sz]

/-! ### Many operations -/

/-- What a sequence of operations does, and what is seen of it. -/
inductive Runs (oom : Prop) : Space → List UserOp → List Seen → Space → Prop where
  | nil (S : Space) : Runs oom S [] [] S
  | cons {S S₁ S' : Space} {op : UserOp} {ops : List UserOp} {o : Seen} {os : List Seen}
      (hact : Acts oom S op o S₁) (ho : o ≠ .killed) (hrest : Runs oom S₁ ops os S') :
      Runs oom S (op :: ops) (o :: os) S'
  | killed {S S' : Space} {op : UserOp} {ops : List UserOp} (hact : Acts oom S op .killed S') :
      Runs oom S (op :: ops) [.killed] S'

theorem runOps_spec (L : Link) (m : Prog.Mode) (pt tf : ℕ) (S : Space) (ops : List UserOp) :
  Triple L.pool m (isSpace L pt tf S) (runOps L ⟨pt, S.sz⟩ ops)
    (fun r => ex fun S' => fact (Runs m.oom S ops r.1 S' ∧ r.2 = ⟨pt, S'.sz⟩) * isSpace L pt tf S')
  := by
  induction ops generalizing S with
  | nil =>
    apply Triple.ret
    apply le_ex S
    exact le_fact_mul ⟨.nil S, rfl⟩ (le_refl _)
  | cons op ops ih =>
    rw [runOps]
    apply Triple.bind (run_spec L m pt tf S op)
    rintro ⟨o, p⟩
    apply Triple.ex
    intro S₁
    apply Triple.fact
    rintro ⟨hact, hp⟩
    dsimp only at hact hp ⊢
    subst hp
    by_cases ho : o = .killed
    · subst ho
      rw [if_pos rfl]
      apply Triple.ret
      apply le_ex S₁
      exact le_fact_mul ⟨.killed hact, rfl⟩ (le_refl _)
    · rw [if_neg ho]
      apply Triple.bind (ih S₁)
      intro rest
      apply Triple.ex
      intro S'
      apply Triple.fact
      rintro ⟨hrest, hmem⟩
      apply Triple.ret
      apply le_ex S'
      exact le_fact_mul ⟨.cons hact ho hrest, hmem⟩ (le_refl _)

end Xv6.Uvm
