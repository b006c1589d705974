import Xv6.Vm.Space

/-!
# Pages that were promised

The rule for `vmfault`, which maps a page below the size of the process when it is first
used, and for the page that the kernel finds or maps before it copies (`userPage`).
-/

namespace Xv6.Uvm

open Assertion PtTree Function

variable {L : Link} {m : Prog.Mode} {α : Type} {A : Assertion ℕ PageData}
  {C : α → Assertion ℕ PageData} {pt tf va v : ℕ} {t : PtTree 2} {pa : ℕ → ℕ} {S S' S'' : Space}
  {p : ProcMem} {d : ℕ → Vm α}

theorem Triple.ismapped {d : Bool → Vm α} (hva : va < MAXVA)
    (hvalid : Valid (t.entry va) → Triple L.pool m (isTable pt t * A) (d true) C)
    (hinvalid : ¬ Valid (t.entry va) → Triple L.pool m (isTable pt t * A) (d false) C) :
  Triple L.pool m (isTable pt t * A) (ismapped pt va >>= d) C
  := by
  unfold Uvm.ismapped
  rw [bind_assoc]
  apply Triple.walk (fun _ => hva)
  · intro t' q _ hw hq
    obtain rfl := hw.same rfl
    rw [bind_assoc]
    apply Triple.readPte hq
    by_cases h : Valid (t'.entry va)
    · rw [if_pos h]
      exact hvalid h
    · rw [if_neg h]
      exact hinvalid h
  · intro t' _ hw hzero
    obtain rfl := hw.same rfl
    apply hinvalid
    rw [hzero]
    decide

/-- The page of an address below the size. -/
theorem page_lt_sz (h : va < S.sz) : va / PGSIZE * PGSIZE < S.sz :=
  lt_of_le_of_lt (Nat.div_mul_le_self va PGSIZE) h

/-- `vmfault` maps a page that was promised, unless it is refused memory. -/
theorem Triple.vmfault (hM : Maps L tf t pa S.page) (hpt : p.pagetable = pt) (hsz : p.sz = S.sz)
    (hfail : ∀ t' : PtTree 2, S.sz ≤ va ∨ S.page (va / PGSIZE) ≠ none ∨ m.oom → Maps L tf t' pa S.page →
      Triple L.pool m (isTable pt t' * (frames pa S.page * A)) (d 0) C)
    (hok : ∀ (t' : PtTree 2) (q : ℕ) (h : va < S.sz), S.page (va / PGSIZE) = none → q ≠ 0 →
      Maps L tf t' (update pa (va / PGSIZE) q)
        (S.setPage (va / PGSIZE) Page.zero (page_lt_sz h)).page → Triple L.pool m
        (isTable pt t' * (frames (update pa (va / PGSIZE) q)
          (S.setPage (va / PGSIZE) Page.zero (page_lt_sz h)).page * A)) (d q) C) :
  Triple L.pool m (isTable pt t * (frames pa S.page * A)) (vmfault L p pt va >>= d) C
  := by
  unfold Uvm.vmfault
  rw [hsz, hpt]
  by_cases hle : S.sz ≤ va
  · rw [if_pos hle]
    exact hfail t (Or.inl hle) hM
  have hlt := Nat.lt_of_not_le hle
  have hv : va / PGSIZE < UPN := S.lt_UPN (page_lt_sz hlt)
  have hvpn : va / PGSIZE < NVPN := by
    rw [← UPN_add_two]
    omega
  have hround : PGROUNDDOWN va = va / PGSIZE * PGSIZE := rfl
  have hpte : t.entry (va / PGSIZE * PGSIZE) = t.pte (va / PGSIZE) := rfl
  rw [if_neg hle, bind_assoc]
  apply Triple.ismapped (lt_MAXVA_iff.mpr hvpn)
  · intro hvalid
    apply hfail t (Or.inr (Or.inl fun hnone => ?_)) hM
    rw [hpte] at hvalid
    exact hM.invalid hv hnone hvalid
  · intro hinvalid
    rw [hpte] at hinvalid
    have hnone : S.page (va / PGSIZE) = none := by
      cases hpg : S.page (va / PGSIZE) with
      | none => rfl
      | some pg =>
        rw [hM.mapped _ pg hpg] at hinvalid
        exact absurd (pg.entry_valid _) hinvalid
    rw [if_neg Bool.false_ne_true, bind_assoc]
    apply Triple.kalloc
    · intro hoom
      exact hfail t (Or.inr (Or.inr hoom)) hM
    · intro q hq
      rw [bind_assoc]
      apply Triple.write
      rw [bind_assoc, mul_left_comm]
      apply Triple.mappages hround hvpn (fun _ => hinvalid)
      · intro t' _ ht'
        rw [if_neg (by decide)]
        have hmap : Maps L tf t' (update pa (va / PGSIZE) q)
            (S.setPage (va / PGSIZE) Page.zero (page_lt_sz hlt)).page := by
          apply hM.map hv hq
          intro u hu
          rw [ht' u hu, BitVec.or_assoc]
          rfl
        have hframes : single q (memset 0) * (frames pa S.page * A)
            = frames (update pa (va / PGSIZE) q)
                (S.setPage (va / PGSIZE) Page.zero (page_lt_sz hlt)).page * A := by
          rw [Space.setPage, frames_update hv, frames_focus hv, hnone, frame, one_mul, ← mul_assoc]
          rfl
        rw [hframes]
        exact hok t' q hlt hnone (ne_zero_of_mem_pool hq) hmap
      · intro t' hoom ht'
        rw [if_pos (by decide), bind_assoc, mul_left_comm]
        apply Triple.kfree
        exact hfail t' (Or.inr (Or.inr hoom)) (hM.congr ht')

/-! ### What can be accessed -/

/-- A user may read the page, at once or after it has been mapped. -/
def Space.Readable (S : Space) (v : ℕ) : Prop :=
  match S.page v with
  | some pg => pg.User
  | none => v * PGSIZE < S.sz

/-- A user may write to the page, at once or after it has been mapped. -/
def Space.CanWrite (S : Space) (v : ℕ) : Prop :=
  match S.page v with
  | some pg => pg.User ∧ pg.Writable
  | none => v * PGSIZE < S.sz

theorem Space.readable_lt {v : ℕ} (h : S.Readable v) : v * PGSIZE < S.sz := by
  unfold Space.Readable at h
  cases hpg : S.page v with
  | none =>
    rw [hpg] at h
    exact h
  | some pg =>
    apply S.below
    rw [hpg]
    exact Option.some_ne_none pg

/-- The page has been mapped, if it was not. -/
inductive Touched (S : Space) (v : ℕ) : Space → Prop where
  | same : S.page v ≠ none → Touched S v S
  | mapped (hv : v * PGSIZE < S.sz) : S.page v = none → Touched S v (S.setPage v Page.zero hv)

/-- The page that the kernel finds or maps before it copies. -/
theorem Triple.userPage (hM : Maps L tf t pa S.page) (hpt : p.pagetable = pt)
    (hsz : p.sz = S.sz) (hva : va = v * PGSIZE)
    (hfail : ∀ t' : PtTree 2, ¬ S.Readable v ∨ S.page v = none ∧ m.oom → Maps L tf t' pa S.page →
      Triple L.pool m (isTable pt t' * (frames pa S.page * A)) (d 0) C)
    (hok : ∀ (t' : PtTree 2) (pa' : ℕ → ℕ) (S' : Space) (pg : Page), S.Readable v → Touched S v S' →
      S'.page v = some pg → pg.User → pa' v ≠ 0 → Maps L tf t' pa' S'.page →
      Triple L.pool m (isTable pt t' * (frames pa' S'.page * A)) (d (pa' v)) C) :
  Triple L.pool m (isTable pt t * (frames pa S.page * A)) (userPage L p pt va >>= d) C
  := by
  have hdiv : va / PGSIZE = v := by
    rw [hva]
    exact Nat.mul_div_cancel v (by decide)
  unfold Uvm.userPage
  rw [bind_assoc]
  apply Triple.walkaddr hM
  · intro pg _ hpg huser hne
    rw [hdiv] at hpg hne ⊢
    rw [if_neg hne]
    apply hok t pa S pg _ (Touched.same _) hpg huser hne hM
    · unfold Space.Readable
      rw [hpg]
      exact huser
    · rw [hpg]
      exact Option.some_ne_none pg
  · intro hhidden
    rw [if_pos rfl]
    apply Triple.vmfault hM hpt hsz
    · intro t' hwhy hM'
      apply hfail t' _ hM'
      rw [hdiv] at hwhy
      cases hpg : S.page v with
      | some pg =>
        left
        unfold Space.Readable
        rw [hpg]
        apply hhidden
        rw [hdiv, hpg]
      | none =>
        rcases hwhy with hle | hmapped | hoom
        · left
          unfold Space.Readable
          rw [hpg, ← hva]
          exact Nat.not_lt_of_le hle
        · exact absurd hpg hmapped
        · exact Or.inr ⟨rfl, hoom⟩
    · intro t' q hlt hnone hq
      revert hnone
      simp only [hdiv]
      intro hnone hM'
      have hv : v * PGSIZE < S.sz := by
        rw [← hva]
        exact hlt
      have hself : update pa v q v = q := update_self v q pa
      rw [← hself] at hq
      have hd := hok t' (update pa v q) (S.setPage v Page.zero hv) Page.zero ?_
        (Touched.mapped hv hnone) (update_self v _ S.page) (by decide) hq hM'
      · rwa [hself] at hd
      · unfold Space.Readable
        rw [hnone]
        exact hv

end Xv6.Uvm
