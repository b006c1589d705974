import Xv6.Vm.Confined
import Xv6.Vm.Fork
import Xv6.Vm.Refused
import Xv6.Vm.Resize

/-!
# A `sbrk` that fails

Wherever `sys_sbrk` is refused a page, it returns -1 and the user sees nothing of it: the process has
its size, its pages are where they were and as they were, and of the pages that were free only page
tables that are in the tree now are not free again.
-/

namespace Xv6.Uvm

open Assertion PtTree Prog

/-! ### Failing -/

theorem uvmdealloc_refused (L : Link) (pagetable oldsz newsz : ℕ) :
  (uvmdealloc L pagetable oldsz newsz).Refused fun _ => False
  := by
  unfold uvmdealloc
  split_ifs
  · trivial
  · exact (uvmunmap_refused L pagetable _ _ true).seq fun _ => trivial
  · trivial

theorem allocLoop_refused (L : Link) (pagetable oldsz newsz : ℕ) (xperm : Word) (n a : ℕ) :
  (allocLoop L pagetable oldsz newsz xperm n a).Refused (· = 0)
  := by
  induction n generalizing a with
  | zero =>
    unfold allocLoop
    split_ifs <;> trivial
  | succ n ih =>
    unfold allocLoop
    split_ifs
    · apply kalloc_refused.bind
      · rintro r rfl
        exact (returns_any _).bind fun _ _ => rfl
      intro r
      cases r with
      | none => exact (uvmdealloc_refused L pagetable a oldsz).seq fun _ => trivial
      | some mem =>
        apply (mappages_refused pagetable a PGSIZE mem _).bind
        · rintro r rfl
          exact (returns_any _).bind fun _ _ => (returns_any _).bind fun _ _ => rfl
        intro r
        split_ifs
        · apply (kfree_refused L mem).seq
          intro _
          exact (uvmdealloc_refused L pagetable a oldsz).seq fun _ => trivial
        · exact ih _
    · trivial

theorem growproc_refused (L : Link) (p : ProcMem) (n : ℤ) : (growproc L p n).Refused (·.1 = -1)
  := by
  unfold growproc
  split_ifs
  · trivial
  · unfold uvmalloc
    split_ifs
    · rw [pure_bind]
      split_ifs <;> trivial
    · apply (allocLoop_refused L _ _ _ PTE_W _ _).bind
      · rintro r rfl
        rfl
      · intro r
        split_ifs <;> trivial
  · exact (uvmdealloc_refused L _ _ _).seq fun _ => trivial
  · trivial

theorem sysSbrk_refused (L : Link) (p : ProcMem) (n t : ℤ) : (sysSbrk L p n t).Refused (·.1 = -1)
  := by
  unfold sysSbrk
  split_ifs
  · apply (growproc_refused L p n).bind
    · intro r hr
      rw [hr]
      rfl
    · intro r
      split_ifs <;> trivial
  · trivial
  · trivial
  · trivial

/-! ### The pages -/

/-- The page is one of the page tables of the tree. -/
def InTable (pt : ℕ) (t : PtTree 2) (p : ℕ) : Prop := ∃ h, isTable pt t h ∧ h p ≠ none

/-- What a call of `sbrk` that fails leaves. -/
structure Unseen (L : Link) (pt tf : ℕ) (pa : ℕ → ℕ) (S : Space) (R : Assertion ℕ PageData)
    (s s' : Store ℕ PageData) (p : ProcMem) : Prop where
  mem : p = ⟨pt, S.sz⟩
  memory : ∃ t' : PtTree 2, Maps L tf t' pa S.page
    ∧ s'.Has L.pool (isTable pt t' * (frames pa S.page * R))
    ∧ ∀ q ∈ s.free, q ∈ s'.free ∨ InTable pt t' q

section

variable {L : Link} {pt tf : ℕ} {t : PtTree 2} {pa : ℕ → ℕ} {S : Space} {R : Assertion ℕ PageData}
  {s : Store ℕ PageData}

section

variable {oom : Prop} {S' : Space} {n k : ℤ} {r : ℤ × ProcMem} (h : Resized oom S S' pt n k r)

include h

theorem Resized.failed (hr : r.1 = -1) : S' = S := by
  rcases h.result with heq | heq
  · have hne : ∀ S'', (r.1, S') ≠ ((S.sz : ℤ), S'') := by
      intro S'' heq
      have := (Prod.mk.inj heq).1
      omega
    rw [Space.sbrk] at heq
    split_ifs at heq
    · exact absurd heq (hne _)
    · exact absurd heq (hne _)
    · exact absurd heq (hne _)
    · exact absurd heq (hne _)
    · exact (Prod.mk.inj heq).2
  · exact heq.2.1

theorem Resized.grown (hr : r.1 ≠ -1) (hn : 0 ≤ n) :
  r.1 = S.sz ∧ r.2.sz = S.sz + n ∧ S.sz + n ≤ TRAPFRAME
  := by
  rcases h.result with heq | heq
  · rw [h.mem]
    rw [Space.sbrk, dif_neg (by omega)] at heq
    split_ifs at heq with hle
    · obtain ⟨hret, rfl⟩ := Prod.mk.inj heq
      refine ⟨hret, ?_, by omega⟩
      change ((S.sz + n.toNat : ℕ) : ℤ) = S.sz + n
      omega
    · obtain ⟨hret, rfl⟩ := Prod.mk.inj heq
      refine ⟨hret, ?_, by omega⟩
      change ((S.sz + n.toNat : ℕ) : ℤ) = S.sz + n
      omega
    · exact absurd (Prod.mk.inj heq).1 hr
  · exact absurd heq.1 hr

end

/-- A failed `sbrk` changes nothing that the user can see, and one that succeeds returns the old size. -/
theorem sbrk_failed_unseen (hM : Maps L tf t pa S.page)
    (hs : s.Has L.pool (isTable pt t * (frames pa S.page * R))) (n k : Int32) :
  ∃ r s', (sysSbrk L ⟨pt, S.sz⟩ n.toInt k.toInt).exec s = some (r, s')
    ∧ (¬ (sysSbrk L ⟨pt, S.sz⟩ n.toInt k.toInt).Ample s → r.1 = -1)
    ∧ (r.1 = -1 → Unseen L pt tf pa S R s s' r.2)
    ∧ (r.1 ≠ -1 → 0 ≤ n.toInt →
        r.1 = S.sz ∧ r.2.sz = S.sz + n.toInt ∧ S.sz + n.toInt ≤ TRAPFRAME)
  := by
  obtain ⟨h, ⟨ht, hrest, hsplit, htable, hf, hR, hsplit', hframes, hhR⟩, hholds, hin⟩ := hs
  -- the rest of the memory is fixed as well
  obtain ⟨A, hA⟩ : ∃ A : Assertion ℕ PageData, ∀ h, A h ↔ h = hR := ⟨fun h => h = hR, fun _ => Iff.rfl⟩
  have hpre : (isTable pt t * (frames pa S.page * 1) * A) h := by
    rw [mul_one, mul_assoc]
    exact ⟨ht, hrest, hsplit, htable, hf, hR, hsplit', hframes, (hA hR).mpr rfl⟩
  have htriple : Triple L.pool ⟨True, False⟩ (isTable pt t * (frames pa S.page * 1)) _ _ :=
    Triple.sysSbrk k.toInt ⟨n.le_toInt, n.toInt_lt⟩ hM
  rcases htriple.exec hpre hholds hin (Or.inl trivial) with
    ⟨r, s', h', hexec, hpost, hholds', hin', hc⟩ | ⟨_, hpanic⟩
  · rw [ex_mul] at hpost
    obtain ⟨S', hpost⟩ := hpost
    rw [mul_assoc, fact_mul_iff] at hpost
    obtain ⟨hresized, hpost⟩ := hpost
    refine ⟨r, s', hexec, ?_, ?_, hresized.grown⟩
    · intro hrefused
      exact ((sysSbrk_refused L _ _ _).exec hexec).resolve_left hrefused
    · intro hfail
      obtain rfl := hresized.failed hfail
      refine ⟨hresized.mem, ?_⟩
      rw [leaves, if_pos hfail, ex_mul] at hpost
      obtain ⟨t', hpost⟩ := hpost
      rw [mul_assoc, fact_mul_iff] at hpost
      obtain ⟨hM', hpost⟩ := hpost
      rw [mul_assoc] at hpost
      obtain ⟨ht', hrest', hsplit₁, htable', hf', hR', hsplit₂, hframes', hAR⟩ := hpost
      obtain rfl := (hA hR').mp hAR
      obtain rfl := frames_exact pa S'.page _ _ hframes hframes'
      refine ⟨t', hM', ⟨h', ⟨ht', hrest', hsplit₁, htable', hf, _, hsplit₂, hframes, hhR⟩, hholds', hin'⟩, ?_⟩
      intro q hq
      by_cases htab : ht' q = none
      · left
        apply ((hc.owned q).mpr (Or.inr hq)).resolve_left
        have hnone := hsplit.right_none (hholds.apart q hq)
        rw [hsplit₁.right_of_none htab, hsplit₂.right_of_none (hsplit'.symm.right_none hnone),
          hsplit'.right_none hnone]
        exact not_not.mpr rfl
      · exact Or.inr ⟨ht', htable', htab⟩
  · exact hpanic.elim

end

/-- The process of the small machine asks for more than there is. -/
theorem sbrk_failed_small :
  ∃ (t : PtTree 2) (pa : ℕ → ℕ) (r : ℤ × ProcMem) (s' : Store ℕ PageData),
    Maps smallLink 0 t pa lazySpace.page
    ∧ (sysSbrk smallLink ⟨smallTable, lazySpace.sz⟩ 1000000 1).exec smallProc = some (r, s')
    ∧ (r.1 = -1 → Unseen smallLink smallTable 0 pa lazySpace 1 smallProc s' r.2)
  := by
  obtain ⟨h, hown, hholds, hin⟩ := smallProc_has (S := lazySpace) fun _ => rfl
  simp only [isSpace, ex_mul, mul_assoc] at hown
  obtain ⟨t, pa, hown⟩ := hown
  obtain ⟨hM, hown⟩ := fact_mul_iff.mp hown
  obtain ⟨r, s', hexec, -, hfail, -⟩ := sbrk_failed_unseen hM ⟨h, hown, hholds, hin⟩ 1000000 1
  exact ⟨t, pa, r, s', hM, hexec, hfail⟩

end Xv6.Uvm
