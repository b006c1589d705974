import Xv6.Lib.Machine
import Xv6.Vm.User

/-!
# Running out of memory

What the functions of the virtual memory return when `kalloc` has refused them a page: each of
them reports the failure to its caller.  A function that takes no page is never refused one.
-/

namespace Xv6

open Prog

variable {α : Type} {Q : α → Prop}

theorem kalloc_refused : kalloc.Refused (· = none) := ⟨rfl, fun _ => trivial⟩

theorem kfree_refused (L : Link) (pa : ℕ) : (kfree L pa).Refused fun _ => False := by
  unfold kfree
  split_ifs <;> trivial

theorem readPte_refused (pte : ℕ × Fin 512) : (readPte pte).Refused fun _ => False :=
  fun _ => trivial

theorem writePte_refused (pte : ℕ × Fin 512) (w : Word) : (writePte pte w).Refused fun _ => False :=
  trivial

theorem walkLevel_refused (va : ℕ) (alloc : Bool) (level pagetable : ℕ) :
  (walkLevel va alloc level pagetable).Refused fun r => alloc = true ∧ r = none
  := by
  induction level generalizing pagetable with
  | zero => trivial
  | succ level ih =>
    unfold walkLevel
    apply (readPte_refused _).seq
    intro pte
    split_ifs with _ halloc
    · exact ih _
    · trivial
    · apply kalloc_refused.bind
      · rintro r rfl
        exact ⟨Bool.eq_true_of_not_eq_false halloc, rfl⟩
      · intro r
        cases r with
        | none => trivial
        | some page => exact ih page

theorem walk_refused (pagetable va : ℕ) (alloc : Bool) :
  (walk pagetable va alloc).Refused fun r => alloc = true ∧ r = none
  := by
  unfold walk
  split_ifs
  · trivial
  · exact walkLevel_refused va alloc 2 pagetable

/-- Looking at an entry takes no page. -/
theorem walk_false_refused {d : Option (ℕ × Fin 512) → Vm α} (pagetable va : ℕ)
    (hd : ∀ r, (d r).Refused Q) :
  (walk pagetable va false >>= d).Refused Q
  := by
  apply (walk_refused pagetable va false).bind
  · rintro r ⟨halloc, _⟩
    cases halloc
  · exact hd

theorem mapLoop_refused (pagetable last : ℕ) (perm : Word) (n a pa : ℕ) :
  (mapLoop pagetable last perm n a pa).Refused (· = -1)
  := by
  induction n generalizing a pa with
  | zero => trivial
  | succ n ih =>
    unfold mapLoop
    apply (walk_refused pagetable a true).bind
    · rintro r ⟨_, rfl⟩
      exact rfl
    · intro r
      cases r with
      | none => trivial
      | some pte =>
        apply (readPte_refused pte).seq
        intro w
        by_cases hvalid : w &&& PTE_V ≠ 0
        · rw [if_pos hvalid]
          trivial
        · rw [if_neg hvalid]
          apply (writePte_refused pte _).seq
          intro _
          split_ifs
          · trivial
          · exact ih _ _

theorem mappages_refused (pagetable va size pa : ℕ) (perm : Word) :
  (mappages pagetable va size pa perm).Refused (· = -1)
  := by
  unfold mappages
  split_ifs
  · trivial
  · trivial
  · trivial
  · exact mapLoop_refused pagetable _ perm _ va pa

theorem walkaddr_refused (pagetable va : ℕ) : (walkaddr pagetable va).Refused fun _ => False := by
  unfold walkaddr
  split_ifs
  · trivial
  · apply walk_false_refused
    intro r
    cases r with
    | none => trivial
    | some pte =>
      apply (readPte_refused pte).seq
      intro w
      split_ifs <;> trivial

theorem freeIf_refused (L : Link) (doFree : Bool) (pa : ℕ) :
  (freeIf L doFree pa).Refused fun _ => False
  := by
  unfold freeIf
  split_ifs
  · exact kfree_refused L pa
  · trivial

theorem unmapLoop_refused (L : Link) (pagetable bound : ℕ) (doFree : Bool) (n a : ℕ) :
  (unmapLoop L pagetable bound doFree n a).Refused fun _ => False
  := by
  induction n generalizing a with
  | zero =>
    unfold unmapLoop
    split_ifs <;> trivial
  | succ n ih =>
    unfold unmapLoop
    by_cases ha : a < bound
    · rw [if_pos ha]
      apply walk_false_refused
      intro r
      cases r with
      | none => exact ih _
      | some pte =>
        apply (readPte_refused pte).seq
        intro w
        by_cases hw : w &&& PTE_V = 0
        · rw [if_pos hw]
          exact ih _
        · rw [if_neg hw]
          apply (freeIf_refused L doFree _).seq
          intro _
          exact (writePte_refused pte 0).seq fun _ => ih _
    · rw [if_neg ha]
      trivial

theorem uvmunmap_refused (L : Link) (pagetable va npages : ℕ) (doFree : Bool) :
  (uvmunmap L pagetable va npages doFree).Refused fun _ => False
  := by
  unfold uvmunmap
  split_ifs
  · trivial
  · exact unmapLoop_refused L pagetable _ doFree npages va

namespace Uvm

/-! ### Building and freeing -/

theorem freeEntries_refused {freeBelow : ℕ → Vm Unit} (h : ∀ p, (freeBelow p).Refused fun _ => False)
    (pagetable : ℕ) (is : List (Fin 512)) :
  (freeEntries freeBelow pagetable is).Refused fun _ => False
  := by
  induction is with
  | nil => trivial
  | cons i is ih =>
    unfold freeEntries
    apply (readPte_refused _).seq
    intro pte
    split_ifs
    · apply (h _).seq
      intro _
      exact (writePte_refused _ 0).seq fun _ => ih
    · trivial
    · exact ih

theorem freewalk_refused (L : Link) (depth pagetable : ℕ) :
  (freewalk L depth pagetable).Refused fun _ => False
  := by
  induction depth generalizing pagetable with
  | zero => trivial
  | succ depth ih =>
    unfold freewalk
    generalize List.finRange 512 = is
    exact (freeEntries_refused ih pagetable is).seq fun _ => kfree_refused L pagetable

theorem uvmfree_refused (L : Link) (pagetable sz : ℕ) :
  (uvmfree L pagetable sz).Refused fun _ => False
  := by
  unfold uvmfree
  generalize 3 = depth
  split_ifs
  · exact (uvmunmap_refused L pagetable 0 _ true).seq fun _ => freewalk_refused L depth pagetable
  · exact freewalk_refused L depth pagetable

theorem procFreepagetable_refused (L : Link) (pagetable sz : ℕ) :
  (procFreepagetable L pagetable sz).Refused fun _ => False
  := by
  unfold procFreepagetable
  apply (uvmunmap_refused L pagetable TRAMPOLINE 1 false).seq
  intro _
  apply (uvmunmap_refused L pagetable TRAPFRAME 1 false).seq
  intro _
  exact uvmfree_refused L pagetable sz

theorem uvmcreate_refused : uvmcreate.Refused (· = 0) := by
  apply kalloc_refused.bind
  · rintro r rfl
    exact rfl
  · intro r
    cases r with
    | none => trivial
    | some pagetable => trivial

theorem procPagetable_refused (L : Link) (trapframe : ℕ) :
  (procPagetable L trapframe).Refused (· = 0)
  := by
  have hfree := uvmfree_refused L
  unfold procPagetable
  generalize uvmfree L = free at hfree ⊢
  apply uvmcreate_refused.bind
  · rintro r rfl
    exact rfl
  intro pagetable
  by_cases hzero : pagetable = 0
  · rw [if_pos hzero]
    trivial
  rw [if_neg hzero]
  apply (mappages_refused pagetable TRAMPOLINE PGSIZE _ _).bind
  · rintro r rfl
    rw [if_pos (by decide)]
    exact (returns_any _).bind fun _ _ => rfl
  intro r
  by_cases hr : r < 0
  · rw [if_pos hr]
    exact (hfree pagetable 0).seq fun _ => trivial
  rw [if_neg hr]
  apply (mappages_refused pagetable TRAPFRAME PGSIZE _ _).bind
  · rintro r rfl
    rw [if_pos (by decide)]
    exact (returns_any _).bind fun _ _ => (returns_any _).bind fun _ _ => rfl
  intro r
  by_cases hr : r < 0
  · rw [if_pos hr]
    apply (uvmunmap_refused L pagetable TRAMPOLINE 1 false).seq
    intro _
    exact (hfree pagetable 0).seq fun _ => trivial
  · rw [if_neg hr]
    trivial

theorem copyLoop_refused (L : Link) (old new sz n i : ℕ) :
  (copyLoop L old new sz n i).Refused (· = -1)
  := by
  induction n generalizing i with
  | zero =>
    unfold copyLoop
    split_ifs <;> trivial
  | succ n ih =>
    unfold copyLoop
    by_cases hi : i < sz
    · rw [if_pos hi]
      apply walk_false_refused
      intro r
      cases r with
      | none => exact ih _
      | some pte =>
        apply (readPte_refused pte).seq
        intro w
        by_cases hw : w &&& PTE_V = 0
        · rw [if_pos hw]
          exact ih _
        rw [if_neg hw]
        apply kalloc_refused.bind
        · rintro r rfl
          exact (returns_any _).bind fun _ _ => rfl
        intro r
        cases r with
        | none => exact (uvmunmap_refused L new 0 _ true).seq fun _ => trivial
        | some mem =>
          intro page
          apply (mappages_refused new i PGSIZE mem _).bind
          · rintro r rfl
            exact (returns_any _).bind fun _ _ => (returns_any _).bind fun _ _ => rfl
          intro r
          by_cases hr : r ≠ 0
          · rw [if_pos hr]
            apply (kfree_refused L mem).seq
            intro _
            exact (uvmunmap_refused L new 0 _ true).seq fun _ => trivial
          · rw [if_neg hr]
            exact ih _
    · rw [if_neg hi]
      trivial

/-! ### Faults and copies -/

theorem ismapped_refused (pagetable va : ℕ) : (ismapped pagetable va).Refused fun _ => False := by
  unfold ismapped
  apply walk_false_refused
  intro r
  cases r with
  | none => trivial
  | some pte =>
    apply (readPte_refused pte).seq
    intro w
    split_ifs <;> trivial

variable (L : Link) (p : ProcMem)

theorem vmfault_refused (pagetable va : ℕ) : (vmfault L p pagetable va).Refused (· = 0) := by
  unfold vmfault
  by_cases hsz : p.sz ≤ va
  · rw [if_pos hsz]
    trivial
  rw [if_neg hsz]
  apply (ismapped_refused pagetable _).seq
  intro mapped
  cases mapped with
  | true => trivial
  | false =>
    apply kalloc_refused.bind
    · rintro r rfl
      exact rfl
    · intro r
      cases r with
      | none => trivial
      | some mem =>
        apply (mappages_refused p.pagetable _ PGSIZE mem _).bind
        · rintro r rfl
          rw [if_pos (by decide)]
          exact (returns_any (kfree L mem)).bind fun _ _ => rfl
        · intro r
          by_cases hr : r ≠ 0
          · rw [if_pos hr]
            apply (kfree_refused L mem).seq
            intro _
            trivial
          · rw [if_neg hr]
            trivial

theorem userPage_refused (pagetable va : ℕ) : (userPage L p pagetable va).Refused (· = 0) := by
  unfold userPage
  apply (walkaddr_refused pagetable va).seq
  intro pa0
  split_ifs
  · exact vmfault_refused L p pagetable va
  · trivial

theorem copyoutLoop_refused (pagetable k dstva : ℕ) (src : List UInt8) :
  (copyoutLoop L p pagetable k dstva src).Refused (· = -1)
  := by
  induction k generalizing dstva src with
  | zero =>
    unfold copyoutLoop
    split_ifs <;> trivial
  | succ k ih =>
    unfold copyoutLoop
    by_cases hlen : src.length = 0
    · rw [if_pos hlen]
      trivial
    by_cases hva : MAXVA ≤ PGROUNDDOWN dstva
    · rw [if_neg hlen, if_pos hva]
      trivial
    rw [if_neg hlen, if_neg hva]
    apply (userPage_refused L p pagetable _).bind
    · rintro r rfl
      exact rfl
    · intro pa0
      by_cases hpa0 : pa0 = 0
      · rw [if_pos hpa0]
        trivial
      rw [if_neg hpa0]
      apply walk_false_refused
      intro r
      cases r with
      | none => trivial
      | some pte =>
        apply (readPte_refused pte).seq
        intro w
        by_cases hw : w &&& PTE_W = 0
        · rw [if_pos hw]
          trivial
        · rw [if_neg hw]
          exact ih _ _

theorem copyinLoop_refused (pagetable k srcva len : ℕ) :
  (copyinLoop L p pagetable k srcva len).Refused fun r => r.1 = -1
  := by
  induction k generalizing srcva len with
  | zero =>
    unfold copyinLoop
    split_ifs <;> trivial
  | succ k ih =>
    unfold copyinLoop
    by_cases hlen : len = 0
    · rw [if_pos hlen]
      trivial
    rw [if_neg hlen]
    apply (userPage_refused L p pagetable _).bind
    · rintro r rfl
      exact rfl
    · intro pa0
      by_cases hpa0 : pa0 = 0
      · rw [if_pos hpa0]
        trivial
      rw [if_neg hpa0]
      intro page
      apply (ih _ _).bind
      · intro rest hrest
        exact hrest
      · intro rest
        trivial

end Uvm

end Xv6
