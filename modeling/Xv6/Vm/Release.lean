import Xv6.Lib.Machine
import Xv6.Vm.Space

/-!
# Building and freeing address spaces

The rules for `uvmunmap` on the pages of an address space, for `freewalk`, which frees a page
table without valid entries, and for `proc_pagetable` and `proc_freepagetable`, which build and
free the page table of a process.
-/

namespace Xv6

open Assertion

/-! ### Page tables without entries -/

/-- No entry of the page table is valid. -/
def PtTree.Bare : {l : ℕ} → PtTree l → Prop
  | _, .leaf d => ∀ i, ¬ Valid (d i)
  | _, .node addr sub => ∀ i, addr i ≠ none → (sub i).Bare

namespace PtTree

/-- Addresses with the same indices have the same entry. -/
theorem entry_congr_PX {l va va' : ℕ} {t : PtTree l} (h : ∀ k ≤ l, PX k va = PX k va') :
  t.entry va = t.entry va'
  := by
  induction t with
  | leaf d => simp only [PtTree.entry, h 0 (Nat.le_refl 0)]
  | @node l addr sub ih =>
    simp only [PtTree.entry, h (l + 1) (Nat.le_refl _)]
    split
    · rfl
    · exact ih _ fun k hk => h k (Nat.le_succ_of_le hk)

/-- The index of an address at a level, above the addresses that a table below covers. -/
theorem PX_add {l : ℕ} (i : Fin 512) {va : ℕ} (hva : va < 2 ^ (12 + 9 * l)) :
  PX l (i.val * 2 ^ (12 + 9 * l) + va) = i
    ∧ ∀ k < l, PX k (i.val * 2 ^ (12 + 9 * l) + va) = PX k va
  := by
  constructor
  · apply Fin.ext
    simp only [PX]
    rw [Nat.mul_comm, Nat.mul_add_div (Nat.two_pow_pos _), Nat.div_eq_of_lt hva, Nat.add_zero,
      Nat.mod_eq_of_lt i.isLt]
  · intro k hk
    apply Fin.ext
    simp only [PX]
    obtain ⟨j, rfl⟩ : ∃ j, l = k + 1 + j := ⟨l - (k + 1), by omega⟩
    have hsplit : i.val * 2 ^ (12 + 9 * (k + 1 + j)) + va
        = 2 ^ (12 + 9 * k) * (512 * (i.val * 2 ^ (9 * j))) + va := by
      have hpow : (2 : ℕ) ^ (12 + 9 * (k + 1 + j)) = 2 ^ (12 + 9 * k) * 512 * 2 ^ (9 * j) := by
        rw [show 12 + 9 * (k + 1 + j) = (12 + 9 * k) + 9 + 9 * j from by ring, pow_add, pow_add]
        norm_num
      rw [hpow]
      ring
    rw [hsplit, Nat.mul_add_div (Nat.two_pow_pos _), Nat.mul_add_mod]

theorem bare_of_entry {l : ℕ} {t : PtTree l} (h : ∀ va < 2 ^ (12 + 9 * (l + 1)), ¬ Valid (t.entry va)) :
  t.Bare
  := by
  induction t with
  | leaf d =>
    intro i
    have hlt : i.val * 2 ^ 12 < 2 ^ (12 + 9 * (0 + 1)) := by
      have := i.isLt
      norm_num
      omega
    have hentry := h _ hlt
    have hPX : PX 0 (i.val * 2 ^ 12) = i := by
      apply Fin.ext
      simp only [PX, Nat.mul_zero, Nat.add_zero]
      rw [Nat.mul_div_cancel _ (Nat.two_pow_pos 12), Nat.mod_eq_of_lt i.isLt]
    simp only [PtTree.entry, hPX] at hentry
    exact hentry
  | @node l addr sub ih =>
    intro i hi
    apply ih
    intro va hva
    obtain ⟨hself, hbelow⟩ := PX_add i hva
    have hlt : i.val * 2 ^ (12 + 9 * (l + 1)) + va < 2 ^ (12 + 9 * (l + 1 + 1)) := by
      have hpow : (2 : ℕ) ^ (12 + 9 * (l + 1 + 1)) = 512 * 2 ^ (12 + 9 * (l + 1)) := by
        rw [show 12 + 9 * (l + 1 + 1) = 9 + (12 + 9 * (l + 1)) from by ring, pow_add]
        norm_num
      have := Nat.mul_le_mul_right (2 ^ (12 + 9 * (l + 1))) (Nat.succ_le_of_lt i.isLt)
      rw [Nat.succ_mul] at this
      rw [hpow]
      omega
    have hentry := h _ hlt
    obtain ⟨q, hq⟩ := Option.ne_none_iff_exists'.mp hi
    simp only [PtTree.entry, hself, hq] at hentry
    rwa [entry_congr_PX fun k hk => hbelow k (Nat.lt_succ_of_le hk)] at hentry

theorem bare_of_pte {t : PtTree 2} (h : ∀ v < NPTE, ¬ Valid (t.pte v)) : t.Bare := by
  apply bare_of_entry
  intro va hva
  have hpte : t.entry va = t.pte (va / PGSIZE) := by
    apply entry_congr
    rw [Nat.mul_div_cancel _ (by decide)]
  rw [hpte]
  apply h
  unfold NPTE PGSIZE
  norm_num at hva
  omega

end PtTree

namespace Uvm

open PtTree

variable {L : Link} {m : Prog.Mode} {α : Type} {A : Assertion ℕ PageData}
  {C : α → Assertion ℕ PageData} {pt tf va v n : ℕ} {t t' : PtTree 2} {pa : ℕ → ℕ}
  {page : ℕ → Option Page} {E : ℕ → Word}

/-! ### `freewalk` -/

section

variable {l p : ℕ} {freeBelow : ℕ → Vm Unit} {is : List (Fin 512)} {d : PageData}

/-- A page table of the lowest level without valid entries stays as it is. -/
theorem freeEntries_leaf (hd : ∀ i, ¬ Valid (d i)) :
  Triple L.pool m (single p d) (freeEntries freeBelow p is) (fun _ => single p d)
  := by
  induction is with
  | nil => exact Triple.ret () (le_refl _)
  | cons i is ih =>
    unfold freeEntries readPte
    rw [bind_assoc, ← mul_one (single p d)]
    apply Triple.read
    rw [pure_bind, if_neg fun h => hd i h.1, if_neg (hd i), mul_one]
    exact ih

/-- The page tables below are freed one after the other. -/
theorem freeEntries_node {addr : Fin 512 → Option ℕ} {sub : Fin 512 → PtTree l}
    (hnodup : is.Nodup) (hd : ∀ i ∈ is, d i = pointer (addr i))
    (hfree : ∀ i q, addr i = some q → Triple L.pool m (isTable q (sub i)) (freeBelow q) (fun _ => 1)) :
  Triple L.pool m (single p d * (is.map fun i => below (sub i) (addr i)).prod)
    (freeEntries freeBelow p is) (fun _ => ex fun d' => single p d')
  := by
  induction is generalizing d with
  | nil =>
    rw [List.map_nil, List.prod_nil, mul_one]
    exact Triple.ret () (le_ex d (le_refl _))
  | cons i is ih =>
    obtain ⟨hi, hnodup⟩ := List.nodup_cons.mp hnodup
    have hd' : ∀ j ∈ is, d j = pointer (addr j) := fun j hj => hd j (List.mem_cons_of_mem i hj)
    unfold freeEntries readPte
    rw [bind_assoc, List.map_cons, List.prod_cons]
    apply Triple.read
    rw [pure_bind, hd i List.mem_cons_self]
    cases ha : addr i with
    | none =>
      have hinvalid : ¬ Valid (pointer none) := by decide
      rw [if_neg fun h => hinvalid h.1, if_neg hinvalid, below, one_mul]
      exact ih hnodup hd'
    | some q =>
      have hflags : pointer (some q) &&& (PTE_R ||| PTE_W ||| PTE_X) = 0 := by
        rw [pointer, PA2PTE_or_and (by unfold IsFlags; decide)]
        decide
      rw [if_pos ⟨pointer_valid, hflags⟩, below, mul_left_comm]
      apply Triple.table_mem_pool
      intro hq
      have hpa : PTE2PA (pointer (some q)) = q := Link.PTE2PA_or hq (by unfold IsFlags; decide)
      rw [hpa]
      apply Triple.call (hfree i q ha)
      intro _
      rw [one_mul]
      apply Triple.write
      apply ih hnodup
      intro j hj
      have hne : j ≠ i := by
        rintro rfl
        exact hi hj
      rw [Function.update_of_ne hne]
      exact hd' j hj

theorem kfree_spec (p : ℕ) (d : PageData) : Triple L.pool m (single p d) (kfree L p) (fun _ => 1) := by
  rw [← mul_one (single p d), ← bind_pure (kfree L p)]
  apply Triple.kfree
  exact Triple.ret () (le_refl _)

theorem freewalk_spec {t : PtTree l} (ht : t.Bare) (p : ℕ) :
  Triple L.pool m (isTable p t) (freewalk L (l + 1) p) (fun _ => 1)
  := by
  induction t generalizing p with
  | leaf d =>
    unfold freewalk isTable
    exact (freeEntries_leaf ht).bind fun _ => kfree_spec p d
  | @node l addr sub ih =>
    unfold freewalk
    rw [isTable_node, Fin.prod_univ_def]
    apply Triple.bind (freeEntries_node (List.nodup_finRange 512) (fun _ _ => rfl) ?_)
    · intro _
      exact Triple.ex (kfree_spec p)
    · intro i q hq
      apply ih i
      apply ht i
      rw [hq]
      exact Option.some_ne_none q

end

/-! ### Unmapping pages -/

/-- The pages without those of a range. -/
def dropPages (page : ℕ → Option Page) (v n : ℕ) : ℕ → Option Page :=
  fun u => if v ≤ u ∧ u < v + n then none else page u

/-- The entries of the pages below the trapframe. -/
structure PagesAt (L : Link) (E : ℕ → Word) (pa : ℕ → ℕ) (page : ℕ → Option Page) : Prop where
  mapped : ∀ v pg, page v = some pg → E v = PA2PTE (pa v) ||| pg.flags
  invalid : ∀ v < UPN, page v = none → ¬ Valid (E v)
  pool : ∀ v pg, page v = some pg → pa v ∈ L.pool

theorem Maps.pagesAt (h : Maps L tf t pa page) : PagesAt L t.pte pa page :=
  ⟨h.mapped, fun _ => h.invalid, h.pool⟩

/-- A page in memory is the page of its entry. -/
theorem PagesAt.frame_le (h : PagesAt L E pa page) (hv : v < UPN) :
  frame (pa v) (page v) ≤ leafOf (E v)
  := by
  unfold leafOf
  cases hpg : page v with
  | none =>
    rw [if_neg (h.invalid v hv hpg)]
    exact le_refl _
  | some pg =>
    rw [h.mapped v pg hpg, if_pos (pg.entry_valid _), Link.PTE2PA_or (h.pool v pg hpg) pg.isFlags]
    exact le_ex pg.data (le_refl _)

/-- The pages of a range, and the others. -/
theorem PagesAt.frames_le (h : PagesAt L E pa page) (hn : v + n ≤ UPN) :
  frames pa page ≤ leaves E v n * frames pa (dropPages page v n)
  := by
  have hsplit : frames pa page = (∏ u ∈ Finset.range UPN,
      if u ∈ Finset.Ico v (v + n) then frame (pa u) (page u) else 1) * frames pa (dropPages page v n) := by
    unfold frames
    rw [← Finset.prod_mul_distrib]
    apply Finset.prod_congr rfl
    intro u _
    unfold dropPages
    by_cases hu : v ≤ u ∧ u < v + n
    · rw [if_pos hu, if_pos (Finset.mem_Ico.mpr hu), frame, mul_one]
    · rw [if_neg hu, if_neg (mt Finset.mem_Ico.mp hu), one_mul]
  have hsub : Finset.range UPN ∩ Finset.Ico v (v + n) = Finset.Ico v (v + n) := by
    apply Finset.inter_eq_right.mpr
    intro u hu
    have := Finset.mem_Ico.mp hu
    apply Finset.mem_range.mpr
    omega
  rw [hsplit, Finset.prod_ite_mem, hsub, Finset.prod_Ico_eq_prod_range, Nat.add_sub_cancel_left]
  apply mul_le_mul_left
  apply Finset.prod_le_prod'
  intro i hi
  have := Finset.mem_range.mp hi
  exact h.frame_le (by omega)

variable {d : Unit → Vm α} {S : Space}

/-- Unmapping and freeing pages of a range. -/
theorem Triple.unmapPages (hP : PagesAt L t.pte pa page) (hva : va = v * PGSIZE)
    (hn : v + n ≤ UPN)
    (h : ∀ t' : PtTree 2, (∀ u < NPTE, t'.pte u = unmapped t.pte v n u) →
    Triple L.pool m (isTable pt t' * (frames pa (dropPages page v n) * A)) (d ()) C) :
  Triple L.pool m (isTable pt t * (frames pa page * A)) (uvmunmap L pt va n true >>= d) C
  := by
  have hpre : isTable pt t * (frames pa page * A)
      ≤ (isTable pt t * toFree true t.pte v n) * (frames pa (dropPages page v n) * A) := by
    have hac : (isTable pt t * toFree true t.pte v n) * (frames pa (dropPages page v n) * A)
        = isTable pt t * (leaves t.pte v n * frames pa (dropPages page v n) * A) := by
      unfold toFree
      rw [if_pos rfl]
      ac_rfl
    rw [hac]
    exact mul_le_mul_right (mul_le_mul_left (hP.frames_le hn) A) _
  apply Triple.pre _ hpre
  apply Triple.call (uvmunmap_spec pt true hva (by rw [← UPN_add_two]; omega))
  intro _
  rw [ex_mul]
  apply Triple.ex
  intro t'
  rw [mul_assoc]
  apply Triple.fact
  exact h t'

/-- The page table after the pages of a range have been unmapped. -/
theorem Maps.drop (h : Maps L tf t pa page) (hn : v + n ≤ UPN)
    (ht' : ∀ u < NPTE, t'.pte u = Xv6.unmapped t.pte v n u) :
  Maps L tf t' pa (dropPages page v n)
  := by
  have hlt := UPN_lt_NPTE
  have hdrop : ∀ u pg, dropPages page v n u = some pg → ¬ (v ≤ u ∧ u < v + n) ∧ page u = some pg := by
    intro u pg hpg
    unfold dropPages at hpg
    by_cases hu : v ≤ u ∧ u < v + n
    · rw [if_pos hu] at hpg
      cases hpg
    · rw [if_neg hu] at hpg
      exact ⟨hu, hpg⟩
  constructor
  · intro u pg hpg
    obtain ⟨hu, hpg⟩ := hdrop u pg hpg
    have := h.bound u pg hpg
    rw [ht' u (by omega), Xv6.unmapped, if_neg (fun h => hu ⟨h.1, h.2.1⟩), h.mapped u pg hpg]
  · intro u hu htf htramp hnone
    rw [ht' u hu]
    unfold Xv6.unmapped
    by_cases hin : v ≤ u ∧ u < v + n ∧ Valid (t.pte u)
    · rw [if_pos hin]
      decide
    · rw [if_neg hin]
      unfold dropPages at hnone
      by_cases hrange : v ≤ u ∧ u < v + n
      · exact fun hvalid => hin ⟨hrange.1, hrange.2, hvalid⟩
      · rw [if_neg hrange] at hnone
        exact h.unmapped u hu htf htramp hnone
  · rw [ht' UPN (by omega), Xv6.unmapped, if_neg (by omega), h.trapframe]
  · rw [ht' (UPN + 1) (by omega), Xv6.unmapped, if_neg (by omega), h.trampoline]
  · intro u pg hpg
    exact h.bound u pg (hdrop u pg hpg).2
  · intro u pg hpg
    exact h.pool u pg (hdrop u pg hpg).2

/-! ### Page tables of processes -/

theorem TRAPFRAME_eq : TRAPFRAME = UPN * PGSIZE := by
  unfold UPN
  decide

theorem TRAMPOLINE_eq : TRAMPOLINE = (UPN + 1) * PGSIZE := by
  unfold UPN
  decide

/-- Freeing a page table without valid entries. -/
theorem Triple.uvmfree_bare (ht : ∀ v < NPTE, ¬ Valid (t.pte v))
    (h : Triple L.pool m A (d ()) C) :
  Triple L.pool m (isTable pt t * A) (uvmfree L pt 0 >>= d) C
  := by
  unfold uvmfree
  rw [if_neg (lt_irrefl 0)]
  apply Triple.call (freewalk_spec (bare_of_pte ht) pt)
  intro _
  rw [one_mul]
  exact h

theorem frames_none : frames pa (fun _ => none) = 1 := Finset.prod_eq_one fun _ _ => rfl

/-- Unmapping one page that is not freed. -/
theorem Triple.unmapOne (hva : va = v * PGSIZE) (hv : v < NVPN)
    (h : ∀ t' : PtTree 2, (∀ u < NPTE, t'.pte u = unmapped t.pte v 1 u) →
    Triple L.pool m (isTable pt t' * A) (d ()) C) :
  Triple L.pool m (isTable pt t * A) (uvmunmap L pt va 1 false >>= d) C
  := by
  have hone : isTable pt t = isTable pt t * toFree false t.pte v 1 := by
    unfold toFree
    rw [if_neg Bool.false_ne_true, mul_one]
  rw [hone]
  apply Triple.call (uvmunmap_spec pt false hva hv)
  intro _
  rw [ex_mul]
  apply Triple.ex
  intro t'
  rw [mul_assoc]
  apply Triple.fact
  exact h t'

/-- `proc_pagetable` builds a page table with the trampoline and the trapframe, unless it is
refused memory, and then it leaves nothing behind. -/
theorem Triple.procPagetable {d : ℕ → Vm α} (hfail : m.oom → Triple L.pool m A (d 0) C)
    (hok : ∀ (r : ℕ) (t : PtTree 2), r ≠ 0 → (∀ pa, Maps L tf t pa (fun _ => none)) →
      Triple L.pool m (isTable r t * A) (d r) C) :
  Triple L.pool m A (procPagetable L tf >>= d) C
  := by
  have hlt := UPN_lt_NPTE
  have hsum := UPN_add_two
  have hempty : ∀ v, (PtTree.zero 2).pte v = 0 := fun v => entry_zero (v * PGSIZE) 2
  unfold Uvm.procPagetable uvmcreate
  rw [bind_assoc, bind_assoc]
  apply Triple.kalloc
  · exact hfail
  intro r hr
  have hne := ne_zero_of_mem_pool hr
  rw [bind_assoc]
  apply Triple.write
  rw [pure_bind, if_neg hne, bind_assoc, ← isTable_zero 2 r]
  apply Triple.mappages TRAMPOLINE_eq (by omega)
  · intro _
    rw [hempty]
    decide
  · intro t₁ _ ht₁
    rw [if_neg (by decide), bind_assoc]
    apply Triple.mappages TRAPFRAME_eq (by omega)
    · intro _
      rw [ht₁ UPN (by omega), if_neg (by omega), hempty]
      decide
    · intro t₂ _ ht₂
      rw [if_neg (by decide)]
      apply hok r t₂ hne
      intro pa
      constructor
      · intro v pg hpg
        cases hpg
      · intro v hv htf htramp _
        rw [ht₂ v hv, if_neg htf, ht₁ v hv, if_neg htramp, hempty]
        decide
      · rw [ht₂ UPN (by omega), if_pos rfl]
      · rw [ht₂ (UPN + 1) (by omega), if_neg (by omega), ht₁ (UPN + 1) (by omega), if_pos rfl]
      · intro v pg hpg
        cases hpg
      · intro v pg hpg
        cases hpg
    · intro t₂ hoom ht₂
      rw [if_pos (by decide), bind_assoc]
      apply Triple.unmapOne TRAMPOLINE_eq (by omega)
      intro t₃ ht₃
      rw [bind_assoc]
      apply Triple.uvmfree_bare
      · intro v hv
        rw [ht₃ v hv]
        unfold unmapped
        by_cases hin : UPN + 1 ≤ v ∧ v < UPN + 1 + 1 ∧ Valid (t₂.pte v)
        · rw [if_pos hin]
          decide
        · rw [if_neg hin]
          intro hvalid
          rw [ht₂ v hv, ht₁ v hv] at hvalid
          by_cases htramp : v = UPN + 1
          · apply hin
            rw [ht₂ v hv, ht₁ v hv]
            exact ⟨by omega, by omega, hvalid⟩
          · rw [if_neg htramp, hempty] at hvalid
            exact absurd hvalid (by decide)
      · exact hfail hoom
  · intro t₁ hoom ht₁
    rw [if_pos (by decide), bind_assoc]
    apply Triple.uvmfree_bare
    · intro v hv
      rw [ht₁ v hv, hempty]
      decide
    · exact hfail hoom

/-- `proc_freepagetable` frees the page table and all pages. -/
theorem procFreepagetable_spec {sz : ℕ} (hM : Maps L tf t pa page) (hsz : sz ≤ TRAPFRAME)
    (hbelow : ∀ v, page v ≠ none → v * PGSIZE < sz) :
  Triple L.pool m (isTable pt t * frames pa page) (procFreepagetable L pt sz) (fun _ => 1)
  := by
  have hlt := UPN_lt_NPTE
  have hsum := UPN_add_two
  unfold procFreepagetable
  apply Triple.unmapOne TRAMPOLINE_eq (by omega)
  intro t₁ ht₁
  apply Triple.unmapOne TRAPFRAME_eq (by omega)
  intro t₂ ht₂
  -- what is left are the entries of the pages
  have hkept : ∀ v < NPTE, v ≠ UPN → v ≠ UPN + 1 → t₂.pte v = t.pte v := by
    intro v hv htf htramp
    rw [ht₂ v hv, unmapped, if_neg (by omega), ht₁ v hv, unmapped, if_neg (by omega)]
  have hcleared : ∀ v < NPTE, v = UPN ∨ v = UPN + 1 → ¬ Valid (t₂.pte v) := by
    intro v hv hor hvalid
    rw [ht₂ v hv] at hvalid
    unfold unmapped at hvalid
    by_cases hin : UPN ≤ v ∧ v < UPN + 1 ∧ Valid (t₁.pte v)
    · rw [if_pos hin] at hvalid
      exact absurd hvalid (by decide)
    · rw [if_neg hin] at hvalid
      have hne : v = UPN + 1 := by
        rcases hor with rfl | hor
        · exact absurd ⟨le_refl _, Nat.lt_succ_self _, hvalid⟩ hin
        · exact hor
      rw [ht₁ v hv] at hvalid
      unfold unmapped at hvalid
      by_cases hin' : UPN + 1 ≤ v ∧ v < UPN + 1 + 1 ∧ Valid (t.pte v)
      · rw [if_pos hin'] at hvalid
        exact absurd hvalid (by decide)
      · rw [if_neg hin'] at hvalid
        exact hin' ⟨by omega, by omega, hvalid⟩
  have hP : PagesAt L t₂.pte pa page := by
    refine ⟨?_, ?_, hM.pool⟩
    · intro v pg hpg
      have := hM.bound v pg hpg
      rw [hkept v (by omega) (by omega) (by omega), hM.mapped v pg hpg]
    · intro v hv hnone
      rw [hkept v (by omega) (by omega) (by omega)]
      exact hM.invalid hv hnone
  have hinvalid : ∀ v < NPTE, page v = none → ¬ Valid (t₂.pte v) := by
    intro v hv hnone
    by_cases hor : v = UPN ∨ v = UPN + 1
    · exact hcleared v hv hor
    · push Not at hor
      rw [hkept v hv hor.1 hor.2]
      exact hM.unmapped v hv hor.1 hor.2 hnone
  have hfree : ∀ {t' : PtTree 2}, (∀ v < NPTE, ¬ Valid (t'.pte v)) →
      Triple L.pool m (isTable pt t') (freewalk L 3 pt) (fun _ => 1) :=
    fun h => freewalk_spec (bare_of_pte h) pt
  unfold uvmfree
  by_cases hpos : 0 < sz
  · have hn : PGROUNDUP sz / PGSIZE = (sz + PGSIZE - 1) / PGSIZE := by
      unfold PGROUNDUP
      exact Nat.mul_div_cancel _ (by decide)
    have hcover : ∀ v, v * PGSIZE < sz → v < (sz + PGSIZE - 1) / PGSIZE := by
      intro v hv
      unfold PGSIZE at hv ⊢
      omega
    have hbound : 0 + (sz + PGSIZE - 1) / PGSIZE ≤ UPN := by
      rw [TRAPFRAME_eq] at hsz
      unfold PGSIZE at hsz ⊢
      omega
    have hdrop : dropPages page 0 ((sz + PGSIZE - 1) / PGSIZE) = fun _ => none := by
      funext v
      unfold dropPages
      by_cases hv : page v = none
      · rw [hv, ite_self]
      · rw [if_pos ⟨Nat.zero_le v, by rw [Nat.zero_add]; exact hcover v (hbelow v hv)⟩]
    rw [if_pos hpos, hn, ← mul_one (frames pa page)]
    apply Triple.unmapPages hP (Nat.zero_mul PGSIZE).symm hbound
    intro t₃ ht₃
    rw [hdrop, frames_none, mul_one, mul_one]
    apply hfree
    intro v hv
    rw [ht₃ v hv]
    unfold unmapped
    split_ifs with hin
    · decide
    · intro hvalid
      by_cases hpage : page v = none
      · exact hinvalid v hv hpage hvalid
      · apply hin
        refine ⟨Nat.zero_le v, ?_, hvalid⟩
        rw [Nat.zero_add]
        exact hcover v (hbelow v hpage)
  · have hnone : page = fun _ => none := by
      funext v
      by_contra hv
      have := hbelow v hv
      omega
    rw [if_neg hpos, hnone, frames_none, mul_one]
    apply hfree
    intro v hv
    apply hinvalid v hv
    rw [hnone]

/-- A page table with the trampoline and the trapframe is an address space whose pages are all
promised. -/
theorem procPagetable_spec (L : Link) (m : Prog.Mode) (tf : ℕ) (hS : ∀ v, S.page v = none) :
  Triple L.pool m 1 (procPagetable L tf) (fun r => if r = 0 then fact m.oom else isSpace L r tf S)
  := by
  have hpage : S.page = fun _ => none := funext hS
  rw [← bind_pure (procPagetable L tf)]
  apply Triple.procPagetable
  · intro hoom
    apply Triple.ret
    rw [if_pos rfl, ← mul_one (fact m.oom)]
    exact le_fact_mul hoom (le_refl _)
  · intro r t hne hM
    apply Triple.ret
    rw [if_neg hne, ← mul_one (isSpace L r tf S)]
    have hM' : Maps L tf t (fun _ => 0) S.page := by
      rw [hpage]
      exact hM _
    apply le_trans _ (le_isSpace hM')
    rw [hpage, frames_none, one_mul]

/-! ### A small machine -/

/-- A kernel that ends at one megabyte. -/
def smallLink : Link where
  kend := 0x80100000
  trampoline := 0x80007000
  kernbase_le := by decide
  kend_le := by decide
  trampoline_aligned := by decide
  trampoline_lt := by decide

/-- A memory with eight free pages and nothing in use. -/
def smallStore : Store ℕ PageData where
  cell _ := memset 1
  free := [0x80107000, 0x80106000, 0x80105000, 0x80104000, 0x80103000, 0x80102000, 0x80101000, 0x80100000]

theorem smallStore_has : smallStore.Has smallLink.pool 1 := by
  refine ⟨Heap.empty, rfl, ⟨?_, fun _ _ => rfl, by decide, ?_⟩, fun p hp => absurd rfl hp⟩
  · intro p f hp
    cases hp
  · intro p hp
    rw [Link.mem_pool]
    have hall : ∀ p ∈ smallStore.free, p % PGSIZE = 0 ∧ smallLink.kend ≤ p ∧ p < PHYSTOP := by decide
    exact hall p hp

/-- The small machine with the page table of one process, at `smallTable`. -/
def smallProc : Store ℕ PageData :=
  (((procPagetable smallLink 0).exec smallStore).map Prod.snd).getD smallStore

def smallTable : ℕ := 0x80107000

/-- The process of the small machine may have been promised any memory. -/
theorem smallProc_has (hS : ∀ v, S.page v = none) :
  smallProc.Has smallLink.pool (isSpace smallLink smallTable 0 S * 1)
  := by
  have hresult : ((procPagetable smallLink 0).exec smallStore).map Prod.fst = some smallTable := by
    decide
  have hhas : smallStore.Has smallLink.pool (1 * 1) := by
    rw [mul_one]
    exact smallStore_has
  obtain ⟨r, s, hexec, hs⟩ :=
    (procPagetable_spec smallLink ⟨True, False⟩ 0 hS).returns not_false hhas (Or.inl trivial)
  have hproc : smallProc = s := by
    unfold smallProc
    rw [hexec]
    rfl
  rw [hexec] at hresult
  obtain rfl : r = smallTable := Option.some.inj hresult
  rw [hproc]
  rw [if_neg (by decide : smallTable ≠ 0)] at hs
  exact hs

end Uvm

end Xv6
