import Xv6.Vm.Refused
import Xv6.Vm.Release

/-!
# Copying an address space

The rule for `uvmcopy`: the new page table gets its own copy of every page that is mapped, with
the same flags, or is empty again if memory runs out.  The pages that were promised are passed
over.
-/

namespace Xv6.Uvm

open Assertion PtTree Function

variable {L : Link} {m : Prog.Mode} {α : Type} {A : Assertion ℕ PageData}
  {C : α → Assertion ℕ PageData} {pt np tf tfn sz k : ℕ} {t tn : PtTree 2} {pa pan : ℕ → ℕ}
  {page : ℕ → Option Page} {pg : Page}

/-- The first `k` pages. -/
def upTo (page : ℕ → Option Page) (k : ℕ) : ℕ → Option Page := fun v => if v < k then page v else none

theorem upTo_zero (page : ℕ → Option Page) : upTo page 0 = fun _ => none := rfl

theorem upTo_succ_none (h : page k = none) : upTo page (k + 1) = upTo page k := by
  funext v
  unfold upTo
  by_cases hv : v = k
  · subst hv
    rw [if_neg (lt_irrefl v), if_pos (Nat.lt_succ_self v), h]
  · have hiff : v < k + 1 ↔ v < k := by omega
    simp only [hiff]

theorem upTo_succ_some (h : page k = some pg) :
  upTo page (k + 1) = update (upTo page k) k (some pg)
  := by
  funext v
  unfold upTo
  by_cases hv : v = k
  · subst hv
    rw [update_self, if_pos (Nat.lt_succ_self v), h]
  · have hiff : v < k + 1 ↔ v < k := by omega
    rw [update_of_ne hv]
    simp only [hiff]

/-- Every page has been looked at. -/
theorem upTo_all (hbelow : ∀ v, page v ≠ none → v * PGSIZE < sz) (hk : ¬ k * PGSIZE < sz) :
  upTo page k = page
  := by
  funext v
  unfold upTo
  by_cases hv : v < k
  · rw [if_pos hv]
  · rw [if_neg hv]
    by_contra hpg
    have := hbelow v fun h => hpg h.symm
    unfold PGSIZE at this hk
    omega

theorem dropPages_upTo : dropPages (upTo page k) 0 k = fun _ => none := by
  funext v
  unfold dropPages upTo
  by_cases hv : v < k
  · rw [if_pos ⟨Nat.zero_le v, by omega⟩]
  · rw [if_neg hv, ite_self]

theorem or_PTE_V {w : Word} (h : Valid w) : w ||| PTE_V = w := by
  apply BitVec.eq_of_getLsbD_eq
  intro i hi
  rw [BitVec.getLsbD_or]
  by_cases hzero : i = 0
  · subst hzero
    have hbit : w.getLsbD 0 = true := by
      by_contra hbit
      apply h
      apply BitVec.eq_of_getLsbD_eq
      intro j hj
      rw [BitVec.getLsbD_and]
      by_cases hj0 : j = 0
      · subst hj0
        simpa using hbit
      · simp [BitVec.getLsbD_one, hj0]
    rw [hbit, Bool.true_or]
  · simp [BitVec.getLsbD_one, hzero]

variable {d : ℤ → Vm α}

/-- The way out of `uvmcopy`: what has been copied is freed. -/
theorem Triple.uvmcopy_err {va : ℕ} (hN : Maps L tfn tn pan (upTo page k))
    (hva : va = k * PGSIZE) (hk : k ≤ UPN)
    (hfail : ∀ tn' : PtTree 2, Maps L tfn tn' pan (fun _ => none) →
    Triple L.pool m (isTable np tn' * A) (d (-1)) C) :
  Triple L.pool m (isTable np tn * (frames pan (upTo page k) * A))
    ((do
      uvmunmap L np 0 (va / PGSIZE) true
      return -1) >>= d) C
  := by
  have hdiv : va / PGSIZE = k := by
    rw [hva]
    exact Nat.mul_div_cancel k (by decide)
  rw [hdiv, bind_assoc]
  apply Triple.unmapPages hN.pagesAt (Nat.zero_mul PGSIZE).symm (by omega)
  intro tn' htn'
  have hN' := hN.drop (by omega) htn'
  rw [dropPages_upTo] at hN' ⊢
  rw [frames_none, one_mul]
  exact hfail tn' hN'

/-- A page is copied to a new page, and the new page is mapped. -/
theorem Triple.copyPage {va mem : ℕ} (hN : Maps L tfn tn pan (upTo page k))
    (hpg : page k = some pg) (hva : va = k * PGSIZE) (hk : k < UPN) (hmem : mem ∈ L.pool)
    (hok : ∀ tn' : PtTree 2, Maps L tfn tn' (update pan k mem) (upTo page (k + 1)) → Triple L.pool m
    (isTable np tn' * (frames (update pan k mem) (upTo page (k + 1)) * A)) (d 0) C)
    (hfail : ∀ tn' : PtTree 2, m.oom → Maps L tfn tn' pan (upTo page k) →
    Triple L.pool m (single mem pg.data * (isTable np tn' * (frames pan (upTo page k) * A)))
    (d (-1)) C) :
  Triple L.pool m (single mem pg.data * (isTable np tn * (frames pan (upTo page k) * A)))
    (mappages np va PGSIZE mem pg.flags >>= d) C
  := by
  have hnone : upTo page k k = none := if_neg (lt_irrefl k)
  rw [mul_left_comm]
  apply Triple.mappages hva (by rw [← UPN_add_two]; omega)
  · exact fun _ => hN.invalid hk hnone
  · intro tn' _ htn'
    have hentry : ∀ u < NPTE, tn'.pte u = if u = k then PA2PTE mem ||| pg.flags else tn.pte u := by
      intro u hu
      rw [htn' u hu, BitVec.or_assoc, or_PTE_V pg.valid]
    have hN' := hN.map hk hmem hentry
    have hframes : single mem pg.data * (frames pan (upTo page k) * A)
        = frames (update pan k mem) (upTo page (k + 1)) * A := by
      rw [upTo_succ_some hpg, frames_update hk, frames_focus hk, hnone, frame, one_mul, mul_assoc]
    rw [← upTo_succ_some hpg] at hN'
    rw [hframes]
    exact hok tn' hN'
  · intro tn' hoom htn'
    rw [mul_left_comm]
    exact hfail tn' hoom (hN.congr htn')

theorem Triple.copyLoop {n : ℕ} (hM : Maps L tf t pa page) (hsz : sz ≤ TRAPFRAME)
    (hbelow : ∀ v, page v ≠ none → v * PGSIZE < sz) (hn : k + n = PGROUNDUP sz / PGSIZE)
    (hN : Maps L tfn tn pan (upTo page k))
    (hok : ∀ (tn' : PtTree 2) (pan' : ℕ → ℕ), Maps L tfn tn' pan' page →
    Triple L.pool m (isTable np tn' * (frames pan' page * (isTable pt t * (frames pa page * A))))
    (d 0) C)
    (hfail : ∀ (tn' : PtTree 2) (pan' : ℕ → ℕ), m.oom → Maps L tfn tn' pan' (fun _ => none) →
    Triple L.pool m (isTable np tn' * (isTable pt t * (frames pa page * A))) (d (-1)) C) :
  Triple L.pool m
    (isTable np tn * (frames pan (upTo page k) * (isTable pt t * (frames pa page * A))))
    (copyLoop L pt np sz n (k * PGSIZE) >>= d) C
  := by
  have hround : PGROUNDUP sz / PGSIZE = (sz + PGSIZE - 1) / PGSIZE := by
    unfold PGROUNDUP
    exact Nat.mul_div_cancel _ (by decide)
  rw [hround] at hn
  -- the old page table in front, and the page that is copied in front
  have hold : ∀ B D : Assertion ℕ PageData, B * (D * (isTable pt t * (frames pa page * A)))
      = isTable pt t * (B * (D * (frames pa page * A))) := by
    intros
    ac_rfl
  have hsource : ∀ {k pg}, page k = some pg → ∀ B D E : Assertion ℕ PageData,
      B * (D * (E * (isTable pt t * (frames pa page * A))))
        = single (pa k) pg.data * (B * (D * (E * (isTable pt t * (others pa page k * A))))) := by
    intro k pg hpg B D E
    rw [frames_some (hM.bound k pg hpg) hpg]
    ac_rfl
  induction n generalizing k tn pan with
  | zero =>
    have hge : ¬ k * PGSIZE < sz := by
      unfold PGSIZE at hn ⊢
      omega
    unfold Uvm.copyLoop
    rw [if_neg hge]
    rw [upTo_all hbelow hge] at hN ⊢
    exact hok tn pan hN
  | succ n ih =>
    have hlt : k * PGSIZE < sz := by
      unfold PGSIZE at hn ⊢
      omega
    have hk : k < UPN := lt_UPN_iff.mp (lt_of_lt_of_le hlt hsz)
    have hva : k * PGSIZE < MAXVA := by
      apply lt_MAXVA_iff.mpr
      rw [← UPN_add_two]
      omega
    have hnext : (k * PGSIZE + PGSIZE) % 2 ^ 64 = (k + 1) * PGSIZE := by
      unfold MAXVA PGSIZE at hva
      unfold PGSIZE
      omega
    have hrest : ∀ {tn' : PtTree 2} {pan' : ℕ → ℕ}, Maps L tfn tn' pan' (upTo page (k + 1)) →
        Triple L.pool m
          (isTable np tn' * (frames pan' (upTo page (k + 1)) * (isTable pt t * (frames pa page * A))))
          (Uvm.copyLoop L pt np sz n ((k + 1) * PGSIZE) >>= d) C :=
      fun hN' => ih (by omega) hN'
    -- the entry that `walk` finds is the one of the page
    have hpte : t.entry (k * PGSIZE) = t.pte k := rfl
    unfold Uvm.copyLoop
    rw [if_pos hlt, hnext, bind_assoc]
    cases hpg : page k with
    | none =>
      have hinvalid := hM.invalid hk hpg
      have hsame := upTo_succ_none hpg
      have hskip : Triple L.pool m
          (isTable np tn * (frames pan (upTo page k) * (isTable pt t * (frames pa page * A))))
          (Uvm.copyLoop L pt np sz n ((k + 1) * PGSIZE) >>= d) C := by
        rw [← hsame] at hN ⊢
        exact hrest hN
      rw [hold] at hskip ⊢
      apply Triple.walk (fun _ => hva)
      · intro t' q _ hw hq
        obtain rfl := hw.same rfl
        rw [bind_assoc]
        apply Triple.readPte hq
        rw [hpte, if_pos (not_not.mp hinvalid)]
        exact hskip
      · intro t' _ hw _
        obtain rfl := hw.same rfl
        exact hskip
    | some pg =>
      have hentry : t.entry (k * PGSIZE) = PA2PTE (pa k) ||| pg.flags := hM.mapped k pg hpg
      rw [hold]
      apply Triple.walk (fun _ => hva)
      · intro t' q _ hw hq
        obtain rfl := hw.same rfl
        rw [bind_assoc]
        apply Triple.readPte hq
        rw [hentry, if_neg (pg.entry_valid _), PTE_FLAGS_or pg.isFlags,
          Link.PTE2PA_or (hM.pool k pg hpg) pg.isFlags, ← hold, bind_assoc]
        apply Triple.kalloc
        · intro hoom
          apply Triple.uvmcopy_err hN rfl hk.le
          exact fun tn' hN' => hfail tn' pan hoom hN'
        · intro mem hmem
          rw [bind_assoc, hsource hpg]
          apply Triple.read
          rw [← hsource hpg, bind_assoc]
          apply Triple.write
          rw [bind_assoc]
          apply Triple.copyPage hN hpg rfl hk hmem
          · intro tn' hN'
            rw [if_neg (by decide)]
            exact hrest hN'
          · intro tn' hoom hN'
            rw [if_pos (by decide), bind_assoc]
            apply Triple.kfree
            apply Triple.uvmcopy_err hN' rfl hk.le
            exact fun tn'' hN'' => hfail tn'' pan hoom hN''
      · intro t' _ hw hzero
        rw [hentry] at hzero
        exact absurd hzero (pg.entry_ne_zero _)

theorem Triple.uvmcopy (hM : Maps L tf t pa page) (hsz : sz ≤ TRAPFRAME)
    (hbelow : ∀ v, page v ≠ none → v * PGSIZE < sz) (hN : Maps L tfn tn pan (fun _ => none))
    (hok : ∀ (tn' : PtTree 2) (pan' : ℕ → ℕ), Maps L tfn tn' pan' page →
    Triple L.pool m (isTable np tn' * (frames pan' page * (isTable pt t * (frames pa page * A))))
    (d 0) C)
    (hfail : ∀ (tn' : PtTree 2) (pan' : ℕ → ℕ), m.oom → Maps L tfn tn' pan' (fun _ => none) →
    Triple L.pool m (isTable np tn' * (isTable pt t * (frames pa page * A))) (d (-1)) C) :
  Triple L.pool m (isTable np tn * (isTable pt t * (frames pa page * A)))
    (uvmcopy L pt np sz >>= d) C
  := by
  have hpre : isTable np tn * (isTable pt t * (frames pa page * A))
      = isTable np tn * (frames pan (upTo page 0) * (isTable pt t * (frames pa page * A))) := by
    rw [upTo_zero, frames_none, one_mul]
  have hzero : (0 : ℕ) = 0 * PGSIZE := (Nat.zero_mul PGSIZE).symm
  unfold Uvm.uvmcopy
  rw [hpre, hzero]
  exact Triple.copyLoop hM hsz hbelow (Nat.zero_add _) hN hok hfail

end Xv6.Uvm
