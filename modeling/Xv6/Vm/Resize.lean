import Xv6.Vm.Release

/-!
# Growing and shrinking an address space

The rules for `uvmalloc`, `uvmdealloc`, `growproc` and `sys_sbrk`.  Growing eagerly maps pages
of zeros, growing lazily only changes the size, and shrinking unmaps the pages that lie wholly
above the new size.
-/

namespace Xv6.Uvm

open Assertion PtTree Function

variable {L : Link} {m : Prog.Mode} {α : Type} {A : Assertion ℕ PageData}
  {C : α → Assertion ℕ PageData} {pt tf oldsz newsz k n v : ℕ} {t t' : PtTree 2} {pa : ℕ → ℕ}
  {page : ℕ → Option Page}

/-- The number of pages that a size takes. -/
def npages (sz : ℕ) : ℕ := (sz + PGSIZE - 1) / PGSIZE

theorem PGROUNDUP_eq (sz : ℕ) : PGROUNDUP sz = npages sz * PGSIZE := rfl

theorem lt_npages_iff {v sz : ℕ} : v < npages sz ↔ v * PGSIZE < sz := by
  unfold npages PGSIZE
  omega

theorem npages_le_UPN {sz : ℕ} (h : sz ≤ TRAPFRAME) : npages sz ≤ UPN := by
  rw [TRAPFRAME_eq] at h
  unfold npages PGSIZE at *
  omega

/-! ### `uvmdealloc` -/

variable {d : ℕ → Vm α} {r : ℤ × ProcMem} {xperm : Word} {pg : Page}

/-- `uvmdealloc` unmaps the pages that lie wholly above the new size. -/
theorem Triple.uvmdealloc (hM : Maps L tf t pa page) (hold : oldsz ≤ TRAPFRAME)
    (hsame : oldsz ≤ newsz → Triple L.pool m (isTable pt t * (frames pa page * A)) (d oldsz) C)
    (hdrop : ∀ t' : PtTree 2, newsz < oldsz →
    Maps L tf t' pa (dropPages page (npages newsz) (npages oldsz - npages newsz)) →
    Triple L.pool m (isTable pt t'
    * (frames pa (dropPages page (npages newsz) (npages oldsz - npages newsz)) * A)) (d newsz) C) :
  Triple L.pool m (isTable pt t * (frames pa page * A)) (uvmdealloc L pt oldsz newsz >>= d) C
  := by
  have hbound := npages_le_UPN hold
  unfold Uvm.uvmdealloc
  by_cases hle : oldsz ≤ newsz
  · rw [if_pos hle]
    exact hsame hle
  have hlt := Nat.lt_of_not_le hle
  have hcount : (PGROUNDUP oldsz - PGROUNDUP newsz) / PGSIZE = npages oldsz - npages newsz := by
    rw [PGROUNDUP_eq, PGROUNDUP_eq, ← Nat.sub_mul, Nat.mul_div_cancel _ (by decide)]
  have hround : PGROUNDUP newsz < PGROUNDUP oldsz ↔ npages newsz < npages oldsz := by
    rw [PGROUNDUP_eq, PGROUNDUP_eq]
    exact Nat.mul_lt_mul_right (by decide)
  rw [if_neg hle]
  by_cases hpages : npages newsz < npages oldsz
  · rw [if_pos (hround.mpr hpages), bind_assoc, hcount]
    apply Triple.unmapPages hM.pagesAt (PGROUNDUP_eq newsz) (by omega)
    intro t' ht'
    exact hdrop t' hlt (hM.drop (by omega) ht')
  · rw [if_neg (mt hround.mp hpages)]
    have hempty : dropPages page (npages newsz) (npages oldsz - npages newsz) = page := by
      funext v
      exact if_neg (by omega)
    have hd := hdrop t hlt (by rw [hempty]; exact hM)
    rwa [hempty] at hd

/-! ### `uvmalloc` -/

/-- A page of zeros that can be read and accessed by users, with further permissions. -/
def freshPage (xperm : Word) (hx : IsFlags xperm) : Page where
  flags := PTE_R ||| PTE_U ||| xperm ||| PTE_V
  data := memset 0
  isFlags := by
    apply IsFlags.or
    · apply IsFlags.or
      · unfold IsFlags
        decide
      · exact hx
    · unfold IsFlags
      decide
  valid := by
    intro hzero
    have hbit := congrArg (fun w : Word => w.getLsbD 0) hzero
    simp at hbit

/-- The pages after those of a range have been mapped to pages of zeros. -/
def growPages (page : ℕ → Option Page) (v k : ℕ) (pg : Page) : ℕ → Option Page :=
  fun u => if v ≤ u ∧ u < v + k then some pg else page u

theorem growPages_zero (page : ℕ → Option Page) (v : ℕ) (pg : Page) : growPages page v 0 pg = page := by
  funext u
  exact if_neg (by omega)

theorem growPages_succ (page : ℕ → Option Page) (v k : ℕ) (pg : Page) :
  growPages page v (k + 1) pg = update (growPages page v k pg) (v + k) (some pg)
  := by
  funext u
  unfold growPages
  by_cases hu : u = v + k
  · subst hu
    rw [update_self, if_pos (by omega)]
  · rw [update_of_ne hu]
    by_cases hin : v ≤ u ∧ u < v + k
    · rw [if_pos hin, if_pos (by omega)]
    · rw [if_neg hin, if_neg (by omega)]

/-- Unmapping the pages again. -/
theorem dropPages_growPages (hnone : ∀ u, v ≤ u → page u = none) (k : ℕ) :
  dropPages (growPages page v k pg) v k = page
  := by
  funext u
  unfold dropPages growPages
  by_cases hin : v ≤ u ∧ u < v + k
  · rw [if_pos hin, hnone u hin.1]
  · rw [if_neg hin, if_neg hin]

/-- The way out of `uvmalloc`: what has been mapped is unmapped. -/
theorem Triple.uvmalloc_err
    (hM : Maps L tf t pa (growPages page v k pg)) (hnone : ∀ u, v ≤ u → page u = none)
    (hk : v + k ≤ UPN) (hfail : ∀ (t' : PtTree 2), Maps L tf t' pa page →
    Triple L.pool m (isTable pt t' * (frames pa page * A)) (d 0) C) :
  Triple L.pool m (isTable pt t * (frames pa (growPages page v k pg) * A))
    ((do
      let _ ← Uvm.uvmdealloc L pt ((v + k) * PGSIZE) (v * PGSIZE)
      return 0) >>= d) C
  := by
  have hnpages : ∀ u, npages (u * PGSIZE) = u := by
    intro u
    unfold npages PGSIZE
    omega
  have hold : (v + k) * PGSIZE ≤ TRAPFRAME := by
    rw [TRAPFRAME_eq]
    exact Nat.mul_le_mul_right _ hk
  rw [bind_assoc]
  apply Triple.uvmdealloc hM hold
  · intro hle
    have hzero : k = 0 := by
      unfold PGSIZE at hle
      omega
    subst hzero
    rw [growPages_zero] at hM ⊢
    exact hfail t hM
  · intro t' _ hM'
    rw [hnpages, hnpages, Nat.add_sub_cancel_left, dropPages_growPages hnone] at hM' ⊢
    exact hfail t' hM'

theorem Triple.allocLoop (hx : IsFlags xperm)
    (hM : Maps L tf t pa (growPages page v k (freshPage xperm hx)))
    (hnone : ∀ u, v ≤ u → page u = none) (hnew : newsz ≤ TRAPFRAME) (hn : v + k + n = npages newsz)
    (hok : ∀ (t' : PtTree 2) (pa' : ℕ → ℕ),
    Maps L tf t' pa' (growPages page v (npages newsz - v) (freshPage xperm hx)) → Triple L.pool m
    (isTable pt t' * (frames pa' (growPages page v (npages newsz - v) (freshPage xperm hx)) * A))
    (d newsz) C) (hfail : ∀ t' : PtTree 2, m.oom → Maps L tf t' pa page →
    Triple L.pool m (isTable pt t' * (frames pa page * A)) (d 0) C) :
  Triple L.pool m
    (isTable pt t * (frames pa (growPages page v k (freshPage xperm hx)) * A))
    (allocLoop L pt (v * PGSIZE) newsz xperm n ((v + k) * PGSIZE) >>= d) C
  := by
  have hbound := npages_le_UPN hnew
  induction n generalizing k t pa with
  | zero =>
    have hge : ¬ (v + k) * PGSIZE < newsz := by
      rw [← lt_npages_iff]
      omega
    have hk : npages newsz - v = k := by omega
    unfold Uvm.allocLoop
    rw [if_neg hge]
    rw [hk] at hok
    exact hok t pa hM
  | succ n ih =>
    have hlt : (v + k) * PGSIZE < newsz := by
      rw [← lt_npages_iff]
      omega
    have hv : v + k < UPN := by omega
    have hpage : growPages page v k (freshPage xperm hx) (v + k) = none := by
      unfold growPages
      rw [if_neg (by omega)]
      exact hnone _ (by omega)
    have hnext : ((v + k) * PGSIZE + PGSIZE) % 2 ^ 64 = (v + (k + 1)) * PGSIZE := by
      unfold TRAPFRAME TRAMPOLINE MAXVA PGSIZE at hnew
      unfold PGSIZE at hlt ⊢
      omega
    unfold Uvm.allocLoop
    rw [if_pos hlt, bind_assoc]
    apply Triple.kalloc
    · intro hoom
      exact Triple.uvmalloc_err hM hnone hv.le fun t' hM' => hfail t' hoom hM'
    · intro mem hmem
      rw [bind_assoc]
      apply Triple.write
      rw [bind_assoc, mul_left_comm]
      apply Triple.mappages rfl (by rw [← UPN_add_two]; omega)
      · exact fun _ => hM.invalid hv hpage
      · intro t' _ ht'
        have hM' : Maps L tf t' (update pa (v + k) mem)
            (growPages page v (k + 1) (freshPage xperm hx)) := by
          rw [growPages_succ]
          apply hM.map hv hmem
          intro u hu
          rw [ht' u hu, BitVec.or_assoc]
          rfl
        have hframes : single mem (memset 0)
            * (frames pa (growPages page v k (freshPage xperm hx)) * A)
            = frames (update pa (v + k) mem)
                (growPages page v (k + 1) (freshPage xperm hx)) * A := by
          rw [growPages_succ, frames_update hv, frames_focus hv, hpage, frame, one_mul, ← mul_assoc]
          rfl
        rw [if_neg (by decide), hframes, hnext]
        apply ih hM' (by omega)
        intro t'' hoom hM''
        obtain ⟨hM₀, hframes⟩ : Maps L tf t'' pa page ∧ _ = frames pa page := by
          apply hM''.move
          intro u hu
          apply update_of_ne
          rintro rfl
          exact hu (hnone _ (by omega))
        rw [hframes]
        exact hfail t'' hoom hM₀
      · intro t' hoom ht'
        rw [if_pos (by decide), bind_assoc, mul_left_comm]
        apply Triple.kfree
        exact Triple.uvmalloc_err (hM.congr ht') hnone hv.le fun t' hM' => hfail t' hoom hM'

/-- `uvmalloc` maps pages of zeros up to the new size, unless it is refused memory. -/
theorem Triple.uvmalloc (hx : IsFlags xperm) (hM : Maps L tf t pa page)
    (hbelow : ∀ v, page v ≠ none → v * PGSIZE < oldsz) (hle : oldsz ≤ newsz) (hnew : newsz ≤ TRAPFRAME)
    (hok : ∀ (t' : PtTree 2) (pa' : ℕ → ℕ), Maps L tf t' pa'
    (growPages page (npages oldsz) (npages newsz - npages oldsz) (freshPage xperm hx)) →
    Triple L.pool m (isTable pt t' * (frames pa'
    (growPages page (npages oldsz) (npages newsz - npages oldsz) (freshPage xperm hx)) * A))
    (d newsz) C) (hfail : ∀ t' : PtTree 2, m.oom → Maps L tf t' pa page →
    Triple L.pool m (isTable pt t' * (frames pa page * A)) (d 0) C) :
  Triple L.pool m (isTable pt t * (frames pa page * A)) (uvmalloc L pt oldsz newsz xperm >>= d) C
  := by
  have hpages : npages oldsz ≤ npages newsz := by
    unfold npages
    exact Nat.div_le_div_right (by omega)
  have hnone : ∀ u, npages oldsz ≤ u → page u = none := by
    intro u hu
    by_contra hpg
    have := lt_npages_iff.mpr (hbelow u hpg)
    omega
  have hcount : (PGROUNDUP newsz - PGROUNDUP oldsz) / PGSIZE = npages newsz - npages oldsz := by
    rw [PGROUNDUP_eq, PGROUNDUP_eq, ← Nat.sub_mul, Nat.mul_div_cancel _ (by decide)]
  unfold Uvm.uvmalloc
  rw [if_neg (Nat.not_lt_of_le hle), hcount, PGROUNDUP_eq]
  rw [← growPages_zero page (npages oldsz) (freshPage xperm hx)] at hM ⊢
  exact Triple.allocLoop hx hM hnone hnew (by omega) hok hfail

/-! ### `sbrk` -/

namespace Space

/-- The address space with a smaller size. -/
def shrink (S : Space) (newsz : ℕ) (h : newsz ≤ S.sz) : Space where
  sz := newsz
  page := dropPages S.page (npages newsz) (npages S.sz - npages newsz)
  sz_le := h.trans S.sz_le
  below v hv := by
    unfold dropPages at hv
    split_ifs at hv with hin
    · exact absurd rfl hv
    · have := lt_npages_iff.mpr (S.below v hv)
      apply lt_npages_iff.mp
      omega

/-- The address space with a larger size, whose new pages are mapped. -/
def grow (S : Space) (newsz : ℕ) (pg : Page) (h : S.sz ≤ newsz) (hle : newsz ≤ TRAPFRAME) : Space where
  sz := newsz
  page := growPages S.page (npages S.sz) (npages newsz - npages S.sz) pg
  sz_le := hle
  below v hv := by
    unfold growPages at hv
    split_ifs at hv with hin
    · apply lt_npages_iff.mp
      omega
    · exact lt_of_lt_of_le (S.below v hv) h

/-- The address space with a larger size, whose new pages are promised. -/
def promise (S : Space) (newsz : ℕ) (h : S.sz ≤ newsz) (hle : newsz ≤ TRAPFRAME) : Space where
  sz := newsz
  page := S.page
  sz_le := hle
  below v hv := lt_of_lt_of_le (S.below v hv) h

theorem sz_lt (S : Space) : S.sz < 2 ^ 38 := by
  have hsz := S.sz_le
  unfold TRAPFRAME TRAMPOLINE MAXVA PGSIZE at hsz
  omega

theorem isFlags_W : IsFlags PTE_W := by
  unfold IsFlags
  decide

/-- What `sbrk` returns and does, if there is memory for it. -/
def sbrk (S : Space) (n t : ℤ) : ℤ × Space :=
  if hn : n < 0 then
    if h : S.sz + n < 0 then (S.sz, S)
    else (S.sz, S.shrink (S.sz + n).toNat (by omega))
  else if h : S.sz + n.toNat ≤ TRAPFRAME then
    if t = SBRK_EAGER then
      (S.sz, S.grow (S.sz + n.toNat) (freshPage PTE_W isFlags_W) (Nat.le_add_right _ _) h)
    else (S.sz, S.promise (S.sz + n.toNat) (Nat.le_add_right _ _) h)
  else (-1, S)

end Space

section

variable {S : Space} {p : ProcMem} {d : ℤ × ProcMem → Vm α}

/-- Shrinking; a size below zero wraps around, and then nothing is done. -/
theorem Triple.growproc_neg {n : ℤ} (hM : Maps L tf t pa S.page) (hn : n < 0) (hn' : -2 ^ 31 ≤ n)
    (hwrap : S.sz + n < 0 → Triple L.pool m (isTable pt t * (frames pa S.page * A)) (d (0, ⟨pt, S.sz⟩)) C)
    (hshrink : ∀ (t' : PtTree 2) (h : (S.sz + n).toNat ≤ S.sz), ¬ (S.sz + n < 0) →
      Maps L tf t' pa (S.shrink (S.sz + n).toNat h).page →
      Triple L.pool m (isTable pt t' * (frames pa (S.shrink (S.sz + n).toNat h).page * A))
        (d (0, ⟨pt, (S.sz + n).toNat⟩)) C) :
  Triple L.pool m (isTable pt t * (frames pa S.page * A)) (growproc L ⟨pt, S.sz⟩ n >>= d) C
  := by
  have hsz := S.sz_le
  have hbig := S.sz_lt
  unfold growproc
  rw [if_neg (by omega), if_pos hn, bind_assoc]
  apply Triple.uvmdealloc hM hsz
  · intro hle
    apply hwrap
    simp only at hle
    omega
  · intro t' hlt hM'
    simp only at hlt hM' ⊢
    have hpos : ¬ (S.sz + n < 0) := by omega
    have hmod : ((S.sz + n) % 2 ^ 64).toNat = (S.sz + n).toNat := by omega
    rw [hmod] at hM' ⊢
    exact hshrink t' (by omega) hpos hM'

/-- Growing, with the new pages mapped. -/
theorem Triple.growproc_pos {n : ℤ} (hM : Maps L tf t pa S.page) (hn : 0 < n) (hn' : n < 2 ^ 31)
    (hlimit : ¬ S.sz + n.toNat ≤ TRAPFRAME →
      Triple L.pool m (isTable pt t * (frames pa S.page * A)) (d (-1, ⟨pt, S.sz⟩)) C)
    (hgrow : ∀ (t' : PtTree 2) (pa' : ℕ → ℕ) (h : S.sz + n.toNat ≤ TRAPFRAME),
      Maps L tf t' pa' (S.grow (S.sz + n.toNat) (freshPage PTE_W Space.isFlags_W) (Nat.le_add_right _ _) h).page →
      Triple L.pool m (isTable pt t' * (frames pa'
        (S.grow (S.sz + n.toNat) (freshPage PTE_W Space.isFlags_W) (Nat.le_add_right _ _) h).page * A))
        (d (0, ⟨pt, S.sz + n.toNat⟩)) C)
    (hfail : ∀ t' : PtTree 2, m.oom → Maps L tf t' pa S.page →
      Triple L.pool m (isTable pt t' * (frames pa S.page * A)) (d (-1, ⟨pt, S.sz⟩)) C) :
  Triple L.pool m (isTable pt t * (frames pa S.page * A)) (growproc L ⟨pt, S.sz⟩ n >>= d) C
  := by
  have hsz := S.sz_le
  have hbig := S.sz_lt
  have hmod : (S.sz + n.toNat) % 2 ^ 64 = S.sz + n.toNat := by omega
  unfold growproc
  rw [if_pos hn]
  simp only [hmod]
  by_cases hle : S.sz + n.toNat ≤ TRAPFRAME
  · rw [if_neg (Nat.not_lt_of_le hle), bind_assoc]
    apply Triple.uvmalloc Space.isFlags_W hM S.below (Nat.le_add_right _ _) hle
    · intro t' pa' hM'
      rw [if_neg (by omega)]
      exact hgrow t' pa' hle hM'
    · intro t' hoom hM'
      rw [if_pos rfl]
      exact hfail t' hoom hM'
  · rw [if_pos (Nat.lt_of_not_le hle)]
    exact hlimit hle

end

/-- What `sbrk` has done: what it does when there is memory, or nothing. -/
structure Resized (oom : Prop) (S S' : Space) (pt : ℕ) (n t : ℤ) (r : ℤ × ProcMem) : Prop where
  result : (r.1, S') = S.sbrk n t ∨ r.1 = -1 ∧ S' = S ∧ oom
  mem : r.2 = ⟨pt, S'.sz⟩

/-- The memory that `sbrk` leaves; when it fails, the pages are where they were. -/
def leaves (L : Link) (pt tf : ℕ) (pa : ℕ → ℕ) (r : ℤ × ProcMem) (S' : Space) : Assertion ℕ PageData :=
  if r.1 = -1 then ex fun t : PtTree 2 => fact (Maps L tf t pa S'.page) * (isTable pt t * frames pa S'.page)
  else isSpace L pt tf S'

theorem Triple.ret_sbrk {S S' : Space} {pa' : ℕ → ℕ} {n s : ℤ}
    (hM : Maps L tf t pa' S'.page) (hpa : r.1 = -1 → pa' = pa) (h : Resized m.oom S S' pt n s r) :
  Triple L.pool m (isTable pt t * (frames pa' S'.page * 1)) (Prog.ret r)
    (fun r => ex fun S' => fact (Resized m.oom S S' pt n s r) * leaves L pt tf pa r S')
  := by
  apply Triple.ret
  apply le_ex S'
  apply le_fact_mul h
  unfold leaves
  split_ifs with hfail
  · obtain rfl := hpa hfail
    apply le_ex t
    rw [mul_one]
    exact le_fact_mul hM (le_refl _)
  · rw [← mul_one (isSpace L pt tf S')]
    exact le_isSpace hM

theorem leaves_le {S' : Space} : leaves L pt tf pa r S' ≤ isSpace L pt tf S'
  := by
  unfold leaves
  split_ifs
  · rintro h ⟨t, ht⟩
    exact ⟨t, pa, ht⟩
  · exact le_refl _

theorem Triple.sysSbrk {S : Space} {n : ℤ} (s : ℤ) (hn : -2 ^ 31 ≤ n ∧ n < 2 ^ 31)
    (hM : Maps L tf t pa S.page) :
  Triple L.pool m (isTable pt t * (frames pa S.page * 1)) (sysSbrk L ⟨pt, S.sz⟩ n s)
    (fun r => ex fun S' => fact (Resized m.oom S S' pt n s r) * leaves L pt tf pa r S')
  := by
  have hsz := S.sz_le
  have hbig := S.sz_lt
  unfold Uvm.sysSbrk
  by_cases hneg : n < 0
  · rw [if_pos (Or.inr hneg)]
    apply Triple.growproc_neg hM hneg hn.1
    · intro hwrap
      rw [if_neg (lt_irrefl (0 : ℤ))]
      apply Triple.ret_sbrk hM (fun _ => rfl)
      refine ⟨Or.inl ?_, rfl⟩
      rw [Space.sbrk, dif_pos hneg, dif_pos hwrap]
    · intro t' h hpos hM'
      rw [if_neg (lt_irrefl (0 : ℤ))]
      apply Triple.ret_sbrk hM' (fun _ => rfl)
      refine ⟨Or.inl ?_, rfl⟩
      rw [Space.sbrk, dif_pos hneg, dif_neg hpos]
  · by_cases heager : s = SBRK_EAGER
    · rw [if_pos (Or.inl heager)]
      have hbrk : S.sz + n.toNat ≤ TRAPFRAME → ∃ h, S.sbrk n s
          = ((S.sz : ℤ), S.grow (S.sz + n.toNat) (freshPage PTE_W Space.isFlags_W)
            (Nat.le_add_right _ _) h) := by
        intro hle
        refine ⟨hle, ?_⟩
        rw [Space.sbrk, dif_neg hneg, dif_pos hle, if_pos heager]
      by_cases hzero : n = 0
      · subst hzero
        -- growing by nothing maps nothing
        have hsame : S.grow (S.sz + (0 : ℤ).toNat) (freshPage PTE_W Space.isFlags_W)
            (Nat.le_add_right _ _) hsz = S := by
          unfold Space.grow
          simp [growPages_zero]
        rw [growproc, if_neg (lt_irrefl 0), if_neg (lt_irrefl 0)]
        apply Triple.ret_sbrk hM (fun _ => rfl)
        refine ⟨Or.inl ?_, rfl⟩
        obtain ⟨h, heq⟩ := hbrk hsz
        rw [heq, hsame]
      · apply Triple.growproc_pos hM (by omega) hn.2
        · intro hlimit
          rw [if_pos (by decide : (-1 : ℤ) < 0)]
          apply Triple.ret_sbrk hM (fun _ => rfl)
          refine ⟨Or.inl ?_, rfl⟩
          rw [Space.sbrk, dif_neg hneg, dif_neg hlimit]
        · intro t' pa' h hM'
          rw [if_neg (lt_irrefl (0 : ℤ))]
          apply Triple.ret_sbrk hM' (fun h => absurd h (by dsimp only; omega))
          refine ⟨Or.inl ?_, rfl⟩
          obtain ⟨_, heq⟩ := hbrk h
          exact heq.symm
        · intro t' hoom hM'
          rw [if_pos (by decide : (-1 : ℤ) < 0)]
          apply Triple.ret_sbrk hM' (fun _ => rfl)
          exact ⟨Or.inr ⟨rfl, rfl, hoom⟩, rfl⟩
    · have hmod : (S.sz + n.toNat) % 2 ^ 64 = S.sz + n.toNat := by omega
      rw [if_neg (by tauto), hmod, if_neg (Nat.not_lt_of_le (Nat.le_add_right _ _))]
      by_cases hle : S.sz + n.toNat ≤ TRAPFRAME
      · have hM' : Maps L tf t pa (S.promise (S.sz + n.toNat) (Nat.le_add_right _ _) hle).page := hM
        rw [if_neg (Nat.not_lt_of_le hle)]
        apply Triple.ret_sbrk hM' (fun _ => rfl)
        refine ⟨Or.inl ?_, rfl⟩
        rw [Space.sbrk, dif_neg hneg, dif_pos hle, if_neg heager]
      · rw [if_pos (Nat.lt_of_not_le hle)]
        apply Triple.ret_sbrk hM (fun _ => rfl)
        refine ⟨Or.inl ?_, rfl⟩
        rw [Space.sbrk, dif_neg hneg, dif_neg hle]

theorem sysSbrk_spec (L : Link) (m : Prog.Mode) (pt tf : ℕ) (S : Space) {n : ℤ} (s : ℤ)
    (hn : -2 ^ 31 ≤ n ∧ n < 2 ^ 31) :
  Triple L.pool m (isSpace L pt tf S) (sysSbrk L ⟨pt, S.sz⟩ n s)
    (fun r => ex fun S' => fact (Resized m.oom S S' pt n s r) * isSpace L pt tf S')
  := by
  rw [← mul_one (isSpace L pt tf S)]
  apply Triple.of_isSpace
  intro t pa hM
  apply (Triple.sysSbrk s hn hM).post
  rintro r h ⟨S', hS'⟩
  exact ⟨S', mul_le_mul_right leaves_le _ h hS'⟩

end Xv6.Uvm
