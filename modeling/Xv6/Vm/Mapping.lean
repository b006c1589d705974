import Xv6.Vm.Lookup

/-!
# Mapping and unmapping pages

The rules for `mappages`, `uvmunmap` and `uvmclear`, in terms of the entries of the page
table by page number.  `mappages` sets the entries of a range, or of a first part of the
range when it is refused a page for the table; `uvmunmap` clears the valid entries of a range
and gives the pages they map back if it is asked to; `uvmclear` takes a flag away.
-/

namespace Xv6

open Assertion PtTree

/-- The number of pages below `MAXVA`. -/
abbrev NVPN : ℕ := MAXVA / PGSIZE

/-- The number of entries of a page table, of which only the first half is used. -/
abbrev NPTE : ℕ := 2 ^ 27

/-- The entry is valid. -/
abbrev Valid (w : Word) : Prop := w &&& PTE_V ≠ 0

/-- The entry for a page number. -/
def PtTree.pte (t : PtTree 2) (v : ℕ) : Word := t.entry (v * PGSIZE)

variable {L : Link} {m : Prog.Mode} {α : Type} {A : Assertion ℕ PageData}
  {C : α → Assertion ℕ PageData} {p v n pa va v' : ℕ} {t t' : PtTree 2} {perm w : Word} {oom : Prop}
  {E E' : ℕ → Word} {doFree : Bool} {r : ℤ}

theorem lt_MAXVA_iff : v * PGSIZE < MAXVA ↔ v < NVPN := by
  unfold NVPN MAXVA PGSIZE
  norm_num
  omega

theorem lt_NPTE (h : v < NVPN) : v < NPTE := lt_trans h (by decide)

theorem PtTree.pte_setEntry {q : ℕ} (hq : t.page (v * PGSIZE) p = some q) (hv : v < NVPN)
    (hv' : v' < NPTE) :
  (t.setEntry (v * PGSIZE) w).pte v' = if v' = v then w else t.pte v'
  := by
  split_ifs with h
  · subst h
    exact entry_setEntry_self hq
  · apply entry_setEntry_of_ne
    by_contra hall
    push Not at hall
    apply h
    have hlt : ∀ u < NPTE, u * PGSIZE < 2 ^ 39 := by
      intro u hu
      unfold NPTE at hu
      unfold PGSIZE
      omega
    have hpage := page_of_PX (hlt v' hv') (hlt v (lt_NPTE hv)) (hall 2 (le_refl 2))
      (hall 1 (by decide)) (hall 0 (by decide))
    rwa [Nat.mul_div_cancel _ (by decide), Nat.mul_div_cancel _ (by decide)] at hpage

theorem Walked.pte {alloc : Bool} {r : Option (ℕ × Fin 512)}
    (h : Walked oom va alloc p t t' r) (v : ℕ) :
  t'.pte v = t.pte v
  := h.entries (v * PGSIZE)

/-! ### `mappages` -/

/-- The entries after `k` pages from `v` on have been mapped to pages from `pa` on. -/
def mapped (E : ℕ → Word) (v k pa : ℕ) (perm : Word) : ℕ → Word :=
  fun v' => if v ≤ v' ∧ v' < v + k then PA2PTE (pa + (v' - v) * PGSIZE) ||| perm ||| PTE_V else E v'

/-- What `mappages` has done to the page table. -/
structure PagesMapped (oom : Prop) (v n pa : ℕ) (perm : Word) (t t' : PtTree 2) (r : ℤ) (k : ℕ) :
    Prop where
  result : r = 0 ∧ k = n ∨ r = -1 ∧ k < n ∧ oom
  bound : v + k ≤ NVPN
  entries : ∀ v' < NPTE, t'.pte v' = mapped t.pte v k pa perm v'
  unmapped : ∀ v', v ≤ v' → v' < v + k → ¬ Valid (t.pte v')

theorem PA2PTE_mod (pa : ℕ) : PA2PTE (pa % 2 ^ 64) = PA2PTE pa := by
  have hword : BitVec.ofNat 64 (pa % 2 ^ 64) = BitVec.ofNat 64 pa := by
    apply BitVec.eq_of_toNat_eq
    simp
  rw [PA2PTE, hword, PA2PTE]

theorem mapped_zero (E : ℕ → Word) (v pa : ℕ) (perm : Word) : mapped E v 0 pa perm = E := by
  funext v'
  apply if_neg
  omega

theorem mapped_mod (E : ℕ → Word) (v k pa : ℕ) (perm : Word) :
  mapped E v k (pa % 2 ^ 64) perm = mapped E v k pa perm
  := by
  funext v'
  unfold mapped
  rw [← PA2PTE_mod (pa % 2 ^ 64 + _), Nat.mod_add_mod, PA2PTE_mod]

/-- No page is mapped, because there is nothing more to map or there is no page for the
table. -/
theorem PagesMapped.nil (hr : r = 0 ∧ 0 = n ∨ r = -1 ∧ 0 < n ∧ oom) (hv : v ≤ NVPN)
    (ht' : ∀ v, t'.pte v = t.pte v) :
  PagesMapped oom v n pa perm t t' r 0
  where
  result := hr
  bound := hv
  entries v' _ := by rw [mapped_zero, ht']
  unmapped v' hle hlt := by omega

/-- One more page is mapped first. -/
theorem PagesMapped.cons {k q : ℕ} {t₁ t₂ : PtTree 2}
    (h : PagesMapped oom (v + 1) n (pa + PGSIZE) perm t₂ t' r k) (hv : v < NVPN)
    (hq : t₁.page (v * PGSIZE) p = some q) (ht₁ : ∀ v, t₁.pte v = t.pte v)
    (hinvalid : ¬ Valid (t.pte v))
    (ht₂ : t₂ = t₁.setEntry (v * PGSIZE) (PA2PTE pa ||| perm ||| PTE_V)) :
  PagesMapped oom v (n + 1) pa perm t t' r (k + 1)
  := by
  subst ht₂
  have hset : ∀ v' < NPTE, (t₁.setEntry (v * PGSIZE) (PA2PTE pa ||| perm ||| PTE_V)).pte v'
      = if v' = v then PA2PTE pa ||| perm ||| PTE_V else t.pte v' := by
    intro v' hv'
    rw [pte_setEntry hq hv hv', ht₁]
  constructor
  · rcases h.result with ⟨hr, hk⟩ | ⟨hr, hk, hoom⟩
    · exact Or.inl ⟨hr, by omega⟩
    · exact Or.inr ⟨hr, by omega, hoom⟩
  · have := h.bound
    omega
  · intro v' hv'
    rw [h.entries v' hv']
    unfold mapped
    rw [hset v' hv']
    by_cases hvv' : v' = v
    · subst hvv'
      rw [if_neg (by omega), if_pos rfl, if_pos (by omega), Nat.sub_self, Nat.zero_mul, Nat.add_zero]
    · rw [if_neg hvv']
      by_cases hin : v + 1 ≤ v' ∧ v' < v + 1 + k
      · have hoff : pa + PGSIZE + (v' - (v + 1)) * PGSIZE = pa + (v' - v) * PGSIZE := by
          have hsub : v' - v = v' - (v + 1) + 1 := by omega
          rw [hsub, Nat.add_mul, Nat.one_mul]
          omega
        rw [if_pos hin, if_pos (by omega), hoff]
      · rw [if_neg hin, if_neg (by omega)]
  · intro v' hle hlt
    by_cases hvv' : v' = v
    · subst hvv'
      exact hinvalid
    · have hvalid := h.unmapped v' (by omega) (by omega)
      rwa [hset v' (lt_NPTE (by have := h.bound; omega)), if_neg hvv'] at hvalid

/-- One iteration of the loop of `mappages`. -/
theorem map_step {c : Vm ℤ} (p : ℕ) (perm : Word) (hbound : ¬ m.panics → v < NVPN)
    (hfree : ¬ m.panics → ¬ Valid (t.pte v))
    (hc : ∀ t₂ : PtTree 2, v < NVPN →
      (∀ v' < NPTE, t₂.pte v' = if v' = v then PA2PTE pa ||| perm ||| PTE_V else t.pte v') →
      Triple L.pool m (isTable p t₂) c (fun r =>
        ex fun t' => fact (∃ k, PagesMapped m.oom (v + 1) n (pa + PGSIZE) perm t₂ t' r k) * isTable p t')) :
  Triple L.pool m (isTable p t)
    (do
      match ← walk p (v * PGSIZE) true with
      | none => return -1
      | some pte =>
        let w ← readPte pte
        if w &&& PTE_V ≠ 0 then Prog.panic "mappages: remap"
        else
          writePte pte (PA2PTE pa ||| perm ||| PTE_V)
          c)
    (fun r => ex fun t' => fact (∃ k, PagesMapped m.oom v (n + 1) pa perm t t' r k) * isTable p t')
  := by
  rw [← mul_one (isTable p t)]
  apply Triple.walk (fun hm => lt_MAXVA_iff.mpr (hbound hm))
  · intro t₁ q hlt hw hq
    have hv := lt_MAXVA_iff.mp hlt
    apply Triple.readPte hq
    have hentry : t₁.entry (v * PGSIZE) = t.pte v := hw.pte v
    rw [hentry]
    by_cases hvalid : Valid (t.pte v)
    · rw [if_pos hvalid]
      exact Triple.panic _ (not_not.mp fun hm => hfree hm hvalid)
    · rw [if_neg hvalid]
      apply Triple.writePte hq
      rw [mul_one]
      apply (hc _ hv ?_).post
      · intro r
        apply ex_le
        intro t'
        apply fact_mul_le
        rintro ⟨k, hk⟩
        apply le_ex t'
        exact le_fact_mul ⟨k + 1, hk.cons hv hq hw.pte hvalid rfl⟩ (le_refl _)
      · intro v' hv'
        rw [pte_setEntry hq hv hv', hw.pte]
  · intro t₁ hlt hw _
    apply Triple.ret
    apply le_ex t₁
    rw [mul_one]
    apply le_fact_mul _ (le_refl _)
    have hv := lt_MAXVA_iff.mp hlt
    refine ⟨0, PagesMapped.nil (Or.inr ⟨rfl, Nat.succ_pos n, hw.refused rfl rfl⟩) (by omega) hw.pte⟩

theorem mapLoop_spec (p : ℕ) (perm : Word) (hbound : ¬ m.panics → v + (n + 1) ≤ NVPN)
    (hfree : ¬ m.panics → ∀ v', v ≤ v' → v' < v + (n + 1) → ¬ Valid (t.pte v')) :
  Triple L.pool m (isTable p t) (mapLoop p ((v + n) * PGSIZE) perm (n + 1) (v * PGSIZE) pa)
    (fun r => ex fun t' => fact (∃ k, PagesMapped m.oom v (n + 1) pa perm t t' r k) * isTable p t')
  := by
  induction n generalizing v pa t with
  | zero =>
    unfold mapLoop
    apply map_step p perm
    · intro hm
      have := hbound hm
      omega
    · intro hm
      exact hfree hm v (le_refl v) (Nat.lt_succ_self v)
    · intro t₂ hv _
      rw [if_pos (by rw [Nat.add_zero])]
      apply Triple.ret
      apply le_ex t₂
      exact le_fact_mul ⟨0, PagesMapped.nil (Or.inl ⟨rfl, rfl⟩) hv fun _ => rfl⟩ (le_refl _)
  | succ n ih =>
    unfold mapLoop
    apply map_step p perm
    · intro hm
      have := hbound hm
      omega
    · intro hm
      apply hfree hm v (le_refl v)
      omega
    · intro t₂ hv ht₂
      have hne : v * PGSIZE ≠ (v + (n + 1)) * PGSIZE := by
        unfold PGSIZE
        omega
      have hnext : (v * PGSIZE + PGSIZE) % 2 ^ 64 = (v + 1) * PGSIZE := by
        unfold NVPN MAXVA PGSIZE at hv
        unfold PGSIZE
        omega
      have hlast : (v + (n + 1)) * PGSIZE = (v + 1 + n) * PGSIZE := by ring
      rw [if_neg hne, hnext, hlast]
      apply Triple.post (ih ?_ ?_)
      · intro r
        apply ex_le
        intro t'
        apply fact_mul_le
        rintro ⟨k, hk⟩
        apply le_ex t'
        refine le_fact_mul ⟨k, hk.result, hk.bound, ?_, hk.unmapped⟩ (le_refl _)
        intro v' hv'
        rw [hk.entries v' hv', mapped_mod]
      · intro hm
        have := hbound hm
        omega
      · intro hm v' hle hlt
        have := hbound hm
        rw [ht₂ v' (lt_NPTE (by omega)), if_neg (by omega)]
        exact hfree hm v' (by omega) (by omega)

theorem mappages_spec {va size : ℕ} (p : ℕ) (perm : Word) (hva : va = v * PGSIZE)
    (hsize : size = n * PGSIZE) (hn : 0 < n) (hwrap : va + size ≤ 2 ^ 64)
    (hbound : ¬ m.panics → v + n ≤ NVPN)
    (hfree : ¬ m.panics → ∀ v', v ≤ v' → v' < v + n → ¬ Valid (t.pte v')) :
  Triple L.pool m (isTable p t) (mappages p va size pa perm)
    (fun r => ex fun t' => fact (∃ k, PagesMapped m.oom v n pa perm t t' r k) * isTable p t')
  := by
  subst hva hsize
  obtain ⟨n, rfl⟩ := Nat.exists_eq_succ_of_ne_zero hn.ne'
  have hlast : (v * PGSIZE + (n + 1) * PGSIZE - PGSIZE) % 2 ^ 64 = (v + n) * PGSIZE := by
    unfold PGSIZE at hwrap ⊢
    omega
  unfold mappages
  rw [if_neg (by simp), if_neg (by simp), if_neg (by simp), Nat.succ_eq_add_one, hlast,
    Nat.mul_div_cancel _ (by decide)]
  exact mapLoop_spec p perm hbound hfree

/-- Mapping one page. -/
theorem Triple.mappages {d : ℤ → Vm α} (hva : va = v * PGSIZE) (hv : v < NVPN)
    (hfree : ¬ m.panics → ¬ Valid (t.pte v)) (hok : ∀ t' : PtTree 2, ¬ Valid (t.pte v) →
      (∀ v' < NPTE, t'.pte v' = if v' = v then PA2PTE pa ||| perm ||| PTE_V else t.pte v') →
      Triple L.pool m (isTable p t' * A) (d 0) C)
    (hfail : ∀ t' : PtTree 2, m.oom → (∀ v' < NPTE, t'.pte v' = t.pte v') →
      Triple L.pool m (isTable p t' * A) (d (-1)) C) :
  Triple L.pool m (isTable p t * A) (mappages p va PGSIZE pa perm >>= d) C
  := by
  apply Triple.call (mappages_spec p perm hva (Nat.one_mul PGSIZE).symm Nat.one_pos ?_ ?_ ?_)
  · intro r
    rw [ex_mul]
    apply Triple.ex
    intro t'
    rw [mul_assoc]
    apply Triple.fact
    rintro ⟨k, hk⟩
    rcases hk.result with ⟨rfl, rfl⟩ | ⟨rfl, hlt, hoom⟩
    · apply hok t' (hk.unmapped v (le_refl v) (Nat.lt_succ_self v))
      intro v' hv'
      rw [hk.entries v' hv']
      unfold mapped
      by_cases hvv' : v' = v
      · subst hvv'
        rw [if_pos (by omega), if_pos rfl, Nat.sub_self, Nat.zero_mul, Nat.add_zero]
      · rw [if_neg (by omega), if_neg hvv']
    · obtain rfl := Nat.lt_one_iff.mp hlt
      apply hfail t' hoom
      intro v' hv'
      rw [hk.entries v' hv', mapped_zero]
  · subst hva
    unfold NVPN MAXVA PGSIZE at hv
    unfold PGSIZE
    omega
  · intro _
    exact Nat.succ_le_of_lt hv
  · intro hm v' hle hlt
    obtain rfl : v' = v := by omega
    exact hfree hm

/-! ### `uvmunmap` -/

/-- The page that an entry maps, if it is valid, with some contents. -/
def leafOf (w : Word) : Assertion ℕ PageData :=
  if Valid w then ex fun f => single (PTE2PA w) f else 1

/-- The pages that the entries of a range map. -/
def leaves (E : ℕ → Word) (v n : ℕ) : Assertion ℕ PageData :=
  ∏ i ∈ Finset.range n, leafOf (E (v + i))

/-- What `uvmunmap` needs besides the page table. -/
def toFree (doFree : Bool) (E : ℕ → Word) (v n : ℕ) : Assertion ℕ PageData :=
  if doFree then leaves E v n else 1

/-- The entries after the valid entries of a range have been cleared. -/
def unmapped (E : ℕ → Word) (v n : ℕ) : ℕ → Word :=
  fun v' => if v ≤ v' ∧ v' < v + n ∧ Valid (E v') then 0 else E v'

theorem leaves_succ (E : ℕ → Word) (v n : ℕ) :
  leaves E v (n + 1) = leafOf (E v) * leaves E (v + 1) n
  := by
  unfold leaves
  rw [Finset.prod_range_succ', mul_comm, Nat.add_zero]
  congr 1
  apply Finset.prod_congr rfl
  intro i _
  rw [Nat.add_right_comm, Nat.add_assoc]

theorem leaves_congr (h : ∀ v', v ≤ v' → v' < v + n → E v' = E' v') :
  leaves E v n = leaves E' v n
  := by
  apply Finset.prod_congr rfl
  intro i hi
  have := Finset.mem_range.mp hi
  rw [h (v + i) (by omega) (by omega)]

theorem toFree_congr (h : ∀ v', v ≤ v' → v' < v + n → E v' = E' v') :
  toFree doFree E v n = toFree doFree E' v n
  := by
  unfold toFree
  rw [leaves_congr h]

/-- Freeing the page of a mapping, when that is asked for. -/
theorem Triple.freeIf {d : Unit → Vm α} (hw : Valid w) (h : Triple L.pool m A (d ()) C) :
  Triple L.pool m ((if doFree then leafOf w else 1) * A) (freeIf L doFree (PTE2PA w) >>= d) C
  := by
  cases doFree with
  | false =>
    rw [if_neg (by decide), one_mul]
    exact h
  | true =>
    rw [if_pos rfl, leafOf, if_pos hw, ex_mul]
    apply Triple.ex
    intro f
    exact Triple.kfree h

theorem toFree_succ (doFree : Bool) (E : ℕ → Word) (v n : ℕ) :
  toFree doFree E v (n + 1) = (if doFree then leafOf (E v) else 1) * toFree doFree E (v + 1) n
  := by
  unfold toFree
  cases doFree with
  | false => exact (one_mul _).symm
  | true => exact leaves_succ E v n

/-- The first entry of the range is not valid. -/
theorem unmapped_of_invalid {E : ℕ → Word} (h : ¬ Valid (E v)) :
  unmapped E (v + 1) n = unmapped E v (n + 1)
  := by
  funext v'
  unfold unmapped
  by_cases hvv' : v' = v
  · subst hvv'
    rw [if_neg (by omega), if_neg fun hn => h hn.2.2]
  · have hiff : (v + 1 ≤ v' ∧ v' < v + 1 + n ∧ Valid (E v'))
        ↔ (v ≤ v' ∧ v' < v + (n + 1) ∧ Valid (E v')) := by
      constructor
      · rintro ⟨h1, h2, h3⟩
        exact ⟨by omega, by omega, h3⟩
      · rintro ⟨h1, h2, h3⟩
        exact ⟨by omega, by omega, h3⟩
    simp only [hiff]

/-- The first entry of the range is cleared. -/
theorem unmapped_of_valid {E E₂ : ℕ → Word} (h : Valid (E v))
    (hE₂ : E₂ v' = if v' = v then 0 else E v') :
  unmapped E₂ (v + 1) n v' = unmapped E v (n + 1) v'
  := by
  unfold unmapped
  by_cases hvv' : v' = v
  · subst hvv'
    rw [if_neg (by omega), if_pos ⟨le_refl v', by omega, h⟩, hE₂, if_pos rfl]
  · rw [hE₂, if_neg hvv']
    have hiff : (v + 1 ≤ v' ∧ v' < v + 1 + n ∧ Valid (E v'))
        ↔ (v ≤ v' ∧ v' < v + (n + 1) ∧ Valid (E v')) := by
      constructor
      · rintro ⟨h1, h2, h3⟩
        exact ⟨by omega, by omega, h3⟩
      · rintro ⟨h1, h2, h3⟩
        exact ⟨by omega, by omega, h3⟩
    simp only [hiff]

theorem unmapLoop_spec {bound : ℕ} (p : ℕ) (doFree : Bool) (hb : bound = (v + n) * PGSIZE)
    (hbound : v + n ≤ NVPN) :
  Triple L.pool m (isTable p t * toFree doFree t.pte v n)
    (unmapLoop L p bound doFree n (v * PGSIZE))
    (fun _ => ex fun t' => fact (∀ v' < NPTE, t'.pte v' = unmapped t.pte v n v') * isTable p t')
  := by
  induction n generalizing v t with
  | zero =>
    unfold unmapLoop
    rw [hb, Nat.add_zero, if_neg (lt_irrefl _)]
    have hnone : toFree doFree t.pte v 0 = 1 := by
      unfold toFree
      split_ifs <;> rfl
    rw [hnone, mul_one]
    apply Triple.ret
    apply le_ex t
    apply le_fact_mul _ (le_refl _)
    intro v' _
    symm
    apply if_neg
    omega
  | succ n ih =>
    have hv : v < NVPN := by omega
    have hnext : (v * PGSIZE + PGSIZE) % 2 ^ 64 = (v + 1) * PGSIZE := by
      unfold NVPN MAXVA PGSIZE at hv
      unfold PGSIZE
      omega
    -- an entry that is not valid is passed over
    have hpass : ¬ Valid (t.pte v) →
        Triple L.pool m (isTable p t * toFree doFree t.pte v (n + 1))
          (unmapLoop L p bound doFree n ((v + 1) * PGSIZE))
          (fun _ => ex fun t' =>
            fact (∀ v' < NPTE, t'.pte v' = unmapped t.pte v (n + 1) v') * isTable p t') := by
      intro hinvalid
      have hskip : toFree doFree t.pte v (n + 1) = toFree doFree t.pte (v + 1) n := by
        rw [toFree_succ, leafOf, if_neg hinvalid, ite_self, one_mul]
      rw [hskip, ← unmapped_of_invalid hinvalid]
      exact ih (by rw [hb]; ring) (by omega)
    unfold unmapLoop
    rw [if_pos (by rw [hb]; unfold PGSIZE; omega), hnext]
    apply Triple.walk (fun _ => lt_MAXVA_iff.mpr hv)
    · intro t₁ q _ hw hq
      obtain rfl := hw.same rfl
      apply Triple.readPte hq
      have hentry : t₁.entry (v * PGSIZE) = t₁.pte v := rfl
      rw [hentry]
      by_cases hvalid : Valid (t₁.pte v)
      · rw [if_neg hvalid, toFree_succ, mul_left_comm]
        apply Triple.freeIf hvalid
        apply Triple.writePte hq
        have hset : ∀ v' < NPTE, (t₁.setEntry (v * PGSIZE) 0).pte v'
            = if v' = v then 0 else t₁.pte v' := fun v' hv' => pte_setEntry hq hv hv'
        have hrest : toFree doFree t₁.pte (v + 1) n
            = toFree doFree (t₁.setEntry (v * PGSIZE) 0).pte (v + 1) n := by
          apply toFree_congr
          intro v' hle hlt
          rw [hset v' (lt_NPTE (by omega)), if_neg (by omega)]
        rw [hrest]
        apply (ih (by rw [hb]; ring) (by omega)).post
        intro _
        apply ex_le
        intro t'
        apply fact_mul_le
        intro ht'
        apply le_ex t'
        apply le_fact_mul _ (le_refl _)
        intro v' hv'
        rw [ht' v' hv', unmapped_of_valid hvalid (hset v' hv')]
      · rw [if_pos (not_not.mp hvalid)]
        exact hpass hvalid
    · intro t₁ _ hw hzero
      obtain rfl := hw.same rfl
      apply hpass
      have hentry : t₁.pte v = 0 := hzero
      rw [hentry]
      decide

theorem uvmunmap_spec {va npages : ℕ} (p : ℕ) (doFree : Bool) (hva : va = v * PGSIZE)
    (hbound : v + npages ≤ NVPN) :
  Triple L.pool m (isTable p t * toFree doFree t.pte v npages) (uvmunmap L p va npages doFree)
    (fun _ => ex fun t' => fact (∀ v' < NPTE, t'.pte v' = unmapped t.pte v npages v') * isTable p t')
  := by
  subst hva
  unfold uvmunmap
  rw [if_neg (by simp)]
  apply unmapLoop_spec p doFree _ hbound
  unfold NVPN MAXVA PGSIZE at hbound
  unfold PGSIZE
  omega

/-! ### `uvmclear` -/

theorem uvmclear_spec (p : ℕ) (hva : va = v * PGSIZE) (hv : v < NVPN)
    (hentry : ¬ m.panics → t.pte v ≠ 0) :
  Triple L.pool m (isTable p t) (uvmclear p va)
    (fun _ => ex fun t' => fact (∀ v' < NPTE,
      t'.pte v' = if v' = v then t.pte v &&& ~~~PTE_U else t.pte v') * isTable p t')
  := by
  subst hva
  unfold uvmclear
  rw [← mul_one (isTable p t)]
  apply Triple.walk (fun _ => lt_MAXVA_iff.mpr hv)
  · intro t₁ q _ hw hq
    obtain rfl := hw.same rfl
    apply Triple.readPte hq
    rw [← bind_pure (writePte _ _)]
    apply Triple.writePte hq
    apply Triple.ret
    rw [mul_one]
    apply le_ex (t₁.setEntry (v * PGSIZE) (t₁.entry (v * PGSIZE) &&& ~~~PTE_U))
    apply le_fact_mul _ (le_refl _)
    intro v' hv'
    exact pte_setEntry hq hv hv'
  · intro t₁ _ hw hzero
    apply Triple.panic
    by_contra hm
    exact hentry hm hzero

end Xv6
