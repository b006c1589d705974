import Xv6.Vm.Table

/-!
# Following a page table

The rules for `kalloc`, `kfree`, `walk` and for reading and writing the entry that `walk`
has found, in a memory that contains a page table.
-/

namespace Xv6

open Assertion PtTree Function

variable {L : Link} {m : Prog.Mode} {α : Type} {A : Assertion ℕ PageData}
  {C : α → Assertion ℕ PageData} {d : Unit → Vm α}

theorem Link.PTE2PA_or {p : ℕ} (hp : p ∈ L.pool) {fl : Word} (hfl : IsFlags fl) :
  PTE2PA (PA2PTE p ||| fl) = p
  := by
  obtain ⟨halign, _, hlt⟩ := mem_pool.mp hp
  apply Xv6.PTE2PA_or halign _ hfl
  exact lt_trans hlt (by decide)

/-! ### Pages -/

theorem Triple.kalloc {d : Option ℕ → Vm α} (hnone : m.oom → Triple L.pool m A (d none) C)
    (hsome : ∀ p ∈ L.pool, Triple L.pool m (single p (memset 5) * A) (d (some p)) C) :
  Triple L.pool m A (kalloc >>= d) C
  := by
  unfold Xv6.kalloc
  rw [bind_assoc]
  apply Triple.take
  · exact hnone
  · intro p hp f
    simp only [bind_assoc, pure_bind]
    apply Triple.write
    exact hsome p hp

theorem Triple.kfree {p : ℕ} {f : PageData} (h : Triple L.pool m A (d ()) C) :
  Triple L.pool m (single p f * A) (kfree L p >>= d) C
  := by
  apply Triple.mem_pool
  intro hp
  obtain ⟨halign, hle, hlt⟩ := Link.mem_pool.mp hp
  have hcheck : ¬ (p % PGSIZE ≠ 0 ∨ p < L.kend ∨ PHYSTOP ≤ p) := by
    rintro (h | h | h)
    · exact h halign
    · exact absurd hle (Nat.not_le_of_lt h)
    · exact absurd hlt (Nat.not_lt_of_le h)
  unfold Xv6.kfree
  rw [if_neg hcheck, bind_assoc]
  exact Triple.write (Triple.give h)

/-- A page table is in pages of the pool. -/
theorem Triple.table_mem_pool {l p : ℕ} {t : PtTree l} {c : Vm α}
    (h : p ∈ L.pool → Triple L.pool m (isTable p t * A) c C) :
  Triple L.pool m (isTable p t * A) c C
  := by
  obtain ⟨R, hR⟩ := isTable_root p t
  rw [hR, mul_assoc] at h ⊢
  exact Triple.mem_pool h

/-! ### Entries -/

section

variable {l va p q : ℕ} {t : PtTree l}

theorem Triple.readPte {d : Word → Vm α} (hq : t.page va p = some q)
    (h : Triple L.pool m (isTable p t * A) (d (t.entry va)) C) :
  Triple L.pool m (isTable p t * A) (readPte (q, PX 0 va) >>= d) C
  := by
  obtain ⟨page, R, htable, hentry, _⟩ := isTable_entry hq
  rw [htable, mul_assoc] at h ⊢
  rw [← hentry] at h
  unfold Xv6.readPte
  rw [bind_assoc]
  exact Triple.read h

theorem Triple.writePte {w : Word} (hq : t.page va p = some q)
    (h : Triple L.pool m (isTable p (t.setEntry va w) * A) (d ()) C) :
  Triple L.pool m (isTable p t * A) (writePte (q, PX 0 va) w >>= d) C
  := by
  obtain ⟨page, R, htable, _, hset⟩ := isTable_entry hq
  rw [hset, mul_assoc] at h
  rw [htable, mul_assoc]
  exact Triple.write h

end

/-! ### Following the indices -/

/-- What `walk` has found and done to the page table. -/
structure Walked {l : ℕ} (oom : Prop) (va : ℕ) (alloc : Bool) (p : ℕ) (t t' : PtTree l)
    (r : Option (ℕ × Fin 512)) : Prop where
  entries : ∀ va', t'.entry va' = t.entry va'
  found : r = (t'.page va p).map (·, PX 0 va)
  same : alloc = false → t' = t
  refused : alloc = true → r = none → oom

theorem entry_of_page_none {l va p : ℕ} {t : PtTree l} (h : t.page va p = none) : t.entry va = 0 := by
  induction t generalizing p with
  | leaf d => cases h
  | @node l addr sub ih =>
    simp only [page] at h
    simp only [PtTree.entry]
    cases ha : addr (PX (l + 1) va) with
    | none => rfl
    | some q =>
      rw [ha] at h
      exact ih _ h

/-- A valid pointer of a page table. -/
theorem pointer_valid {q : ℕ} : pointer (some q) &&& PTE_V ≠ 0 := by
  rw [pointer, PA2PTE_or_and (by unfold IsFlags; decide)]
  decide

namespace Walked

variable {l va p q : ℕ} {alloc : Bool} {addr : Fin 512 → Option ℕ} {sub : Fin 512 → PtTree l}
  {t' : PtTree l} {r : Option (ℕ × Fin 512)}

/-- What `walk` does below a page that is there. -/
theorem node (h : Walked m.oom va alloc q (sub (PX (l + 1) va)) t' r)
    (ha : addr (PX (l + 1) va) = some q) :
  Walked m.oom va alloc p (.node addr sub) (.node addr (update sub (PX (l + 1) va) t')) r
  where
  entries va' := by
    simp only [PtTree.entry]
    by_cases hi : PX (l + 1) va' = PX (l + 1) va
    · rw [hi, ha, update_self]
      exact h.entries va'
    · rw [update_of_ne hi]
  found := by
    simp only [page, ha, update_self]
    exact h.found
  same halloc := by rw [h.same halloc, update_eq_self]
  refused := h.refused

/-- What `walk` does below a page that it has added. -/
theorem node_zero (h : Walked m.oom va true q (PtTree.zero l) t' r)
    (ha : addr (PX (l + 1) va) = none) :
  Walked m.oom va true p (.node addr sub) (.node (update addr (PX (l + 1) va) (some q))
    (update sub (PX (l + 1) va) t')) r
  where
  entries va' := by
    simp only [PtTree.entry]
    by_cases hi : PX (l + 1) va' = PX (l + 1) va
    · rw [hi, ha, update_self, update_self]
      exact (h.entries va').trans (entry_zero va' l)
    · rw [update_of_ne hi, update_of_ne hi]
  found := by
    simp only [page, update_self]
    exact h.found
  same := nofun
  refused := h.refused

end Walked

theorem walkLevel_spec (va : ℕ) (alloc : Bool) {l : ℕ} (p : ℕ) (t : PtTree l) :
  Triple L.pool m (isTable p t) (walkLevel va alloc l p)
    (fun r => ex fun t' => fact (Walked m.oom va alloc p t t' r) * isTable p t')
  := by
  induction l generalizing p with
  | zero =>
    cases t with
    | leaf d =>
      apply Triple.ret
      apply le_ex (PtTree.leaf d)
      exact le_fact_mul ⟨fun _ => rfl, rfl, fun _ => rfl, by simp⟩ (le_refl _)
  | succ l ih =>
    cases t with
    | node addr sub =>
      unfold walkLevel readPte
      rw [isTable_focus (PX (l + 1) va), bind_assoc]
      apply Triple.read
      rw [pure_bind]
      cases ha : addr (PX (l + 1) va) with
      | some q =>
        have hpte : data (.node addr sub) (PX (l + 1) va) = pointer (some q) :=
          congrArg pointer ha
        rw [hpte, if_pos pointer_valid, below, mul_left_comm]
        apply Triple.table_mem_pool
        intro hq
        have hpa : PTE2PA (pointer (some q)) = q := Link.PTE2PA_or hq (by unfold IsFlags; decide)
        rw [hpa]
        apply ((ih q (sub (PX (l + 1) va))).frame _).post
        intro r
        rw [ex_mul]
        apply ex_le
        intro t'
        rw [mul_assoc]
        apply fact_mul_le
        intro hw
        apply le_ex (.node addr (update sub (PX (l + 1) va) t'))
        apply le_fact_mul (hw.node ha)
        rw [isTable_update_sub, ha, below, mul_left_comm]
      | none =>
        have hpte : data (.node addr sub) (PX (l + 1) va) = 0 := congrArg pointer ha
        have hinvalid : ¬ ((0 : Word) &&& PTE_V ≠ 0) := by decide
        rw [hpte, if_neg hinvalid]
        have hsame : single p (data (.node addr sub)) * (below (sub (PX (l + 1) va)) none
            * siblings addr sub (PX (l + 1) va)) = isTable p (.node addr sub) := by
          rw [isTable_focus (PX (l + 1) va), ha]
        have hpage : (PtTree.node addr sub).page va p = none := by
          simp only [page, ha]
        cases alloc with
        | false =>
          rw [if_pos rfl, hsame]
          apply Triple.ret
          apply le_ex (.node addr sub)
          apply le_fact_mul _ (le_refl _)
          refine ⟨fun _ => rfl, ?_, fun _ => rfl, by simp⟩
          rw [hpage]
          rfl
        | true =>
          rw [if_neg (by decide)]
          apply Triple.kalloc
          · intro hoom
            rw [hsame]
            apply Triple.ret
            apply le_ex (.node addr sub)
            apply le_fact_mul _ (le_refl _)
            refine ⟨fun _ => rfl, ?_, by simp, fun _ _ => hoom⟩
            rw [hpage]
            rfl
          · intro q _
            apply Triple.write
            unfold writePte
            rw [mul_left_comm]
            apply Triple.write
            rw [mul_left_comm, ← isTable_zero l q]
            apply ((ih q (PtTree.zero l)).frame _).post
            intro r
            rw [ex_mul]
            apply ex_le
            intro t'
            rw [mul_assoc]
            apply fact_mul_le
            intro hw
            apply le_ex (.node (update addr (PX (l + 1) va) (some q))
              (update sub (PX (l + 1) va) t'))
            apply le_fact_mul (hw.node_zero ha)
            rw [isTable_update, below, below, one_mul, mul_left_comm]
            rfl

theorem walk_spec {va : ℕ} (hva : va < MAXVA) (alloc : Bool) (p : ℕ) (t : PtTree 2) :
  Triple L.pool m (isTable p t) (walk p va alloc)
    (fun r => ex fun t' => fact (Walked m.oom va alloc p t t' r) * isTable p t')
  := by
  unfold walk
  rw [if_neg (Nat.not_le_of_lt hva)]
  exact walkLevel_spec va alloc p t

/-- After `walk`: it has found the entry, or there is no page for it. -/
theorem Triple.walk {va p : ℕ} {t : PtTree 2} {alloc : Bool} {d : Option (ℕ × Fin 512) → Vm α}
    (hva : ¬ m.panics → va < MAXVA)
    (hsome : ∀ t' q, va < MAXVA → Walked m.oom va alloc p t t' (some (q, PX 0 va)) →
      t'.page va p = some q → Triple L.pool m (isTable p t' * A) (d (some (q, PX 0 va))) C)
    (hnone : ∀ t', va < MAXVA → Walked m.oom va alloc p t t' none → t.entry va = 0 →
      Triple L.pool m (isTable p t' * A) (d none) C) :
  Triple L.pool m (isTable p t * A) (walk p va alloc >>= d) C
  := by
  by_cases hlt : va < MAXVA
  · apply Triple.call (walk_spec hlt alloc p t)
    intro r
    rw [ex_mul]
    apply Triple.ex
    intro t'
    rw [mul_assoc]
    apply Triple.fact
    intro hw
    cases hq : t'.page va p with
    | none =>
      have hr := hw.found
      rw [hq] at hr
      subst hr
      exact hnone t' hlt hw ((hw.entries va).symm.trans (entry_of_page_none hq))
    | some q =>
      have hr := hw.found
      rw [hq] at hr
      subst hr
      exact hsome t' q hlt hw hq
  · unfold Xv6.walk
    rw [if_pos (Nat.le_of_not_lt hlt)]
    exact Triple.panic "walk" (not_not.mp (mt hva hlt))

end Xv6
