import Xv6.Vm.Walk

/-!
# Page tables in memory

A page table is a tree: at level 0 the entries of a page, above that for every index
possibly the address of a page and the tree in it.  `isTable p t` says that the tree `t` is
in memory at page `p`: the page contains the entries that point to the subtrees, the
subtrees are in memory, and no page belongs to two of them.  The entry for a virtual address
is found by following its indices, and is `0` if a page is missing on the way.

`walk` finds the entry, and with `alloc` it may add missing pages to the tree, which does
not change any entry.
-/

namespace Xv6

open Assertion Function

/-- A page table of the given level. -/
inductive PtTree : ℕ → Type where
  | leaf (d : PageData) : PtTree 0
  /-- For every index the page below it, if there is one, and the tree in that page. -/
  | node {l : ℕ} (addr : Fin 512 → Option ℕ) (sub : Fin 512 → PtTree l) : PtTree (l + 1)

namespace PtTree

variable {l : ℕ}

/-- The entry that points to a page. -/
def pointer : Option ℕ → Word
  | none => 0
  | some q => PA2PTE q ||| PTE_V

/-- The contents of the page at the root of a tree. -/
def data : PtTree l → PageData
  | leaf d => d
  | node addr _ => fun i => pointer (addr i)

/-- The entry for an address. -/
def entry (va : ℕ) : {l : ℕ} → PtTree l → Word
  | _, leaf d => d (PX 0 va)
  | l + 1, node addr sub =>
    match addr (PX (l + 1) va) with
    | none => 0
    | some _ => (sub (PX (l + 1) va)).entry va

/-- The page that the entry for an address is in. -/
def page (va : ℕ) : {l : ℕ} → ℕ → PtTree l → Option ℕ
  | _, p, leaf _ => some p
  | l + 1, _, node addr sub =>
    match addr (PX (l + 1) va) with
    | none => none
    | some q => (sub (PX (l + 1) va)).page va q

/-- Changing the entry for an address, if there is a page for it. -/
def setEntry (va : ℕ) (w : Word) : {l : ℕ} → PtTree l → PtTree l
  | _, leaf d => leaf (update d (PX 0 va) w)
  | l + 1, node addr sub =>
    node addr (update sub (PX (l + 1) va) ((sub (PX (l + 1) va)).setEntry va w))

/-- A tree without entries. -/
def zero : (l : ℕ) → PtTree l
  | 0 => leaf fun _ => 0
  | l + 1 => node (fun _ => none) fun _ => zero l

end PtTree

open PtTree

/-- The tree is in memory at the page. -/
def isTable : {l : ℕ} → ℕ → PtTree l → Assertion ℕ PageData
  | _, p, .leaf d => single p d
  | _, p, .node addr sub => single p (data (.node addr sub))
      * ∏ i, match addr i with
        | none => 1
        | some q => isTable q (sub i)

/-- The tree below an index of a page table, if there is one. -/
def below {l : ℕ} (t : PtTree l) : Option ℕ → Assertion ℕ PageData
  | none => 1
  | some q => isTable q t

/-- The trees below the other indices. -/
def siblings {l : ℕ} (addr : Fin 512 → Option ℕ) (sub : Fin 512 → PtTree l) (i : Fin 512) :
    Assertion ℕ PageData :=
  ∏ j ∈ Finset.univ.erase i, below (sub j) (addr j)

section

variable {l p : ℕ} {addr : Fin 512 → Option ℕ} {sub : Fin 512 → PtTree l}

theorem isTable_node :
  isTable p (node addr sub) = single p (data (node addr sub)) * ∏ i, below (sub i) (addr i)
  := rfl

/-- One of the trees below. -/
theorem isTable_focus (i : Fin 512) :
  isTable p (node addr sub) = single p (data (node addr sub))
    * (below (sub i) (addr i) * siblings addr sub i)
  := by
  rw [isTable_node, siblings,
    Finset.mul_prod_erase Finset.univ (fun i => below (sub i) (addr i)) (Finset.mem_univ i)]

theorem siblings_update (i : Fin 512) (o : Option ℕ) (t : PtTree l) :
  siblings (update addr i o) (update sub i t) i = siblings addr sub i
  := by
  apply Finset.prod_congr rfl
  intro j hj
  have hne := Finset.ne_of_mem_erase hj
  rw [update_of_ne hne, update_of_ne hne]

/-- Replacing one of the trees below. -/
theorem isTable_update (i : Fin 512) (o : Option ℕ) (t : PtTree l) :
  isTable p (node (update addr i o) (update sub i t))
    = single p (update (data (node addr sub)) i (pointer o))
      * (below t o * siblings addr sub i)
  := by
  have hdata : data (node (update addr i o) (update sub i t))
      = update (data (node addr sub)) i (pointer o) := by
    funext j
    by_cases hj : j = i
    · subst hj
      simp only [data, update_self]
    · simp only [data, update_of_ne hj]
  rw [isTable_focus i, hdata, update_self, update_self, siblings_update]

/-- Replacing one of the trees below, in the same page. -/
theorem isTable_update_sub (i : Fin 512) (t : PtTree l) :
  isTable p (node addr (update sub i t)) = single p (data (node addr sub))
    * (below t (addr i) * siblings addr sub i)
  := by
  have h : isTable p (node (update addr i (addr i)) (update sub i t)) = _ :=
    isTable_update i (addr i) t
  rw [update_eq_self] at h
  have hdata : update (data (node addr sub)) i (pointer (addr i)) = data (node addr sub) :=
    update_eq_self i (data (node addr sub))
  rw [h, hdata]

end

/-- The page at the root. -/
theorem isTable_root {l : ℕ} (p : ℕ) (t : PtTree l) :
  ∃ R, isTable p t = single p t.data * R
  := by
  cases t with
  | leaf d => exact ⟨1, (mul_one _).symm⟩
  | node addr sub => exact ⟨_, isTable_node⟩

theorem isTable_zero (l p : ℕ) : isTable p (PtTree.zero l) = single p (memset 0) := by
  cases l with
  | zero => rfl
  | succ l =>
    have hone : ∏ i : Fin 512, below (PtTree.zero l) ((fun _ => none) i) = 1 :=
      Finset.prod_eq_one fun _ _ => rfl
    rw [PtTree.zero, isTable_node, hone, mul_one]
    rfl

namespace PtTree

variable {l va va' : ℕ} {w : Word} {t : PtTree l}

theorem entry_zero (va l : ℕ) : (zero l).entry va = 0 := by
  cases l <;> rfl

/-- Addresses in the same page have the same entry. -/
theorem entry_congr (h : va / PGSIZE = va' / PGSIZE) (t : PtTree l) : t.entry va = t.entry va' := by
  induction t with
  | leaf d => simp only [PtTree.entry, PX_congr 0 h]
  | @node l addr sub ih =>
    simp only [PtTree.entry, PX_congr (l + 1) h]
    split
    · rfl
    · apply ih

/-- The entry that has been changed. -/
theorem entry_setEntry_self {p q : ℕ} (h : t.page va p = some q) :
  (t.setEntry va w).entry va = w
  := by
  induction t generalizing p with
  | leaf d => simp only [setEntry, PtTree.entry, update_self]
  | @node l addr sub ih =>
    simp only [page] at h
    simp only [setEntry, PtTree.entry, update_self]
    split at h
    · cases h
    · next ha =>
        rw [ha]
        exact ih _ h

/-- The other entries. -/
theorem entry_setEntry_of_ne (h : ∃ k ≤ l, PX k va' ≠ PX k va) :
  (t.setEntry va w).entry va' = t.entry va'
  := by
  induction t with
  | leaf d =>
    obtain ⟨k, hk, hne⟩ := h
    obtain rfl := Nat.le_zero.mp hk
    simp only [setEntry, PtTree.entry, update_of_ne hne]
  | @node l addr sub ih =>
    simp only [setEntry, PtTree.entry]
    by_cases hi : PX (l + 1) va' = PX (l + 1) va
    · rw [hi, update_self]
      split
      · rfl
      · apply ih
        obtain ⟨k, hk, hne⟩ := h
        refine ⟨k, ?_, hne⟩
        rcases Nat.le_succ_iff.mp hk with hk | rfl
        · exact hk
        · contradiction
    · rw [update_of_ne hi]

end PtTree

/-- The entry for an address in memory: the page it is in, and what changes when the entry is
changed. -/
theorem isTable_entry {l va p q : ℕ} {t : PtTree l} (h : t.page va p = some q) :
  ∃ (d : PageData) (R : Assertion ℕ PageData), isTable p t = single q d * R
    ∧ d (PX 0 va) = t.entry va
    ∧ ∀ w, isTable p (t.setEntry va w) = single q (update d (PX 0 va) w) * R
  := by
  induction t generalizing p with
  | leaf d =>
    cases h
    exact ⟨d, 1, (mul_one _).symm, rfl, fun _ => (mul_one _).symm⟩
  | @node l addr sub ih =>
    simp only [page] at h
    cases ha : addr (PX (l + 1) va) with
    | none =>
      rw [ha] at h
      cases h
    | some q' =>
      rw [ha] at h
      obtain ⟨d, R, htable, hentry, hset⟩ := ih (PX (l + 1) va) h
      have hac : ∀ A B C D : Assertion ℕ PageData, A * (B * C * D) = B * (A * C * D) := by
        intros
        ac_rfl
      refine ⟨d, single p (data (node addr sub)) * R
        * siblings addr sub (PX (l + 1) va), ?_, ?_, ?_⟩
      · rw [isTable_focus (PX (l + 1) va), ha, below, htable, hac]
      · rw [hentry, PtTree.entry, ha]
      · intro w
        rw [setEntry, isTable_update_sub, ha, below, hset w, hac]

end Xv6
