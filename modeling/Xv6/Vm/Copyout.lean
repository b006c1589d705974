import Xv6.Lib.Bytes
import Xv6.Vm.Pte

/-!
# Copying to user memory

The memory of a process as `copyout` sees it: for every page number the entry of the page
table with the contents of the page, if there is one.  A page below `p->sz` without an entry has
been promised by `sbrk` and is allocated when it is first used.  `copyout` fails at the first
page that cannot be written, so it succeeds exactly if it can write all of them, and it never
writes outside the range.
-/

namespace Xv6

open Function

/-- A page with the permissions in its page table entry. -/
structure UserPage where
  user : Bool
  writable : Bool
  data : Bytes PGSIZE

/-- The memory of a process.  `memory v` tells whether `kalloc` and `mappages` will have the
memory for page `v`. -/
structure UserMem where
  sz : ℕ
  page : ℕ → Option UserPage
  memory : ℕ → Bool

namespace UserMem

def setPage (m : UserMem) (v : ℕ) (pg : UserPage) : UserMem :=
  { m with page := update m.page v (some pg) }

/-- `walkaddr`, which finds the pages a user may access. -/
def walkaddr (m : UserMem) (va : ℕ) : Option UserPage :=
  if MAXVA ≤ va then none else (m.page (va / PGSIZE)).filter UserPage.user

/-- `vmfault`, which allocates a page that was promised. -/
def vmfault (m : UserMem) (va : ℕ) : Option UserMem :=
  if m.sz ≤ va then none
  else if (m.page (va / PGSIZE)).isSome then none
  else if m.memory (va / PGSIZE) then
    some (m.setPage (va / PGSIZE) { user := true, writable := true, data := fun _ => 0 })
  else none

/-- The part of `copyout` that finds a page or allocates it. -/
def resolve (m : UserMem) (va : ℕ) : Option UserMem :=
  match m.walkaddr va with
  | some _ => some m
  | none => m.vmfault va

/-- `copyout`: the memory after it, and whether it succeeded. -/
def copyout (m : UserMem) (dstva : ℕ) (src : List UInt8) : UserMem × Bool :=
  if _hsrc : src = [] then (m, true)
  else if MAXVA ≤ PGROUNDDOWN dstva then (m, false)
  else
    match m.resolve (PGROUNDDOWN dstva) with
    | none => (m, false)
    | some m =>
      match m.page (PGROUNDDOWN dstva / PGSIZE) with
      | none => (m, false)
      | some pg =>
        if pg.writable then
          let off := dstva - PGROUNDDOWN dstva
          let n := min (PGSIZE - off) src.length
          let data := pg.data.patch off n (fun k => src.getD k 0)
          (m.setPage (PGROUNDDOWN dstva / PGSIZE) { pg with data }).copyout
            (PGROUNDDOWN dstva + PGSIZE) (src.drop n)
        else (m, false)
  termination_by src.length
  decreasing_by
    have hlen : 0 < src.length := List.length_pos_of_ne_nil _hsrc
    have hoff : dstva - PGROUNDDOWN dstva < PGSIZE := by
      unfold PGROUNDDOWN PGSIZE
      omega
    simp only [List.length_drop]
    omega

/-! ### What can be written -/

/-- A user may write to the page, at once or after it has been allocated. -/
def CanWrite (m : UserMem) (v : ℕ) : Prop :=
  v * PGSIZE < MAXVA
    ∧ match m.page v with
      | some pg => pg.user = true ∧ pg.writable = true
      | none => v * PGSIZE < m.sz ∧ m.memory v = true

/-- What a user reads at an address; a page that is allocated when it is read has zeros. -/
def byte (m : UserMem) (a : ℕ) : UInt8 :=
  match m.page (a / PGSIZE) with
  | some pg => pg.data.byteAt (a % PGSIZE)
  | none => 0

/-- The memory has changed only in a range of addresses. -/
structure Copied (m m' : UserMem) (lo hi : ℕ) : Prop where
  sz : m'.sz = m.sz
  canWrite : ∀ v, m'.CanWrite v ↔ m.CanWrite v
  page : ∀ v, (v + 1) * PGSIZE ≤ lo ∨ hi ≤ v * PGSIZE → m'.page v = m.page v
  byte : ∀ a, a < lo ∨ hi ≤ a → m'.byte a = m.byte a

namespace Copied

variable {m m' m'' : UserMem} {lo hi lo' hi' : ℕ}

theorem refl (m : UserMem) (lo hi : ℕ) : m.Copied m lo hi :=
  ⟨rfl, fun _ => Iff.rfl, fun _ _ => rfl, fun _ _ => rfl⟩

theorem trans (h : m.Copied m' lo hi) (h' : m'.Copied m'' lo hi) : m.Copied m'' lo hi := by
  refine ⟨h'.sz.trans h.sz, ?_, ?_, ?_⟩
  · intro v
    rw [h'.canWrite, h.canWrite]
  · intro v hv
    rw [h'.page v hv, h.page v hv]
  · intro a ha
    rw [h'.byte a ha, h.byte a ha]

theorem mono (h : m.Copied m' lo' hi') (hlo : lo ≤ lo') (hhi : hi' ≤ hi) : m.Copied m' lo hi := by
  refine ⟨h.sz, h.canWrite, ?_, ?_⟩
  · intro v hv
    exact h.page v (by omega)
  · intro a ha
    exact h.byte a (by omega)

end Copied

/-! ### One page -/

variable {m m' : UserMem} {v : ℕ} {pg : UserPage}

theorem byte_setPage (m : UserMem) (v : ℕ) (pg : UserPage) (a : ℕ) :
  (m.setPage v pg).byte a = if a / PGSIZE = v then pg.data.byteAt (a % PGSIZE) else m.byte a
  := by
  by_cases h : a / PGSIZE = v
  · simp [byte, setPage, h]
  · simp [byte, setPage, h]

/-- A page that can be written stays so when it is allocated or written to. -/
theorem canWrite_setPage (hm : m.CanWrite v) (huser : pg.user = true)
    (hwritable : pg.writable = true) (u : ℕ) :
  (m.setPage v pg).CanWrite u ↔ m.CanWrite u
  := by
  by_cases h : u = v
  · subst h
    refine iff_of_true ⟨hm.1, ?_⟩ hm
    simp [setPage, huser, hwritable]
  · simp [CanWrite, setPage, h]

/-- A page has been found or allocated that can be written to. -/
structure Resolved (m : UserMem) (v : ℕ) (m' : UserMem) (pg : UserPage) : Prop where
  found : m.resolve (v * PGSIZE) = some m'
  page : m'.page v = some pg
  user : pg.user = true
  writable : pg.writable = true
  sz : m'.sz = m.sz
  canWrite : ∀ u, m'.CanWrite u ↔ m.CanWrite u
  byte : ∀ a, m'.byte a = m.byte a
  other : ∀ u, u ≠ v → m'.page u = m.page u

theorem mul_div_PGSIZE (v : ℕ) : v * PGSIZE / PGSIZE = v := Nat.mul_div_cancel v (by decide)

theorem exists_resolved (h : m.CanWrite v) : ∃ m' pg, m.Resolved v m' pg := by
  obtain ⟨hv, hcan⟩ := id h
  cases hpage : m.page v with
  | some pg =>
    rw [hpage] at hcan
    refine ⟨m, pg, ?_, hpage, hcan.1, hcan.2, rfl, fun _ => Iff.rfl, fun _ => rfl, fun _ _ => rfl⟩
    simp [resolve, walkaddr, hpage, Option.filter, hcan.1, Nat.not_le_of_lt hv]
  | none =>
    rw [hpage] at hcan
    refine ⟨m.setPage v ⟨true, true, fun _ => 0⟩, ⟨true, true, fun _ => 0⟩, ?_,
      update_self _ _ _, rfl, rfl, rfl, canWrite_setPage h rfl rfl, ?_, ?_⟩
    · simp [resolve, walkaddr, vmfault, hpage, hcan]
    · intro a
      rw [byte_setPage]
      split_ifs with ha
      · simp [UserMem.byte, ha, hpage, Bytes.byteAt]
      · rfl
    · intro u hu
      exact update_of_ne hu _ _

/-- A page that cannot be written is not found, or found without permission. -/
theorem resolve_of_not_canWrite (hv : v * PGSIZE < MAXVA) (h : ¬ m.CanWrite v) :
  m.resolve (v * PGSIZE) = none
    ∨ ∃ pg, m.resolve (v * PGSIZE) = some m ∧ m.page v = some pg ∧ pg.writable = false
  := by
  cases hpage : m.page v with
  | some pg =>
    have hcan : ¬ (pg.user = true ∧ pg.writable = true) := by
      simpa [CanWrite, hv, hpage] using h
    have hfault : m.vmfault (v * PGSIZE) = none := by
      simp [vmfault, hpage]
    cases huser : pg.user with
    | false =>
      left
      simp [resolve, walkaddr, hpage, Option.filter, huser, hfault]
    | true =>
      right
      refine ⟨pg, ?_, rfl, by simpa [huser] using hcan⟩
      simp [resolve, walkaddr, hpage, Option.filter, huser, Nat.not_le_of_lt hv]
  | none =>
    left
    have hcan : ¬ (v * PGSIZE < m.sz ∧ m.memory v = true) := by
      simpa [CanWrite, hv, hpage] using h
    have hfault : m.vmfault (v * PGSIZE) = none := by
      unfold vmfault
      rw [mul_div_PGSIZE, hpage]
      by_cases hsz : m.sz ≤ v * PGSIZE
      · rw [if_pos hsz]
      · have hmem : ¬ m.memory v = true := fun hmem => hcan ⟨Nat.lt_of_not_le hsz, hmem⟩
        simp [hsz, hmem]
    simp [resolve, walkaddr, hpage, hfault]

/-- Part of a page is overwritten. -/
theorem Resolved.write (h : m.Resolved v m' pg) (hcan : m.CanWrite v)
    {off n : ℕ} (hpos : 0 < n) (hn : off + n ≤ PGSIZE) (src : ℕ → UInt8) :
  m.Copied (m'.setPage v { pg with data := pg.data.patch off n src }) (v * PGSIZE + off)
      (v * PGSIZE + off + n)
    ∧ ∀ i < n, (m'.setPage v { pg with data := pg.data.patch off n src }).byte (v * PGSIZE + off + i)
        = src i
  := by
  have hmod : ∀ i < PGSIZE, (v * PGSIZE + i) / PGSIZE = v ∧ (v * PGSIZE + i) % PGSIZE = i := by
    intro i hi
    unfold PGSIZE at hi ⊢
    omega
  refine ⟨⟨h.sz, ?_, ?_, ?_⟩, ?_⟩
  · intro u
    refine Iff.trans ?_ (h.canWrite u)
    apply canWrite_setPage ((h.canWrite v).mpr hcan)
    · exact h.user
    · exact h.writable
  · intro u hu
    have hne : u ≠ v := by
      rintro rfl
      unfold PGSIZE at *
      omega
    exact (update_of_ne hne _ _).trans (h.other u hne)
  · intro a ha
    rw [byte_setPage]
    split_ifs with hpage
    · have haddr : v * PGSIZE + a % PGSIZE = a := by
        rw [← hpage]
        exact Nat.div_add_mod' a PGSIZE
      rw [Bytes.byteAt_patch_of_not_mem _ _ (by omega), ← h.byte a, UserMem.byte, hpage, h.page]
    · exact h.byte a
  · intro i hi
    obtain ⟨hdiv, hrest⟩ := hmod (off + i) (by omega)
    rw [byte_setPage, Nat.add_assoc, if_pos hdiv, hrest]
    exact Bytes.byteAt_patch _ _ (by omega) hi

/-! ### The loop -/

section

variable {dstva : ℕ} {src : List UInt8}

/-- Without the first page nothing is written. -/
theorem copyout_of_not_canWrite (hsrc : src ≠ []) (hcan : ¬ m.CanWrite (dstva / PGSIZE)) :
  m.copyout dstva src = (m, false)
  := by
  rw [copyout, dif_neg hsrc]
  by_cases hv : MAXVA ≤ PGROUNDDOWN dstva
  · rw [if_pos hv]
  · rw [if_neg hv]
    unfold PGROUNDDOWN at hv ⊢
    obtain hnone | ⟨pg, hsome, hpage, hwritable⟩ :=
      resolve_of_not_canWrite (Nat.lt_of_not_le hv) hcan
    · rw [hnone]
    · rw [hsome]
      simp only [mul_div_PGSIZE, hpage, hwritable]
      rfl

/-- The first page is written, and the rest is copied to the next ones. -/
theorem copyout_of_resolved (hsrc : src ≠ []) (hcan : m.CanWrite (dstva / PGSIZE))
    (h : m.Resolved (dstva / PGSIZE) m' pg) {n : ℕ} (hn : n = min (PGSIZE - dstva % PGSIZE) src.length) :
  m.copyout dstva src
    = (m'.setPage (dstva / PGSIZE)
          { pg with data := pg.data.patch (dstva % PGSIZE) n (fun k => src.getD k 0) }).copyout
        (dstva / PGSIZE * PGSIZE + PGSIZE) (src.drop n)
  := by
  have hoff : dstva - dstva / PGSIZE * PGSIZE = dstva % PGSIZE := by
    have := Nat.div_add_mod' dstva PGSIZE
    omega
  rw [copyout, dif_neg hsrc]
  unfold PGROUNDDOWN
  rw [if_neg (Nat.not_le_of_lt hcan.1), h.found]
  simp only [mul_div_PGSIZE, h.page, h.writable, if_true, hoff, ← hn]

end

/-- The induction of the loop: nothing is left, the page cannot be written, or `n` bytes go to the
page and the rest to the next ones. -/
theorem copyout_induction {motive : UserMem → ℕ → List UInt8 → UserMem × Bool → Prop}
    (hnil : ∀ m dstva, motive m dstva [] (m, true))
    (hstop : ∀ m dstva src, src ≠ [] → ¬ m.CanWrite (dstva / PGSIZE) →
      motive m dstva src (m, false))
    (hpage : ∀ m m₁ dstva n src r, 0 < n → n ≤ src.length → m.CanWrite (dstva / PGSIZE) →
      (∀ a, dstva ≤ a → a < dstva + n → a / PGSIZE = dstva / PGSIZE) →
      m.Copied m₁ dstva (dstva + n) → (∀ i < n, m₁.byte (dstva + i) = src.getD i 0) →
      motive m₁ (dstva + n) (src.drop n) r → motive m dstva src r)
    (m : UserMem) (dstva : ℕ) (src : List UInt8) :
  motive m dstva src (m.copyout dstva src)
  := by
  induction hlen : src.length using Nat.strong_induction_on generalizing m dstva src with
  | _ len ih =>
    subst hlen
    by_cases hsrc : src = []
    · subst hsrc
      rw [copyout, dif_pos rfl]
      exact hnil m dstva
    have hpos : 0 < src.length := List.length_pos_of_ne_nil hsrc
    by_cases hcan : m.CanWrite (dstva / PGSIZE)
    · obtain ⟨m', pg, h⟩ := exists_resolved hcan
      obtain ⟨n, hn⟩ : ∃ n, n = min (PGSIZE - dstva % PGSIZE) src.length := ⟨_, rfl⟩
      have hoff : dstva % PGSIZE < PGSIZE := Nat.mod_lt _ (by decide)
      have haddr := Nat.div_add_mod' dstva PGSIZE
      have hfits : dstva % PGSIZE + n ≤ PGSIZE := by omega
      obtain ⟨hcopied, hbytes⟩ := h.write hcan (by omega) hfits (fun k => src.getD k 0)
      rw [haddr] at hcopied hbytes
      rw [copyout_of_resolved hsrc hcan h hn]
      generalize m'.setPage _ _ = m₁ at hcopied hbytes ⊢
      refine hpage m m₁ dstva n src _ (by omega) (by omega) hcan ?_ hcopied hbytes ?_
      · intro a ha ha'
        unfold PGSIZE at *
        omega
      · by_cases hlast : n = src.length
        · rw [hlast, List.drop_length, copyout, dif_pos rfl]
          exact hnil _ _
        · have hnext : dstva / PGSIZE * PGSIZE + PGSIZE = dstva + n := by omega
          rw [hnext]
          exact ih _ (by rw [List.length_drop]; omega) m₁ (dstva + n) (src.drop n) rfl
    · rw [copyout_of_not_canWrite hsrc hcan]
      exact hstop m dstva src hsrc hcan

theorem copyout_spec (m : UserMem) (dstva : ℕ) (src : List UInt8) :
  m.Copied (m.copyout dstva src).1 dstva (dstva + src.length)
    ∧ ((m.copyout dstva src).2 = true
        ↔ ∀ a, dstva ≤ a → a < dstva + src.length → m.CanWrite (a / PGSIZE))
    ∧ ((m.copyout dstva src).2 = true →
        ∀ i < src.length, (m.copyout dstva src).1.byte (dstva + i) = src.getD i 0)
  := by
  induction m, dstva, src using copyout_induction with
  | hnil m dstva =>
    refine ⟨Copied.refl m _ _, iff_of_true rfl ?_, ?_⟩
    · intro a ha ha'
      exact absurd ha (Nat.not_le_of_lt ha')
    · intro _ i hi
      cases hi
  | hstop m dstva src hsrc hcan =>
    refine ⟨Copied.refl m _ _, iff_of_false Bool.false_ne_true ?_, nofun⟩
    intro hall
    have hpos : 0 < src.length := List.length_pos_of_ne_nil hsrc
    exact hcan (hall _ (Nat.le_refl _) (by omega))
  | hpage m m₁ dstva n src r hpos hn hcan hfirst hcopied hbytes ih =>
    obtain ⟨hcopied', hok, hbytes'⟩ := ih
    have hrest : dstva + n + (src.drop n).length = dstva + src.length := by
      rw [List.length_drop]
      omega
    rw [hrest] at hcopied' hok
    refine ⟨?_, ?_, ?_⟩
    · exact (hcopied.mono (Nat.le_refl _) (by omega)).trans
        (hcopied'.mono (Nat.le_add_right _ _) (Nat.le_refl _))
    · rw [hok]
      constructor
      · intro hall a ha ha'
        by_cases han : a < dstva + n
        · rw [hfirst a ha han]
          exact hcan
        · exact (hcopied.canWrite _).mp (hall a (Nat.le_of_not_lt han) ha')
      · intro hall a ha ha'
        exact (hcopied.canWrite _).mpr (hall a (by omega) ha')
    · intro hsuccess i hi
      by_cases hin : i < n
      · rw [hcopied'.byte _ (by omega), hbytes i hin]
      · have hbyte := hbytes' hsuccess (i - n) (by rw [List.length_drop]; omega)
        rw [Nat.add_assoc, Nat.add_sub_cancel' (Nat.le_of_not_lt hin)] at hbyte
        rw [hbyte]
        simp [List.getD_eq_getElem?_getD, List.getElem?_drop,
          Nat.add_sub_cancel' (Nat.le_of_not_lt hin)]

/-- The first bytes of the source have been written, and only pages that can be written have
changed. -/
structure Written (m m' : UserMem) (dstva : ℕ) (src : List UInt8) (k : ℕ) : Prop where
  byte : ∀ a, m'.byte a = if dstva ≤ a ∧ a < dstva + k then src.getD (a - dstva) 0 else m.byte a
  page : ∀ v, m'.page v ≠ m.page v → m.CanWrite v

theorem Written.none (m : UserMem) (dstva : ℕ) (src : List UInt8) : Written m m dstva src 0 where
  byte a := by rw [if_neg (by omega)]
  page _ h := absurd rfl h

/-- More bytes are written. -/
theorem Written.append {m m₁ m' : UserMem} {dstva n k : ℕ} {src : List UInt8}
    (h : Written m m₁ dstva src n) (hcan : ∀ v, m₁.CanWrite v ↔ m.CanWrite v)
    (h' : Written m₁ m' (dstva + n) (src.drop n) k) :
  Written m m' dstva src (n + k)
  where
  byte a := by
    rw [h'.byte, h.byte]
    by_cases hrest : dstva + n ≤ a ∧ a < dstva + n + k
    · have hsub : n + (a - (dstva + n)) = a - dstva := by omega
      rw [if_pos hrest, if_pos (by omega), List.getD_eq_getElem?_getD, List.getElem?_drop, hsub,
        List.getD_eq_getElem?_getD]
    · rw [if_neg hrest]
      by_cases hfirst : dstva ≤ a ∧ a < dstva + n
      · rw [if_pos hfirst, if_pos (by omega)]
      · rw [if_neg hfirst, if_neg (by omega)]
  page v hv := by
    by_cases h₁ : m₁.page v = m.page v
    · rw [← h₁] at hv
      exact (hcan v).mp (h'.page v hv)
    · exact h.page v h₁

/-- `copyout` writes a first part of the source, and all of it if it succeeds. -/
theorem copyout_written (m : UserMem) (dstva : ℕ) (src : List UInt8) :
  ∃ k ≤ src.length, m.Written (m.copyout dstva src).1 dstva src k
    ∧ ((m.copyout dstva src).2 = true → k = src.length)
  := by
  induction m, dstva, src using copyout_induction with
  | hnil m dstva => exact ⟨0, Nat.le_refl 0, Written.none m dstva [], fun _ => rfl⟩
  | hstop m dstva src _ _ => exact ⟨0, Nat.zero_le _, Written.none m dstva src, nofun⟩
  | hpage m m₁ dstva n src r hpos hn hcan hfirst hcopied hbytes ih =>
    obtain ⟨k, hk, hrest, hall⟩ := ih
    rw [List.length_drop] at hk hall
    have hwritten : m.Written m₁ dstva src n := by
      constructor
      · intro a
        by_cases ha : dstva ≤ a ∧ a < dstva + n
        · have hsub : dstva + (a - dstva) = a := by omega
          have hbyte := hbytes (a - dstva) (by omega)
          rw [hsub] at hbyte
          rw [if_pos ha, hbyte]
        · rw [if_neg ha]
          exact hcopied.byte a (by omega)
      · intro v hv
        have hin : ¬ ((v + 1) * PGSIZE ≤ dstva ∨ dstva + n ≤ v * PGSIZE) := mt (hcopied.page v) hv
        have hpage : v = dstva / PGSIZE := by
          rw [← hfirst (max dstva (v * PGSIZE)) (by omega) (by unfold PGSIZE at *; omega)]
          unfold PGSIZE at *
          omega
        rw [hpage]
        exact hcan
    refine ⟨n + k, by omega, hwritten.append hcopied.canWrite hrest, ?_⟩
    intro hok
    have := hall hok
    omega

end UserMem

end Xv6
