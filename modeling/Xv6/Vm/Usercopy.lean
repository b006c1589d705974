import Xv6.Vm.Fault

/-!
# Copies from user to kernel

`copyin` and `copyinstr` on an address space in memory.  `copyin` delivers the bytes of the
range, or of a first part of the range if it comes to a page that cannot be read, and maps
pages that were promised on its way.  `copyinstr` delivers a string with its zero byte, or all
bytes up to the limit or up to a page that is not mapped.  None of them panics, for any address
and any length.
-/

namespace Xv6.Uvm

open Assertion PtTree

variable {L : Link} {m : Prog.Mode} {α : Type} {A : Assertion ℕ PageData}
  {C : α → Assertion ℕ PageData} {pt tf va v : ℕ} {t : PtTree 2} {pa : ℕ → ℕ} {S S₁ S' : Space}
  {p : ProcMem} {pg : Page}

/-! ### Pages that have been mapped on the way -/

/-- Pages that were promised may have been mapped; all others are as they were. -/
structure Faulted (S S' : Space) : Prop where
  sz : S'.sz = S.sz
  page : ∀ v, S'.page v = S.page v ∨ S.page v = none ∧ S'.page v = some Page.zero

theorem Touched.faulted (h : Touched S v S') : Faulted S S' := by
  cases h with
  | same _ => exact ⟨rfl, fun _ => Or.inl rfl⟩
  | mapped hv hnone =>
    refine ⟨rfl, ?_⟩
    intro u
    by_cases hu : u = v
    · subst hu
      exact Or.inr ⟨hnone, Function.update_self u _ S.page⟩
    · exact Or.inl (Function.update_of_ne hu _ S.page)

namespace Faulted

theorem refl (S : Space) : Faulted S S := ⟨rfl, fun _ => Or.inl rfl⟩

theorem trans (h : Faulted S S₁) (h' : Faulted S₁ S') : Faulted S S' := by
  refine ⟨h'.sz.trans h.sz, ?_⟩
  intro v
  rcases h'.page v with hv' | ⟨hnone', hv'⟩
  · rw [hv']
    exact h.page v
  · rcases h.page v with hv | ⟨_, hv⟩
    · exact Or.inr ⟨hv ▸ hnone', hv'⟩
    · rw [hv] at hnone'
      cases hnone'

/-- A user sees no difference. -/
theorem byte (h : Faulted S S') (a : ℕ) : S'.byte a = S.byte a := by
  unfold Space.byte
  rcases h.page (a / PGSIZE) with hv | ⟨hnone, hv⟩
  · rw [hv]
  · rw [hv, hnone]
    simp only [Page.zero, pageBytes_memset_zero, Bytes.byteAt]
    split_ifs <;> rfl

theorem readable (h : Faulted S S') (v : ℕ) : S'.Readable v ↔ S.Readable v := by
  unfold Space.Readable
  rcases h.page v with hv | ⟨hnone, hv⟩
  · rw [hv, h.sz]
  · rw [hv, hnone]
    refine iff_of_true (by decide : Page.zero.User) ?_
    simp only
    rw [← h.sz]
    apply S'.below
    rw [hv]
    exact Option.some_ne_none _

theorem page_none (h : Faulted S S') (hv : S'.page v = none) : S.page v = none := by
  rcases h.page v with hpage | ⟨hnone, _⟩
  · rw [← hpage, hv]
  · exact hnone

end Faulted

/-! ### Addresses in a page -/

section

variable {a len n i : ℕ}

/-- The bytes of a range that lie in its first page. -/
theorem chunk_pos (hlen : 0 < len) : 0 < min (PGSIZE - a % PGSIZE) len := by
  have := Nat.mod_lt a (by decide : 0 < PGSIZE)
  omega

theorem chunk_div (hi : i < min (PGSIZE - a % PGSIZE) len) :
  (a + i) / PGSIZE = a / PGSIZE ∧ (a + i) % PGSIZE = a % PGSIZE + i
  := by
  have hlt : i < PGSIZE - a % PGSIZE := lt_of_lt_of_le hi (min_le_left _ _)
  unfold PGSIZE at hlt ⊢
  omega

theorem sub_PGROUNDDOWN (a : ℕ) : a - PGROUNDDOWN a = a % PGSIZE := by
  unfold PGROUNDDOWN PGSIZE
  omega

/-- The rest of a range begins at the next page. -/
theorem chunk_next (h : min (PGSIZE - a % PGSIZE) len < len) :
  PGROUNDDOWN a + PGSIZE = a + min (PGSIZE - a % PGSIZE) len
  := by
  unfold PGROUNDDOWN PGSIZE at *
  omega

/-- The page after one that can be accessed. -/
theorem next_mod (h : S.Readable (a / PGSIZE)) :
  (PGROUNDDOWN a + PGSIZE) % 2 ^ 64 = PGROUNDDOWN a + PGSIZE
  := by
  apply Nat.mod_eq_of_lt
  have hlt : PGROUNDDOWN a < TRAPFRAME := lt_of_lt_of_le (Space.readable_lt h) S.sz_le
  unfold TRAPFRAME TRAMPOLINE MAXVA PGSIZE at hlt
  unfold PGSIZE
  omega

end

/-! ### `copyin` -/

/-- The bytes of a range. -/
def Space.bytes (S : Space) (a n : ℕ) : List UInt8 := (List.range n).map fun i => S.byte (a + i)

theorem Space.bytes_add (S : Space) (a n k : ℕ) :
  S.bytes a (n + k) = S.bytes a n ++ S.bytes (a + n) k
  := by
  unfold Space.bytes
  rw [List.range_add, List.map_append, List.map_map]
  congr 1
  apply List.map_congr_left
  intro i _
  simp only [Function.comp_apply, Nat.add_assoc]

/-- What `copyin` has delivered. -/
structure CopiedIn (oom : Prop) (S S' : Space) (srcva len : ℕ) (r : ℤ) (bs : List UInt8) : Prop where
  faulted : Faulted S S'
  bytes : bs = S.bytes srcva bs.length
  readable : ∀ i < bs.length, S.Readable ((srcva + i) / PGSIZE)
  result : r = 0 ∧ bs.length = len
    ∨ r = -1 ∧ bs.length < len ∧ (¬ S.Readable ((srcva + bs.length) / PGSIZE)
      ∨ S.page ((srcva + bs.length) / PGSIZE) = none ∧ oom)

/-- The part of a page that a user reads. -/
theorem slicePage_eq {a n : ℕ} (h : Faulted S S₁) (hpg : S₁.page (a / PGSIZE) = some pg)
    (hn : ∀ i < n, (a + i) / PGSIZE = a / PGSIZE ∧ (a + i) % PGSIZE = a % PGSIZE + i) :
  slicePage pg.data (a % PGSIZE) n = S.bytes a n
  := by
  apply List.map_congr_left
  intro i hi
  obtain ⟨hdiv, hmod⟩ := hn i (List.mem_range.mp hi)
  rw [← h.byte, Space.byte, hdiv, hpg, hmod]

@[simp]
theorem length_slicePage (f : PageData) (off n : ℕ) : (slicePage f off n).length = n := by
  simp [slicePage]

namespace CopiedIn

variable {oom : Prop} {srcva len : ℕ} {r : ℤ} {bs : List UInt8}

theorem nil (S : Space) (oom : Prop) (srcva : ℕ) : CopiedIn oom S S srcva 0 0 [] where
  faulted := Faulted.refl S
  bytes := rfl
  readable _ hi := absurd hi (Nat.not_lt_zero _)
  result := Or.inl ⟨rfl, rfl⟩

/-- The bytes in the first page, and then the rest. -/
theorem cons (hlen : 0 < len) (hreadable : S.Readable (srcva / PGSIZE))
    (htouched : Touched S (srcva / PGSIZE) S₁) (hpg : S₁.page (srcva / PGSIZE) = some pg)
    (h : CopiedIn oom S₁ S' (PGROUNDDOWN srcva + PGSIZE) (len - min (PGSIZE - srcva % PGSIZE) len) r bs) :
  CopiedIn oom S S' srcva len r
    (slicePage pg.data (srcva % PGSIZE) (min (PGSIZE - srcva % PGSIZE) len) ++ bs)
  := by
  have hpos := chunk_pos (a := srcva) hlen
  have hle : min (PGSIZE - srcva % PGSIZE) len ≤ len := min_le_right _ _
  have hdiv : ∀ i < min (PGSIZE - srcva % PGSIZE) len, _ := fun i hi => chunk_div (a := srcva) hi
  have hnext : bs ≠ [] ∨ min (PGSIZE - srcva % PGSIZE) len < len →
      PGROUNDDOWN srcva + PGSIZE = srcva + min (PGSIZE - srcva % PGSIZE) len := by
    intro hrest
    apply chunk_next
    rcases hrest with hne | hlt
    · have := List.length_pos_of_ne_nil hne
      rcases h.result with ⟨_, hr⟩ | ⟨_, hr, _⟩
      · omega
      · omega
    · exact hlt
  generalize min (PGSIZE - srcva % PGSIZE) len = n at *
  have hfaulted := htouched.faulted
  have hslice := slicePage_eq hfaulted hpg hdiv
  constructor
  · exact hfaulted.trans h.faulted
  · rw [List.length_append, length_slicePage, Space.bytes_add, hslice]
    congr 1
    by_cases hne : bs = []
    · rw [hne]
      rfl
    · rw [← hnext (Or.inl hne), h.bytes]
      unfold Space.bytes
      rw [List.length_map, List.length_range]
      simp only [hfaulted.byte]
  · intro i hi
    rw [List.length_append, length_slicePage] at hi
    by_cases hin : i < n
    · rw [(hdiv i hin).1]
      exact hreadable
    · have hne : bs ≠ [] := by
        rintro rfl
        simp only [List.length_nil] at hi
        omega
      have := h.readable (i - n) (by omega)
      rw [hnext (Or.inl hne), Nat.add_assoc, Nat.add_sub_cancel' (Nat.le_of_not_lt hin),
        hfaulted.readable] at this
      exact this
  · rw [List.length_append, length_slicePage]
    rcases h.result with ⟨hr, hlen'⟩ | ⟨hr, hlen', hwhy⟩
    · exact Or.inl ⟨hr, by omega⟩
    · right
      rw [hnext (Or.inr (by omega)), hfaulted.readable, Nat.add_assoc] at hwhy
      exact ⟨hr, by omega, hwhy.imp_right fun hw => ⟨hfaulted.page_none hw.1, hw.2⟩⟩

end CopiedIn

theorem copyinLoop_spec {srcva len k : ℕ} (hk : len ≤ k) (hM : Maps L tf t pa S.page)
    (hpt : p.pagetable = pt) (hsz : p.sz = S.sz) :
  Triple L.pool m (isTable pt t * (frames pa S.page * 1)) (copyinLoop L p pt k srcva len)
    (fun r => ex fun S' => fact (CopiedIn m.oom S S' srcva len r.1 r.2) * isSpace L pt tf S')
  := by
  induction k generalizing t pa S srcva len with
  | zero =>
    obtain rfl : len = 0 := Nat.le_zero.mp hk
    unfold copyinLoop
    rw [if_pos rfl]
    exact Triple.ret_space hM (CopiedIn.nil S m.oom srcva)
  | succ k ih =>
    unfold copyinLoop
    by_cases hlen : len = 0
    · subst hlen
      rw [if_pos rfl]
      exact Triple.ret_space hM (CopiedIn.nil S m.oom srcva)
    rw [if_neg hlen]
    have hpos := Nat.pos_of_ne_zero hlen
    have hchunk := chunk_pos (a := srcva) hpos
    apply Triple.userPage hM hpt hsz (rfl : PGROUNDDOWN srcva = srcva / PGSIZE * PGSIZE)
    · intro t' hwhy hM'
      rw [if_pos rfl]
      apply Triple.ret_space hM'
      exact ⟨Faulted.refl S, rfl, fun _ hi => absurd hi (Nat.not_lt_zero _),
        Or.inr ⟨rfl, hpos, hwhy⟩⟩
    · intro t' pa' S₁ pg hreadable htouched hpg _ hne hM'
      rw [if_neg hne]
      apply Triple.readPage hpg
      rw [sub_PGROUNDDOWN, next_mod hreadable]
      apply Triple.bind (ih (by omega) hM' (by rw [htouched.faulted.sz, hsz]))
      rintro ⟨r, bs⟩
      apply Triple.ex
      intro S'
      apply Triple.fact
      intro hrest
      apply Triple.ret
      apply le_ex S'
      exact le_fact_mul (hrest.cons hpos hreadable htouched hpg) (le_refl _)

theorem copyin_spec (L : Link) (m : Prog.Mode) (pt tf : ℕ) (S : Space) (srcva len : ℕ) :
  Triple L.pool m (isSpace L pt tf S) (copyin L ⟨pt, S.sz⟩ pt srcva len)
    (fun r => ex fun S' => fact (CopiedIn m.oom S S' srcva len r.1 r.2) * isSpace L pt tf S')
  := by
  rw [← mul_one (isSpace L pt tf S)]
  apply Triple.of_isSpace
  intro t pa hM
  exact copyinLoop_spec (Nat.le_refl len) hM rfl rfl

/-! ### `copyinstr` -/

/-- A user page is mapped there. -/
def Space.Present (S : Space) (v : ℕ) : Prop := ∃ pg, S.page v = some pg ∧ pg.User

theorem Space.Present.readable (h : S.Present v) : S.Readable v := by
  obtain ⟨pg, hpg, huser⟩ := h
  unfold Space.Readable
  rw [hpg]
  exact huser

/-- The bytes before the first zero byte, where `copyinstr` can read them. -/
def Space.Chars (S : Space) (a n : ℕ) : Prop :=
  ∀ i < n, S.Present ((a + i) / PGSIZE) ∧ S.byte (a + i) ≠ 0

/-- What `copyinstr` has delivered: a string with its zero byte, or all bytes up to the limit
or up to a page that is not mapped. -/
inductive CopiedStr (S : Space) (srcva max : ℕ) : ℤ → List UInt8 → Prop where
  | found (k : ℕ) (hk : k < max) (hchars : S.Chars srcva k)
      (hpresent : S.Present ((srcva + k) / PGSIZE)) (hzero : S.byte (srcva + k) = 0) :
      CopiedStr S srcva max 0 (S.bytes srcva (k + 1))
  | missing (k : ℕ) (hk : k ≤ max) (hchars : S.Chars srcva k)
      (hstop : k = max ∨ ¬ S.Present ((srcva + k) / PGSIZE)) :
      CopiedStr S srcva max (-1) (S.bytes srcva k)

/-- A string in a list of bytes. -/
theorem untilNull_bytes (S : Space) (a n : ℕ) :
  (∃ k < n, untilNull (S.bytes a n) = (S.bytes a (k + 1), true) ∧ S.byte (a + k) = 0
      ∧ ∀ i < k, S.byte (a + i) ≠ 0)
    ∨ untilNull (S.bytes a n) = (S.bytes a n, false) ∧ ∀ i < n, S.byte (a + i) ≠ 0
  := by
  induction n generalizing a with
  | zero => exact Or.inr ⟨rfl, fun _ hi => absurd hi (Nat.not_lt_zero _)⟩
  | succ n ih =>
    have hcons : ∀ k, S.bytes a (k + 1) = S.byte a :: S.bytes (a + 1) k := by
      intro k
      rw [Nat.add_comm k 1, Space.bytes_add]
      rfl
    rw [hcons, untilNull]
    by_cases hzero : S.byte a = 0
    · left
      refine ⟨0, Nat.succ_pos n, ?_, hzero, fun _ hi => absurd hi (Nat.not_lt_zero _)⟩
      rw [if_pos hzero, hcons, hzero]
      rfl
    · rw [if_neg hzero]
      have hshift : ∀ i, S.byte (a + (i + 1)) = S.byte (a + 1 + i) := by
        intro i
        rw [Nat.add_comm i 1, Nat.add_assoc]
      rcases ih (a + 1) with ⟨k, hk, hnull, hz, hne⟩ | ⟨hnull, hne⟩
      · left
        refine ⟨k + 1, Nat.succ_lt_succ hk, ?_, ?_, ?_⟩
        · rw [hnull, hcons (k + 1)]
        · rw [hshift, hz]
        · intro i hi
          cases i with
          | zero => exact hzero
          | succ i =>
            rw [hshift]
            exact hne i (Nat.lt_of_succ_lt_succ hi)
      · right
        refine ⟨by rw [hnull], ?_⟩
        intro i hi
        cases i with
        | zero => exact hzero
        | succ i =>
          rw [hshift]
          exact hne i (Nat.lt_of_succ_lt_succ hi)

/-- The bytes in the first page have no zero byte, and then the rest. -/
theorem CopiedStr.cons {srcva max n : ℕ} {r : ℤ} {bs : List UInt8} (hn : n ≤ max)
    (hchars : S.Chars srcva n) (h : CopiedStr S (srcva + n) (max - n) r bs) :
  CopiedStr S srcva max r (S.bytes srcva n ++ bs)
  := by
  have hall : ∀ k, S.Chars (srcva + n) k → S.Chars srcva (n + k) := by
    intro k hk i hi
    by_cases hin : i < n
    · exact hchars i hin
    · have := hk (i - n) (by omega)
      rwa [Nat.add_assoc, Nat.add_sub_cancel' (Nat.le_of_not_lt hin)] at this
  cases h with
  | found k hk hchars' hpresent hzero =>
    rw [← Space.bytes_add, ← Nat.add_assoc]
    rw [Nat.add_assoc] at hpresent hzero
    exact .found (n + k) (by omega) (hall k hchars') hpresent hzero
  | missing k hk hchars' hstop =>
    rw [← Space.bytes_add]
    rw [Nat.add_assoc] at hstop
    exact .missing (n + k) (by omega) (hall k hchars') (hstop.imp_left fun h => by omega)

theorem copyinstrLoop_spec {srcva max k : ℕ} (hk : max ≤ k) (hM : Maps L tf t pa S.page) :
  Triple L.pool m (isTable pt t * (frames pa S.page * 1)) (copyinstrLoop pt k srcva max)
    (fun r => fact (CopiedStr S srcva max r.1 r.2) * (isTable pt t * (frames pa S.page * 1)))
  := by
  induction k generalizing srcva max with
  | zero =>
    obtain rfl : max = 0 := Nat.le_zero.mp hk
    unfold copyinstrLoop
    rw [if_pos rfl]
    apply Triple.ret
    exact le_fact_mul (.missing 0 (Nat.le_refl 0) (fun _ hi => absurd hi (Nat.not_lt_zero _))
      (Or.inl rfl)) (le_refl _)
  | succ k ih =>
    unfold copyinstrLoop
    by_cases hmax : max = 0
    · subst hmax
      rw [if_pos rfl]
      apply Triple.ret
      exact le_fact_mul (.missing 0 (Nat.le_refl 0) (fun _ hi => absurd hi (Nat.not_lt_zero _))
        (Or.inl rfl)) (le_refl _)
    rw [if_neg hmax]
    have hpos := Nat.pos_of_ne_zero hmax
    have hchunk := chunk_pos (a := srcva) hpos
    have hpage : PGROUNDDOWN srcva / PGSIZE = srcva / PGSIZE := Nat.mul_div_cancel _ (by decide)
    apply Triple.walkaddr hM
    · intro pg _ hpg huser hne
      rw [hpage] at hpg hne ⊢
      have hpresent : S.Present (srcva / PGSIZE) := ⟨pg, hpg, huser⟩
      rw [if_neg hne]
      apply Triple.readPage hpg
      have hdiv : ∀ i < min (PGSIZE - srcva % PGSIZE) max, _ := fun i hi => chunk_div (a := srcva) hi
      have hle : min (PGSIZE - srcva % PGSIZE) max ≤ max := min_le_right _ _
      rw [sub_PGROUNDDOWN, slicePage_eq (Faulted.refl S) hpg hdiv]
      have hall : ∀ j ≤ min (PGSIZE - srcva % PGSIZE) max, (∀ i < j, S.byte (srcva + i) ≠ 0) →
          S.Chars srcva j := by
        intro j hj hbytes i hi
        refine ⟨?_, hbytes i hi⟩
        rw [(hdiv i (by omega)).1]
        exact hpresent
      rcases untilNull_bytes S srcva (min (PGSIZE - srcva % PGSIZE) max) with
        ⟨j, hj, hnull, hzero, hbytes⟩ | ⟨hnull, hbytes⟩
      · rw [hnull, if_pos rfl]
        apply Triple.ret
        refine le_fact_mul (.found j (by omega) (hall j (by omega) hbytes) ?_ hzero) (le_refl _)
        rw [(hdiv j hj).1]
        exact hpresent
      · have hchars := hall _ (Nat.le_refl _) hbytes
        rw [hnull, if_neg Bool.false_ne_true, next_mod hpresent.readable]
        apply Triple.bind (ih (by omega))
        rintro ⟨r, bs⟩
        apply Triple.fact
        intro hrest
        apply Triple.ret
        refine le_fact_mul ?_ (le_refl _)
        by_cases hlast : min (PGSIZE - srcva % PGSIZE) max = max
        · rw [hlast, Nat.sub_self] at hrest
          rw [hlast] at hchars ⊢
          apply CopiedStr.cons (Nat.le_refl max) hchars
          rw [Nat.sub_self]
          cases hrest with
          | found j hj => exact absurd hj (Nat.not_lt_zero j)
          | missing j hj =>
            obtain rfl := Nat.le_zero.mp hj
            exact .missing 0 (Nat.le_refl 0) (fun _ hi => absurd hi (Nat.not_lt_zero _)) (Or.inl rfl)
        · rw [chunk_next (lt_of_le_of_ne hle hlast)] at hrest
          exact hrest.cons hle hchars
    · intro hhidden
      rw [if_pos rfl]
      apply Triple.ret
      refine le_fact_mul (.missing 0 (Nat.zero_le max) (fun _ hi => absurd hi (Nat.not_lt_zero _))
        (Or.inr ?_)) (le_refl _)
      rintro ⟨pg, hpg, huser⟩
      rw [Nat.add_zero, ← hpage] at hpg
      exact hhidden pg hpg huser

theorem copyinstr_spec (L : Link) (m : Prog.Mode) (pt tf : ℕ) (S : Space) (srcva max : ℕ) :
  Triple L.pool m (isSpace L pt tf S) (copyinstr pt srcva max)
    (fun r => fact (CopiedStr S srcva max r.1 r.2) * isSpace L pt tf S)
  := by
  have hone : isSpace L pt tf S = isSpace L pt tf S * 1 := (mul_one _).symm
  rw [hone]
  apply Triple.of_isSpace
  intro t pa hM
  apply (copyinstrLoop_spec (Nat.le_refl max) hM).post
  intro r
  exact mul_le_mul_right (le_isSpace hM) _

end Xv6.Uvm
