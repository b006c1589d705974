import Xv6.Vm.Confined

/-!
# Strings that `copyin` and `copyinstr` see

`copyinstr` looks at pages that are mapped and never maps one that was promised, as `copyin`
does.  So the two see the same strings exactly if no string ends in a page that has been promised
and is not mapped yet; such a page begins with a zero byte.
-/

namespace Xv6.Uvm

open Assertion

variable {L : Link} {pt tf a k max : ℕ} {S S' : Space} {s : Store ℕ PageData}
  {R : Assertion ℕ PageData} {bs : List UInt8}

/-- `copyin` of `k + 1` bytes succeeds and delivers `bs`, whose first zero byte is the last one. -/
def StringAt (L : Link) (p : ProcMem) (s : Store ℕ PageData) (a k : ℕ) (bs : List UInt8) : Prop :=
  (∃ s', (copyin L p p.pagetable a (k + 1)).exec s = some ((0, bs), s'))
    ∧ bs[k]? = some 0 ∧ ∀ i < k, bs[i]? ≠ some 0

/-- `copyinstr` finds the string that `copyin` sees, and fails if there is none. -/
structure SeesStrings (L : Link) (p : ProcMem) (s : Store ℕ PageData) (a max : ℕ) : Prop where
  found : ∀ k < max, ∀ bs, StringAt L p s a k bs →
    ∃ s', (copyinstr p.pagetable a max).exec s = some ((0, bs), s')
  missing : (∀ k < max, ∀ bs, ¬ StringAt L p s a k bs) →
    ∃ bs s', (copyinstr p.pagetable a max).exec s = some ((-1, bs), s')

/-- No string that there is memory to read ends in a page that has been promised and is not
mapped. -/
def MappedStrings (L : Link) (s : Store ℕ PageData) (pt : ℕ) (S : Space) (a max : ℕ) : Prop :=
  ∀ k < max, (copyin L ⟨pt, S.sz⟩ pt a (k + 1)).Ample s → (∀ i ≤ k, S.Readable ((a + i) / PGSIZE)) → 
    (∀ i < k, S.byte (a + i) ≠ 0) → S.byte (a + k) = 0 → S.page ((a + k) / PGSIZE) ≠ none

/-! ### The two functions on the machine -/

theorem exec_copyinstr (hs : s.Has L.pool (isSpace L pt tf S * R)) (a max : ℕ) :
  ∃ r bs s', (copyinstr pt a max).exec s = some ((r, bs), s') ∧ CopiedStr S a max r bs
  := by
  have hspec := copyinstr_spec L { oom := True, panics := False } pt tf S a max
  obtain ⟨⟨r, bs⟩, s', hexec, h', hS, _⟩ := hspec.returns not_false hs (Or.inl trivial)
  rw [mul_assoc, fact_mul_iff] at hS
  exact ⟨r, bs, s', hexec, hS.1⟩

@[simp]
theorem length_bytes (S : Space) (a n : ℕ) : (S.bytes a n).length = n := by
  simp [Space.bytes]

theorem getElem?_bytes (S : Space) (a : ℕ) {n i : ℕ} (hi : i < n) :
  (S.bytes a n)[i]? = some (S.byte (a + i))
  := by
  simp [Space.bytes, hi]

/-- A page with a byte that is not zero is mapped. -/
theorem page_ne_none_of_byte (h : S.byte a ≠ 0) : S.page (a / PGSIZE) ≠ none := by
  intro hnone
  apply h
  unfold Space.byte
  rw [hnone]

theorem Space.Readable.present {v : ℕ} (h : S.Readable v) (hv : S.page v ≠ none) : S.Present v := by
  obtain ⟨pg, hpg⟩ := Option.ne_none_iff_exists'.mp hv
  unfold Space.Readable at h
  rw [hpg] at h
  exact ⟨pg, hpg, h⟩

/-- The string that `copyin` sees, in the address space. -/
theorem StringAt.bytes (hs : s.Has L.pool (isSpace L pt tf S * R))
    (h : StringAt L ⟨pt, S.sz⟩ s a k bs) :
  bs = S.bytes a (k + 1) ∧ (∀ i ≤ k, S.Readable ((a + i) / PGSIZE)) ∧ S.byte (a + k) = 0
    ∧ ∀ i < k, S.byte (a + i) ≠ 0
  := by
  obtain ⟨⟨s₁, hexec⟩, hzero, hchars⟩ := h
  obtain ⟨r, bs', s', S', hexec', _, hcopied⟩ := exec_copyin hs a (k + 1)
  obtain ⟨hr, hs'⟩ := Prod.mk.inj (Option.some.inj (hexec'.symm.trans hexec))
  obtain ⟨rfl, rfl⟩ := Prod.mk.inj hr
  rcases hcopied.result with ⟨_, hlen⟩ | ⟨hneg, _⟩
  · have hbytes := hcopied.bytes
    have hreadable := hcopied.readable
    rw [hlen] at hbytes hreadable
    rw [hbytes] at hzero hchars
    rw [getElem?_bytes S a (Nat.lt_succ_self k)] at hzero
    refine ⟨hbytes, fun i hi => hreadable i (Nat.lt_succ_of_le hi), Option.some.inj hzero, ?_⟩
    intro i hi hbyte
    apply hchars i hi
    rw [getElem?_bytes S a (Nat.lt_succ_of_lt hi), hbyte]
  · cases hneg

/-- A string in the address space is one that `copyin` sees, if it is not refused memory. -/
theorem stringAt_of_bytes (hs : s.Has L.pool (isSpace L pt tf S * R))
    (hreadable : ∀ i ≤ k, S.Readable ((a + i) / PGSIZE)) (hzero : S.byte (a + k) = 0)
    (hchars : ∀ i < k, S.byte (a + i) ≠ 0)
    (hmem : (∀ i ≤ k, S.page ((a + i) / PGSIZE) ≠ none)
      ∨ (copyin L ⟨pt, S.sz⟩ pt a (k + 1)).Ample s) :
  StringAt L ⟨pt, S.sz⟩ s a k (S.bytes a (k + 1))
  := by
  obtain ⟨r, bs, s', S', hexec, _, hcopied⟩ := exec_copyin hs a (k + 1)
  rcases hcopied.result with ⟨rfl, hlen⟩ | ⟨_, hlt, hnot | ⟨hnone, hrefused⟩⟩
  · have hbytes := hcopied.bytes
    rw [hlen] at hbytes
    subst hbytes
    refine ⟨⟨s', hexec⟩, ?_, ?_⟩
    · rw [getElem?_bytes S a (Nat.lt_succ_self k), hzero]
    · intro i hi hbyte
      rw [getElem?_bytes S a (Nat.lt_succ_of_lt hi)] at hbyte
      exact hchars i hi (Option.some.inj hbyte)
  · exact absurd (hreadable _ (Nat.le_of_lt_succ hlt)) hnot
  · rcases hmem with hmapped | hample
    · exact absurd hnone (hmapped _ (Nat.le_of_lt_succ hlt))
    · exact absurd hample hrefused

/-! ### The two functions compared -/

/-- `copyinstr` finds a string that lies in pages that are mapped. -/
theorem CopiedStr.eq_found {r : ℤ} (h : CopiedStr S a max r bs) (hk : k < max)
    (hpresent : ∀ i ≤ k, S.Present ((a + i) / PGSIZE)) (hzero : S.byte (a + k) = 0)
    (hchars : ∀ i < k, S.byte (a + i) ≠ 0) :
  r = 0 ∧ bs = S.bytes a (k + 1)
  := by
  cases h with
  | found j hj hchars' _ hzero' =>
    have hjk : j = k := by
      rcases Nat.lt_trichotomy j k with hlt | heq | hgt
      · exact absurd hzero' (hchars j hlt)
      · exact heq
      · exact absurd hzero (hchars' k hgt).2
    rw [hjk]
    exact ⟨rfl, rfl⟩
  | missing j hj hchars' hstop =>
    rcases Nat.lt_or_ge k j with hlt | hge
    · exact absurd hzero (hchars' k hlt).2
    · rcases hstop with rfl | hstop
      · omega
      · exact absurd (hpresent j hge) hstop

/-- `copyin` is not refused memory for a string that it sees. -/
theorem StringAt.ample {p : ProcMem} (h : StringAt L p s a k bs) :
  (copyin L p p.pagetable a (k + 1)).Ample s
  := by
  obtain ⟨⟨s', hexec⟩, _⟩ := h
  rcases (copyinLoop_refused L p p.pagetable _ a (k + 1)).exec hexec with hample | hneg
  · exact hample
  · cases hneg

/-- `copyinstr` sees the strings that `copyin` sees if and only if none of them ends in a page
that is not mapped. -/
theorem seesStrings_iff_mapped (hs : s.Has L.pool (isSpace L pt tf S * R)) (srcva max : Word) :
  SeesStrings L ⟨pt, S.sz⟩ s srcva.toNat max.toNat
    ↔ MappedStrings L s pt S srcva.toNat max.toNat
  := by
  obtain ⟨r, bs, s', hexec, hstr⟩ := exec_copyinstr hs srcva.toNat max.toNat
  constructor
  · intro hsees k hk hample hreadable hchars hzero
    have hstring := stringAt_of_bytes hs hreadable hzero hchars (Or.inr hample)
    obtain ⟨s₂, hexec₂⟩ := hsees.found k hk _ hstring
    obtain ⟨hr, _⟩ := Prod.mk.inj (Option.some.inj (hexec.symm.trans hexec₂))
    obtain ⟨rfl, hbs⟩ := Prod.mk.inj hr
    cases hstr with
    | found j hj _ hpresent _ =>
      have hlen := congrArg List.length hbs
      rw [length_bytes, length_bytes] at hlen
      obtain rfl : j = k := by omega
      obtain ⟨pg, hpg, _⟩ := hpresent
      rw [hpg]
      exact Option.some_ne_none pg
  · intro hmapped
    constructor
    · intro k hk bs' hstring
      obtain ⟨rfl, hreadable, hzero, hchars⟩ := hstring.bytes hs
      have hpresent : ∀ i ≤ k, S.Present ((srcva.toNat + i) / PGSIZE) := by
        intro i hi
        apply (hreadable i hi).present
        rcases Nat.lt_or_eq_of_le hi with hlt | rfl
        · exact page_ne_none_of_byte (hchars i hlt)
        · exact hmapped i hk hstring.ample hreadable hchars hzero
      obtain ⟨rfl, rfl⟩ := hstr.eq_found hk hpresent hzero hchars
      exact ⟨s', hexec⟩
    · intro hnone
      cases hstr with
      | found k hk hchars hpresent hzero =>
        have hall : ∀ i ≤ k, S.Present ((srcva.toNat + i) / PGSIZE) := by
          intro i hi
          rcases Nat.lt_or_eq_of_le hi with hlt | rfl
          · exact (hchars i hlt).1
          · exact hpresent
        apply absurd _ (hnone k hk (S.bytes srcva.toNat (k + 1)))
        apply stringAt_of_bytes hs (fun i hi => (hall i hi).readable) hzero fun i hi => (hchars i hi).2
        left
        intro i hi
        obtain ⟨pg, hpg, _⟩ := hall i hi
        rw [hpg]
        exact Option.some_ne_none pg
      | missing k hk hchars hstop => exact ⟨_, s', hexec⟩

/-- A string that has been written before it is read. -/
theorem seesStrings_written :
  ∃ (s : Store ℕ PageData) (S : Space), s.Has smallLink.pool (isSpace smallLink smallTable 0 S * 1)
    ∧ S.bytes 0 2 = [104, 0] ∧ SeesStrings smallLink ⟨smallTable, S.sz⟩ s 0 2
  := by
  have hlazy : smallProc.Has smallLink.pool (isSpace smallLink smallTable 0 lazySpace * 1) :=
    smallProc_has fun _ => rfl
  obtain ⟨r, s, S, hexec, hs, hcopied⟩ := exec_copyout hlazy 0 [104, 0]
  have hresult : ((copyout smallLink ⟨smallTable, lazySpace.sz⟩ smallTable 0 [104, 0]).exec
      smallProc).map Prod.fst = some 0 := by
    decide
  rw [hexec] at hresult
  obtain rfl : r = 0 := Option.some.inj hresult
  obtain ⟨k, _, hk, hbyte⟩ := (hcopied.confined (by decide) id
    ((copyoutLoop_refused smallLink _ smallTable _ 0 [104, 0]).exec hexec)).bytes
  obtain rfl := hk rfl
  have h0 : S.byte 0 = 104 := hbyte 0
  have h1 : S.byte 1 = 0 := hbyte 1
  refine ⟨s, S, hs, ?_, (seesStrings_iff_mapped hs 0#64 2#64).mpr ?_⟩
  · simp only [Space.bytes, List.map_cons, List.range, List.range.loop, List.map_nil, h0, h1]
  · intro k hk _ _ _ _
    have hpage : S.page (0 / PGSIZE) ≠ none := by
      apply page_ne_none_of_byte
      rw [h0]
      decide
    obtain rfl | rfl : k = 0 ∨ k = 1 := by
      have hk' : k < 2 := hk
      omega
    · exact hpage
    · exact hpage

/-- The empty string at the beginning of a page that has been promised: `copyin` maps the page and
delivers it, and `copyinstr` fails. -/
theorem copyinstr_misses_lazy :
  smallProc.Has smallLink.pool (isSpace smallLink smallTable 0 lazySpace * 1)
    ∧ StringAt smallLink ⟨smallTable, lazySpace.sz⟩ smallProc 0 0 [0]
    ∧ ((copyinstr smallTable 0 1).exec smallProc).map Prod.fst = some (-1, [])
    ∧ ¬ SeesStrings smallLink ⟨smallTable, lazySpace.sz⟩ smallProc 0 1
  := by
  have hstring : StringAt smallLink ⟨smallTable, lazySpace.sz⟩ smallProc 0 0 [0] := by
    have hexec : ((copyin smallLink ⟨smallTable, lazySpace.sz⟩ smallTable 0 1).exec smallProc).map
        Prod.fst = some (0, [0]) := by
      decide
    obtain ⟨⟨_, s'⟩, hexec, rfl⟩ := Option.map_eq_some_iff.mp hexec
    exact ⟨⟨s', hexec⟩, rfl, fun i hi => absurd hi (Nat.not_lt_zero i)⟩
  have hmiss : ((copyinstr smallTable 0 1).exec smallProc).map Prod.fst = some (-1, []) := by
    decide
  refine ⟨smallProc_has fun _ => rfl, hstring, hmiss, ?_⟩
  intro hsees
  obtain ⟨s', hexec⟩ := hsees.found 0 Nat.one_pos _ hstring
  rw [hexec] at hmiss
  cases hmiss

end Xv6.Uvm
