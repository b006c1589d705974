import Xv6.Vm.Mapping
import Xv6.Vm.User

/-!
# Address spaces

The memory of a process, as a user sees it: its size, and for every page number the flags
and the contents of the page, if there is one.  Only pages below the size are mapped; below
the size there may be pages that have been promised and are not mapped.  `isSpace` says that
an address space is in memory: there is a page table with an entry for each of the pages, the
trapframe and the trampoline and no other valid entry, and each of the pages is owned.
-/

namespace Xv6.Uvm

open Assertion PtTree Function

/-- The number of pages below the trapframe. -/
@[irreducible]
def UPN : ℕ := TRAPFRAME / PGSIZE

theorem UPN_add_two : UPN + 2 = NVPN := by
  unfold UPN
  decide

theorem UPN_lt_NPTE : UPN + 2 < NPTE := by
  rw [UPN_add_two]
  decide

theorem lt_UPN_iff {v : ℕ} : v * PGSIZE < TRAPFRAME ↔ v < UPN := by
  have hmul : TRAPFRAME = UPN * PGSIZE := by
    unfold UPN
    decide
  rw [hmul]
  exact Nat.mul_lt_mul_right (by decide)

/-! ### Pages -/

/-- A page of user memory: the flags of its entry and its contents. -/
structure Page where
  flags : Word
  data : PageData
  isFlags : IsFlags flags
  valid : Valid flags

namespace Page

/-- A user may access the page. -/
abbrev User (pg : Page) : Prop := pg.flags &&& PTE_U ≠ 0

/-- The page is not read-only. -/
abbrev Writable (pg : Page) : Prop := pg.flags &&& PTE_W ≠ 0

/-- The page that is mapped when a user accesses a page that was promised. -/
def zero : Page where
  flags := PTE_W ||| PTE_U ||| PTE_R ||| PTE_V
  data := memset 0
  isFlags := by
    unfold IsFlags
    decide
  valid := by decide

/-- The page with other contents. -/
def write (pg : Page) (data : PageData) : Page := { pg with data }

theorem entry_user (pg : Page) (a : ℕ) : (PA2PTE a ||| pg.flags) &&& PTE_U = pg.flags &&& PTE_U :=
  PA2PTE_or_and (by unfold IsFlags; decide)

theorem entry_writable (pg : Page) (a : ℕ) : (PA2PTE a ||| pg.flags) &&& PTE_W = pg.flags &&& PTE_W :=
  PA2PTE_or_and (by unfold IsFlags; decide)

theorem entry_valid (pg : Page) (a : ℕ) : Valid (PA2PTE a ||| pg.flags) := by
  unfold Valid
  rw [PA2PTE_or_and (by unfold IsFlags; decide)]
  exact pg.valid

theorem entry_ne_zero (pg : Page) (a : ℕ) : PA2PTE a ||| pg.flags ≠ 0 := by
  intro hzero
  have hvalid := pg.entry_valid a
  rw [hzero] at hvalid
  exact absurd hvalid (by decide)

end Page

/-- The memory of a process. -/
structure Space where
  sz : ℕ
  page : ℕ → Option Page
  sz_le : sz ≤ TRAPFRAME
  below : ∀ v, page v ≠ none → v * PGSIZE < sz

namespace Space

/-- What a user reads at an address; a page that is mapped when it is read has zeros. -/
def byte (S : Space) (a : ℕ) : UInt8 :=
  match S.page (a / PGSIZE) with
  | some pg => (pageBytes pg.data).byteAt (a % PGSIZE)
  | none => 0

/-- Mapping a page, or changing one. -/
def setPage (S : Space) (v : ℕ) (pg : Page) (hv : v * PGSIZE < S.sz) : Space where
  sz := S.sz
  page := update S.page v (some pg)
  sz_le := S.sz_le
  below u hu := by
    by_cases h : u = v
    · subst h
      exact hv
    · rw [update_of_ne h] at hu
      exact S.below u hu

theorem lt_UPN (S : Space) {v : ℕ} (hv : v * PGSIZE < S.sz) : v < UPN :=
  lt_UPN_iff.mp (lt_of_lt_of_le hv S.sz_le)

theorem lt_UPN_of_some {S : Space} {v : ℕ} {pg : Page} (h : S.page v = some pg) : v < UPN := by
  apply S.lt_UPN
  apply S.below
  rw [h]
  exact Option.some_ne_none pg

end Space

/-! ### Pages in memory -/

/-- A page in memory, if there is one. -/
def frame (a : ℕ) : Option Page → Assertion ℕ PageData
  | none => 1
  | some pg => single a pg.data

/-- The pages in memory, each at its address. -/
def frames (pa : ℕ → ℕ) (page : ℕ → Option Page) : Assertion ℕ PageData :=
  ∏ v ∈ Finset.range UPN, frame (pa v) (page v)

/-- The pages other than one. -/
def others (pa : ℕ → ℕ) (page : ℕ → Option Page) (v : ℕ) : Assertion ℕ PageData :=
  ∏ u ∈ (Finset.range UPN).erase v, frame (pa u) (page u)

section

variable {pa : ℕ → ℕ} {page : ℕ → Option Page} {v : ℕ}

theorem frames_focus (hv : v < UPN) : frames pa page = frame (pa v) (page v) * others pa page v :=
  (Finset.mul_prod_erase (Finset.range UPN) (fun v => frame (pa v) (page v))
    (Finset.mem_range.mpr hv)).symm

theorem frames_some {pg : Page} (hv : v < UPN) (h : page v = some pg) :
  frames pa page = single (pa v) pg.data * others pa page v
  := by
  rw [frames_focus hv, h, frame]

/-- Mapping a page, or changing one. -/
theorem frames_update (hv : v < UPN) (q : ℕ) (pg : Page) :
  frames (update pa v q) (update page v (some pg))
    = single q pg.data * others pa page v
  := by
  rw [frames_focus hv, update_self, update_self, frame]
  congr 1
  apply Finset.prod_congr rfl
  intro u hu
  have hne := Finset.ne_of_mem_erase hu
  rw [update_of_ne hne, update_of_ne hne]

/-- Changing a page where it is. -/
theorem frames_update_page (hv : v < UPN) (pg : Page) :
  frames pa (update page v (some pg)) = single (pa v) pg.data * others pa page v
  := by
  have h : frames (update pa v (pa v)) (update page v (some pg)) = _ :=
    frames_update hv (pa v) pg
  rwa [update_eq_self] at h

end

/-- The page table maps the pages to their addresses, the trapframe and the trampoline, and
nothing else. -/
structure Maps (L : Link) (tf : ℕ) (t : PtTree 2) (pa : ℕ → ℕ) (page : ℕ → Option Page) : Prop where
  mapped : ∀ v pg, page v = some pg → t.pte v = PA2PTE (pa v) ||| pg.flags
  unmapped : ∀ v < NPTE, v ≠ UPN → v ≠ UPN + 1 → page v = none → ¬ Valid (t.pte v)
  trapframe : t.pte UPN = PA2PTE tf ||| (PTE_R ||| PTE_W) ||| PTE_V
  trampoline : t.pte (UPN + 1) = PA2PTE L.trampoline ||| (PTE_R ||| PTE_X) ||| PTE_V
  bound : ∀ v pg, page v = some pg → v < UPN
  pool : ∀ v pg, page v = some pg → pa v ∈ L.pool

/-- The address space is in memory. -/
def isSpace (L : Link) (pt tf : ℕ) (S : Space) : Assertion ℕ PageData :=
  ex fun t : PtTree 2 => ex fun pa : ℕ → ℕ =>
    fact (Maps L tf t pa S.page) * (isTable pt t * frames pa S.page)

section

variable {L : Link} {m : Prog.Mode} {α : Type} {A : Assertion ℕ PageData}
  {C : α → Assertion ℕ PageData} {pt tf va v : ℕ} {t t' : PtTree 2} {pa : ℕ → ℕ}
  {page : ℕ → Option Page} {pg : Page}

namespace Maps

/-- The entry of a page below the trapframe that is not mapped. -/
theorem invalid (h : Maps L tf t pa page) (hv : v < UPN) (hnone : page v = none) :
  ¬ Valid (t.pte v)
  := by
  have hlt := UPN_lt_NPTE
  exact h.unmapped v (by omega) (by omega) (by omega) hnone

theorem congr (h : Maps L tf t pa page) (ht' : ∀ v < NPTE, t'.pte v = t.pte v) :
  Maps L tf t' pa page
  := by
  have hlt := UPN_lt_NPTE
  refine ⟨?_, ?_, ?_, ?_, h.bound, h.pool⟩
  · intro v pg hpg
    have := h.bound v pg hpg
    rw [ht' v (by omega), h.mapped v pg hpg]
  · intro v hv
    rw [ht' v hv]
    exact h.unmapped v hv
  · rw [ht' UPN (by omega), h.trapframe]
  · rw [ht' (UPN + 1) (by omega), h.trampoline]

/-- The addresses of pages that are not mapped do not matter. -/
theorem move {pa' : ℕ → ℕ} (h : Maps L tf t pa' page) (hpa : ∀ v, page v ≠ none → pa' v = pa v) :
  Maps L tf t pa page ∧ frames pa' page = frames pa page
  := by
  have hsome : ∀ {v pg}, page v = some pg → pa' v = pa v := fun hpg => hpa _ (by rw [hpg]; simp)
  constructor
  · refine ⟨?_, h.unmapped, h.trapframe, h.trampoline, h.bound, ?_⟩
    · intro v pg hpg
      rw [← hsome hpg]
      exact h.mapped v pg hpg
    · intro v pg hpg
      rw [← hsome hpg]
      exact h.pool v pg hpg
  · apply Finset.prod_congr rfl
    intro v _
    cases hpg : page v with
    | none => rfl
    | some pg => rw [hsome hpg]

/-- A page is mapped. -/
theorem map {q : ℕ} (h : Maps L tf t pa page) (hv : v < UPN) (hq : q ∈ L.pool)
    (ht' : ∀ u < NPTE, t'.pte u = if u = v then PA2PTE q ||| pg.flags else t.pte u) :
  Maps L tf t' (update pa v q) (update page v (some pg))
  := by
  have hlt := UPN_lt_NPTE
  constructor
  · intro u pg' hpg'
    by_cases huv : u = v
    · subst huv
      rw [update_self] at hpg'
      cases hpg'
      rw [ht' u (by omega), if_pos rfl, update_self]
    · rw [update_of_ne huv] at hpg'
      have := h.bound u pg' hpg'
      rw [ht' u (by omega), if_neg huv, update_of_ne huv]
      exact h.mapped u pg' hpg'
  · intro u hu htf htramp hnone
    by_cases huv : u = v
    · subst huv
      rw [update_self] at hnone
      cases hnone
    · rw [update_of_ne huv] at hnone
      rw [ht' u hu, if_neg huv]
      exact h.unmapped u hu htf htramp hnone
  · rw [ht' UPN (by omega), if_neg (by omega), h.trapframe]
  · rw [ht' (UPN + 1) (by omega), if_neg (by omega), h.trampoline]
  · intro u pg' hpg'
    by_cases huv : u = v
    · rw [huv]
      exact hv
    · rw [update_of_ne huv] at hpg'
      exact h.bound u pg' hpg'
  · intro u pg' hpg'
    by_cases huv : u = v
    · rw [huv, update_self]
      exact hq
    · rw [update_of_ne huv] at hpg' ⊢
      exact h.pool u pg' hpg'

/-- A page has other contents. -/
theorem write (h : Maps L tf t pa page) (hpg : page v = some pg) (data : PageData) :
  Maps L tf t pa (update page v (some (pg.write data)))
  := by
  have hentry : ∀ u < NPTE, t.pte u = if u = v then PA2PTE (pa v) ||| (pg.write data).flags else t.pte u := by
    intro u _
    split_ifs with hu
    · rw [hu]
      exact h.mapped v pg hpg
    · rfl
  have hmap := h.map (h.bound v pg hpg) (h.pool v pg hpg) hentry
  rwa [update_eq_self] at hmap

end Maps

/-- The entry for an address is the one of its page. -/
theorem entry_eq_pte (t : PtTree 2) (va : ℕ) : t.entry va = t.pte (va / PGSIZE) := by
  apply entry_congr
  rw [Nat.mul_div_cancel _ (by decide)]

theorem ne_zero_of_mem_pool {p : ℕ} (h : p ∈ L.pool) : p ≠ 0 := by
  rintro rfl
  have hle := (Link.mem_pool.mp h).2.1
  have hbase := L.kernbase_le
  unfold KERNBASE at hbase
  omega

/-- No user page is at the address. -/
def Hidden (page : ℕ → Option Page) (va : ℕ) : Prop := ∀ pg, page (va / PGSIZE) = some pg → ¬ pg.User

/-- An entry of zero maps no page. -/
theorem Maps.page_eq_none (h : Maps L tf t pa page) (hzero : t.entry va = 0) :
  page (va / PGSIZE) = none
  := by
  cases hpg : page (va / PGSIZE) with
  | none => rfl
  | some pg =>
    rw [entry_eq_pte, h.mapped _ pg hpg] at hzero
    exact absurd hzero (pg.entry_ne_zero _)

/-- The entry for an address where there is no user page. -/
theorem Maps.not_user (h : Maps L tf t pa page) (hva : va < MAXVA) (hhidden : Hidden page va) :
  ¬ (Valid (t.entry va) ∧ t.entry va &&& PTE_U ≠ 0)
  := by
  rw [entry_eq_pte]
  rintro ⟨hvalid, huser⟩
  have hnone : page (va / PGSIZE) = none := by
    cases hpg : page (va / PGSIZE) with
    | none => rfl
    | some pg =>
      rw [h.mapped _ pg hpg, pg.entry_user] at huser
      exact absurd huser (hhidden pg hpg)
  have hlt : va / PGSIZE < UPN + 2 := by
    rw [UPN_add_two]
    apply lt_MAXVA_iff.mp
    exact lt_of_le_of_lt (Nat.div_mul_le_self va PGSIZE) hva
  have hflags : ∀ a : ℕ, ∀ fl : Word, (PA2PTE a ||| fl ||| PTE_V) &&& PTE_U = (fl ||| PTE_V) &&& PTE_U := by
    intro a fl
    rw [BitVec.or_assoc, PA2PTE_or_and (by unfold IsFlags; decide)]
  rcases Nat.lt_or_ge (va / PGSIZE) UPN with hv | hv
  · exact h.invalid hv hnone hvalid
  · rcases Nat.lt_or_ge (va / PGSIZE) (UPN + 1) with hv' | hv'
    · have heq : va / PGSIZE = UPN := by omega
      rw [heq, h.trapframe, hflags] at huser
      exact huser (by decide)
    · have heq : va / PGSIZE = UPN + 1 := by omega
      rw [heq, h.trampoline, hflags] at huser
      exact huser (by decide)

/-- `walkaddr` finds the pages that a user may access. -/
theorem Triple.walkaddr {d : ℕ → Vm α} (hM : Maps L tf t pa page)
    (hhit : ∀ pg, va < MAXVA → page (va / PGSIZE) = some pg → pg.User → pa (va / PGSIZE) ≠ 0 →
      Triple L.pool m (isTable pt t * A) (d (pa (va / PGSIZE))) C)
    (hmiss : Hidden page va → Triple L.pool m (isTable pt t * A) (d 0) C) :
  Triple L.pool m (isTable pt t * A) (walkaddr pt va >>= d) C
  := by
  unfold Xv6.walkaddr
  by_cases hva : MAXVA ≤ va
  · rw [if_pos hva]
    apply hmiss
    intro pg hpg
    have hlt := hM.bound _ pg hpg
    have hle : NVPN ≤ va / PGSIZE := Nat.div_le_div_right hva
    rw [← UPN_add_two] at hle
    omega
  · have hlt := Nat.lt_of_not_le hva
    rw [if_neg hva, bind_assoc]
    apply Triple.walk (fun _ => hlt)
    · intro t' q _ hw hq
      obtain rfl := hw.same rfl
      rw [bind_assoc]
      apply Triple.readPte hq
      by_cases hhidden : Hidden page va
      · have hnot := hM.not_user hlt hhidden
        by_cases hvalid : Valid (t'.entry va)
        · have huser : t'.entry va &&& PTE_U = 0 := by
            by_contra huser
            exact hnot ⟨hvalid, huser⟩
          rw [if_neg hvalid, if_pos huser]
          exact hmiss hhidden
        · rw [if_pos (not_not.mp hvalid)]
          exact hmiss hhidden
      · obtain ⟨pg, hpg, huser⟩ : ∃ pg, page (va / PGSIZE) = some pg ∧ pg.User := by
          unfold Hidden at hhidden
          push Not at hhidden
          exact hhidden
        have hentry : t'.entry va = PA2PTE (pa (va / PGSIZE)) ||| pg.flags := by
          rw [entry_eq_pte]
          exact hM.mapped _ pg hpg
        have huser' : ¬ (PA2PTE (pa (va / PGSIZE)) ||| pg.flags) &&& PTE_U = 0 := by
          rw [pg.entry_user]
          exact huser
        have hpool := hM.pool _ pg hpg
        rw [hentry, if_neg (pg.entry_valid _), if_neg huser', Link.PTE2PA_or hpool pg.isFlags]
        exact hhit pg hlt hpg huser (ne_zero_of_mem_pool hpool)
    · intro t' _ hw hzero
      obtain rfl := hw.same rfl
      apply hmiss
      intro pg hpg
      rw [hM.page_eq_none hzero] at hpg
      cases hpg

/-! ### Using an address space -/

variable {S : Space}

theorem le_isSpace (hM : Maps L tf t pa S.page) :
  isTable pt t * (frames pa S.page * A) ≤ isSpace L pt tf S * A
  := by
  unfold isSpace
  rw [ex_mul]
  apply le_ex t
  rw [ex_mul]
  apply le_ex pa
  rw [mul_assoc, mul_assoc]
  exact le_fact_mul hM (le_refl _)

/-- What holds of an address space at any addresses holds of an address space. -/
theorem Triple.of_isSpace {c : Vm α}
    (h : ∀ (t : PtTree 2) (pa : ℕ → ℕ), Maps L tf t pa S.page →
      Triple L.pool m (isTable pt t * (frames pa S.page * A)) c C) :
  Triple L.pool m (isSpace L pt tf S * A) c C
  := by
  unfold isSpace
  rw [ex_mul]
  apply Triple.ex
  intro t
  rw [ex_mul]
  apply Triple.ex
  intro pa
  rw [mul_assoc, mul_assoc]
  apply Triple.fact
  exact h t pa

/-- Returning with an address space in memory. -/
theorem Triple.ret_space {a : α} {Φ : α → Space → Prop} (hM : Maps L tf t pa S.page) (h : Φ a S) :
  Triple L.pool m (isTable pt t * (frames pa S.page * 1)) (Prog.ret a)
    (fun r => ex fun S' => fact (Φ r S') * isSpace L pt tf S')
  := by
  apply Triple.ret
  apply le_ex S
  apply le_fact_mul h
  rw [← mul_one (isSpace L pt tf S)]
  exact le_isSpace hM

/-- Reading a page of an address space. -/
theorem Triple.readPage {d : PageData → Vm α} (hpg : S.page v = some pg)
    (h : Triple L.pool m (isTable pt t * (frames pa S.page * A)) (d pg.data) C) :
  Triple L.pool m (isTable pt t * (frames pa S.page * A)) (Prog.read (pa v) >>= d) C
  := by
  have hac : isTable pt t * (frames pa S.page * A)
      = single (pa v) pg.data * (isTable pt t * (others pa S.page v * A)) := by
    rw [frames_some (Space.lt_UPN_of_some hpg) hpg]
    ac_rfl
  rw [hac] at h ⊢
  exact Triple.read h

/-- Writing to a page of an address space. -/
theorem Triple.writePage {d : Unit → Vm α} {g : PageData → PageData}
    (hpg : S.page v = some pg) (hv : v * PGSIZE < S.sz)
    (h : Triple L.pool m (isTable pt t * (frames pa (S.setPage v (pg.write (g pg.data)) hv).page * A))
      (d ()) C) :
  Triple L.pool m (isTable pt t * (frames pa S.page * A)) (Prog.write (pa v) g >>= d) C
  := by
  have hlt := Space.lt_UPN_of_some hpg
  have hac : ∀ D, isTable pt t * (D * others pa S.page v * A)
      = D * (isTable pt t * (others pa S.page v * A)) := by
    intro D
    ac_rfl
  rw [Space.setPage, frames_update_page hlt, hac] at h
  rw [frames_some hlt hpg, hac]
  exact Triple.write h

end

end Xv6.Uvm
