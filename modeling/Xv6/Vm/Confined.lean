import Xv6.Vm.Copyout
import Xv6.Vm.Refused
import Xv6.Vm.Release
import Xv6.Vm.Usercopy

/-!
# Copies between user and kernel are confined

`copyout` does what the model of the memory of a process in `Vm.Copyout` says, with the memory
for exactly those pages that are mapped in the end.
-/

namespace Xv6.Uvm

open Assertion PtTree Function

variable {L : Link} {m : Prog.Mode} {pt tf va v : ℕ} {t : PtTree 2} {pa : ℕ → ℕ}
  {S S₁ S₂ S' : Space} {p : ProcMem} {src : List UInt8} {oom ample : Prop} {r : ℤ}

/-! ### `copyout` -/

/-- A page as `Vm.Copyout` has it. -/
def Page.toUser (pg : Page) : UserPage where
  user := decide pg.User
  writable := decide pg.Writable
  data := pageBytes pg.data

/-- The address space as `Vm.Copyout` has it, with the memory for the given pages. -/
def Space.user (S : Space) (memory : ℕ → Bool) : UserMem where
  sz := S.sz
  page v := (S.page v).map Page.toUser
  memory := memory

/-- The pages that are mapped. -/
def Space.isMapped (S : Space) (v : ℕ) : Bool := (S.page v).isSome

section

variable {memory : ℕ → Bool} {pg : Page}

theorem user_setPage (S : Space) (v : ℕ) (pg : Page) (hv : v * PGSIZE < S.sz) (memory : ℕ → Bool) :
  (S.setPage v pg hv).user memory = (S.user memory).setPage v pg.toUser
  := by
  unfold Space.user Space.setPage UserMem.setPage
  congr 1
  funext u
  by_cases hu : u = v
  · subst hu
    simp only [update_self, Option.map_some]
  · simp only [update_of_ne hu]

theorem zero_toUser : Page.zero.toUser = ⟨true, true, fun _ => 0⟩ := by
  unfold Page.toUser Page.zero
  rw [pageBytes_memset_zero]
  congr 1

theorem canWrite_user_iff (S : Space) (memory : ℕ → Bool) (v : ℕ) :
  (S.user memory).CanWrite v ↔ S.CanWrite v ∧ (S.page v = none → memory v = true)
  := by
  unfold UserMem.CanWrite Space.CanWrite Space.user
  cases hpg : S.page v with
  | none =>
    simp only [hpg, Option.map_none, true_implies]
    constructor
    · rintro ⟨_, hlt, hmem⟩
      exact ⟨hlt, hmem⟩
    · rintro ⟨hlt, hmem⟩
      refine ⟨?_, hlt, hmem⟩
      exact lt_of_lt_of_le hlt (le_trans S.sz_le (by decide))
  | some pg =>
    simp only [hpg, Option.map_some, Page.toUser, decide_eq_true_eq, reduceCtorEq, false_implies, and_true,
      and_iff_right_iff_imp]
    intro _
    have hlt : v * PGSIZE < S.sz := by
      apply S.below
      rw [hpg]
      exact Option.some_ne_none pg
    exact lt_of_lt_of_le hlt (le_trans S.sz_le (by decide))

/-- Finding or mapping a page. -/
theorem resolve_touched (h : Touched S v S₁) (hpg : S₁.page v = some pg) (huser : pg.User)
    (hmem : S.page v = none → memory v = true) :
  (S.user memory).resolve (v * PGSIZE) = some (S₁.user memory)
  := by
  have hdiv : v * PGSIZE / PGSIZE = v := UserMem.mul_div_PGSIZE v
  have hva : ¬ MAXVA ≤ v * PGSIZE := by
    have hlt := Space.lt_UPN_of_some hpg
    apply Nat.not_le_of_lt
    apply lt_MAXVA_iff.mpr
    rw [← UPN_add_two]
    omega
  unfold UserMem.resolve UserMem.walkaddr
  rw [if_neg hva, hdiv]
  cases h with
  | same _ =>
    have hpage : (S.user memory).page v = some pg.toUser := by
      simp only [Space.user, hpg, Option.map_some]
    have huser' : pg.toUser.user = true := decide_eq_true huser
    rw [hpage]
    simp only [Option.filter_some, huser', if_true]
  | mapped hv hnone =>
    have hpage : (S.user memory).page v = none := by
      simp only [Space.user, hnone, Option.map_none]
    have hsz : ¬ (S.user memory).sz ≤ v * PGSIZE := Nat.not_le_of_lt hv
    have hmemory : (S.user memory).memory v = true := hmem hnone
    rw [hpage]
    simp only [Option.filter_none, UserMem.vmfault]
    rw [if_neg hsz, hdiv, hpage, hmemory, user_setPage, zero_toUser]
    rfl

end

theorem Touched.other {u : ℕ} (h : Touched S v S') (hu : u ≠ v) : S'.page u = S.page u := by
  cases h with
  | same _ => rfl
  | mapped _ _ => exact update_of_ne hu _ _

/-- The flags of the pages; a page that was promised has those it will be mapped with. -/
def Space.flags (S : Space) (v : ℕ) : Word := ((S.page v).getD Page.zero).flags

theorem Faulted.flags (h : Faulted S S') (v : ℕ) : S'.flags v = S.flags v := by
  unfold Space.flags
  rcases h.page v with hv | ⟨hnone, hv⟩
  · rw [hv]
  · rw [hv, hnone]
    rfl

/-- Part of a page has been overwritten. -/
structure Wrote (S S' : Space) (v off : ℕ) (src : List UInt8) : Prop where
  sz : S'.sz = S.sz
  page : ∃ pg, S.page v = some pg ∧ pg.User ∧ pg.Writable
    ∧ S'.page v = some (pg.write (patchPage off src pg.data))
  other : ∀ u ≠ v, S'.page u = S.page u

namespace Wrote

variable {off : ℕ} {src : List UInt8}

theorem flags (h : Wrote S S' v off src) (u : ℕ) : S'.flags u = S.flags u := by
  unfold Space.flags
  by_cases hu : u = v
  · subst hu
    obtain ⟨pg, hpg, _, _, hS'⟩ := h.page
    rw [hpg, hS', Option.getD_some, Option.getD_some, Page.write]
  · rw [h.other u hu]

theorem canWrite (h : Wrote S₁ S' v off src) (htouched : Touched S v S₁) : S.CanWrite v := by
  obtain ⟨pg, hpg, huser, hwritable, _⟩ := h.page
  unfold Space.CanWrite
  cases htouched with
  | same _ =>
    rw [hpg]
    exact ⟨huser, hwritable⟩
  | mapped hv hnone =>
    rw [hnone]
    exact hv

theorem user {pg : Page} (h : Wrote S S' v off src) (hpg : S.page v = some pg) (memory : ℕ → Bool) :
  S'.user memory = (S.user memory).setPage v
    { pg.toUser with data := pg.toUser.data.patch off src.length fun k => src.getD k 0 }
  := by
  obtain ⟨pg', hpg', _, _, hS'⟩ := h.page
  obtain rfl := Option.some.inj (hpg.symm.trans hpg')
  unfold Space.user UserMem.setPage
  simp only [h.sz, UserMem.mk.injEq, true_and, and_true]
  funext u
  by_cases hu : u = v
  · subst hu
    rw [hS', update_self]
    simp only [Option.map_some, Page.toUser, Page.write, patchPage, pageBytes_pageOfBytes]
  · rw [h.other u hu, update_of_ne hu]

end Wrote

/-- What `copyout` has done: it has gone through the pages as `Vm.Copyout` does, with the
memory for the pages that are mapped now. -/
structure CopiedOut (oom : Prop) (S S' : Space) (dstva : ℕ) (src : List UInt8) (r : ℤ) : Prop where
  run : (S.user S'.isMapped).copyout dstva src = (S'.user S'.isMapped, decide (r = 0))
  result : r = 0 ∨ r = -1
  flags : ∀ v, S'.flags v = S.flags v
  refused : r = -1 → ∃ i < src.length,
    ¬ S.CanWrite ((dstva + i) / PGSIZE) ∨ S.page ((dstva + i) / PGSIZE) = none ∧ oom

namespace CopiedOut

variable {oom : Prop} {dstva n : ℕ} {src : List UInt8} {r : ℤ}

theorem nil (S : Space) (oom : Prop) (dstva : ℕ) : CopiedOut oom S S dstva [] 0 where
  run := by
    rw [UserMem.copyout, dif_pos rfl]
    rfl
  result := Or.inl rfl
  flags _ := rfl
  refused hr := by cases hr

/-- The first page cannot be written. -/
theorem stop (hsrc : src ≠ []) (hwhy : ¬ S.CanWrite (dstva / PGSIZE) ∨ S.page (dstva / PGSIZE) = none ∧ oom) :
  CopiedOut oom S S dstva src (-1)
  where
  run := by
    rw [UserMem.copyout_of_not_canWrite hsrc]
    · rfl
    · rw [canWrite_user_iff]
      rintro ⟨hcan, hmem⟩
      rcases hwhy with hnot | ⟨hnone, _⟩
      · exact hnot hcan
      · have := hmem hnone
        simp [Space.isMapped, hnone] at this
  result := Or.inr rfl
  flags _ := rfl
  refused _ := ⟨0, List.length_pos_of_ne_nil hsrc, hwhy⟩

/-- A page before the range that is mapped is still mapped in the end. -/
theorem isMapped {off : ℕ} {src' : List UInt8} (h : CopiedOut oom S₂ S' (PGROUNDDOWN dstva + PGSIZE) src r)
    (hwrote : Wrote S₁ S₂ (dstva / PGSIZE) off src') :
  S'.isMapped (dstva / PGSIZE) = true
  := by
  obtain ⟨pg, _, _, _, hS₂⟩ := hwrote.page
  have hsame := (UserMem.copyout_spec (S₂.user S'.isMapped) (PGROUNDDOWN dstva + PGSIZE) src).1.page
    (dstva / PGSIZE) (Or.inl (by rw [Nat.succ_mul]; rfl))
  rw [h.run] at hsame
  simp only [Space.user, hS₂, Option.map_some, Option.map_eq_some_iff] at hsame
  obtain ⟨pg', hpg', _⟩ := hsame
  simp only [Space.isMapped, hpg', Option.isSome_some]

theorem sz (h : CopiedOut oom S S' dstva src r) : S'.sz = S.sz := by
  have hcopied := (UserMem.copyout_spec (S.user S'.isMapped) dstva src).1.sz
  rwa [h.run] at hcopied

/-- The first page is written, and then the rest. -/
theorem cons (hsrc : src ≠ []) (htouched : Touched S (dstva / PGSIZE) S₁)
    (hwrote : Wrote S₁ S₂ (dstva / PGSIZE) (dstva % PGSIZE) (src.take n))
    (hn : n = min (PGSIZE - dstva % PGSIZE) src.length)
    (h : CopiedOut oom S₂ S' (PGROUNDDOWN dstva + PGSIZE) (src.drop n) r) :
  CopiedOut oom S S' dstva src r
  := by
  have hmapped : S'.isMapped (dstva / PGSIZE) = true := h.isMapped hwrote
  have hcan : S.CanWrite (dstva / PGSIZE) := hwrote.canWrite htouched
  have hnlen : n ≤ src.length := by
    rw [hn]
    exact min_le_right _ _
  constructor
  · have hcan' : (S.user S'.isMapped).CanWrite (dstva / PGSIZE) :=
      (canWrite_user_iff S _ _).mpr ⟨hcan, fun _ => hmapped⟩
    obtain ⟨pg, hpg, huser, hwritable, hS₂⟩ := hwrote.page
    obtain ⟨m', pg', hresolved⟩ := UserMem.exists_resolved hcan'
    have hm' : S₁.user S'.isMapped = m' := by
      apply Option.some.inj
      rw [← hresolved.found]
      exact (resolve_touched htouched hpg huser fun _ => hmapped).symm
    have hpg' : pg.toUser = pg' := by
      apply Option.some.inj
      rw [← hresolved.page, ← hm']
      simp only [Space.user, hpg, Option.map_some]
    have hpatch : pg.toUser.data.patch (dstva % PGSIZE) n (fun k => (src.take n).getD k 0)
        = pg.toUser.data.patch (dstva % PGSIZE) n fun k => src.getD k 0 := by
      apply Bytes.patch_congr
      intro k hk
      rw [List.getD_eq_getElem?_getD, List.getD_eq_getElem?_getD, List.getElem?_take_of_lt hk]
    rw [UserMem.copyout_of_resolved hsrc hcan' hresolved hn, ← hm', ← hpg', ← h.run,
      hwrote.user hpg, List.length_take, min_eq_left hnlen, hpatch]
    rfl
  · exact h.result
  · intro u
    rw [h.flags, hwrote.flags, htouched.faulted.flags]
  · intro hr
    obtain ⟨i, hi, hwhy⟩ := h.refused hr
    rw [List.length_drop] at hi
    have hnext : PGROUNDDOWN dstva + PGSIZE = dstva + n := by
      rw [hn]
      apply chunk_next
      omega
    have hne : (dstva + (n + i)) / PGSIZE ≠ dstva / PGSIZE := by
      unfold PGROUNDDOWN PGSIZE at hnext
      unfold PGSIZE
      omega
    refine ⟨n + i, by omega, ?_⟩
    rw [hnext, Nat.add_assoc] at hwhy
    unfold Space.CanWrite at hwhy ⊢
    rwa [hwrote.other _ hne, hwrote.sz, htouched.other hne, htouched.faulted.sz] at hwhy

end CopiedOut

theorem copyoutLoop_spec {dstva k : ℕ} (hk : src.length ≤ k) (hM : Maps L tf t pa S.page)
    (hpt : p.pagetable = pt) (hsz : p.sz = S.sz) :
  Triple L.pool m (isTable pt t * (frames pa S.page * 1)) (copyoutLoop L p pt k dstva src)
    (fun r => ex fun S' => fact (CopiedOut m.oom S S' dstva src r) * isSpace L pt tf S')
  := by
  induction k generalizing t pa S dstva src with
  | zero =>
    obtain rfl := List.eq_nil_of_length_eq_zero (Nat.le_zero.mp hk)
    unfold copyoutLoop
    rw [if_pos List.length_nil]
    exact Triple.ret_space hM (CopiedOut.nil S m.oom dstva)
  | succ k ih =>
    unfold copyoutLoop
    by_cases hlen : src.length = 0
    · obtain rfl := List.eq_nil_of_length_eq_zero hlen
      rw [if_pos List.length_nil]
      exact Triple.ret_space hM (CopiedOut.nil S m.oom dstva)
    have hsrc : src ≠ [] := by
      rintro rfl
      exact hlen rfl
    have hpos := List.length_pos_of_ne_nil hsrc
    rw [if_neg hlen]
    by_cases hva : MAXVA ≤ PGROUNDDOWN dstva
    · rw [if_pos hva]
      apply Triple.ret_space hM
      apply CopiedOut.stop hsrc
      left
      intro hcan
      have hcan' := ((canWrite_user_iff S (fun _ => true) _).mpr ⟨hcan, fun _ => rfl⟩).1
      exact absurd hva (Nat.not_le_of_lt hcan')
    rw [if_neg hva]
    apply Triple.userPage hM hpt hsz (rfl : PGROUNDDOWN dstva = dstva / PGSIZE * PGSIZE)
    · intro t' hwhy hM'
      rw [if_pos rfl]
      apply Triple.ret_space hM'
      apply CopiedOut.stop hsrc
      apply hwhy.imp_left
      intro hread hcan
      apply hread
      unfold Space.CanWrite at hcan
      unfold Space.Readable
      cases hpg : S.page (dstva / PGSIZE) with
      | none =>
        rw [hpg] at hcan
        exact hcan
      | some pg =>
        rw [hpg] at hcan
        exact hcan.1
    · intro t' pa' S₁ pg hreadable htouched hpg huser hne hM'
      have hpte : t'.entry (PGROUNDDOWN dstva) = PA2PTE (pa' (dstva / PGSIZE)) ||| pg.flags :=
        hM'.mapped _ pg hpg
      rw [if_neg hne]
      apply Triple.walk (fun _ => Nat.lt_of_not_le hva)
      · intro t'' q _ hw hq
        obtain rfl := hw.same rfl
        apply Triple.readPte hq
        rw [hpte, pg.entry_writable]
        by_cases hwritable : pg.Writable
        · have hchunk := chunk_pos (a := dstva) hpos
          have hv : dstva / PGSIZE * PGSIZE < S₁.sz := by
            rw [htouched.faulted.sz]
            exact Space.readable_lt hreadable
          rw [if_neg hwritable]
          apply Triple.writePage hpg hv
          rw [sub_PGROUNDDOWN, next_mod hreadable]
          have hM'' : Maps L tf t'' pa' (S₁.setPage (dstva / PGSIZE) (pg.write (patchPage
              (dstva % PGSIZE) (src.take (min (PGSIZE - dstva % PGSIZE) src.length)) pg.data)) hv).page :=
            hM'.write hpg _
          have hwrote : Wrote S₁ (S₁.setPage (dstva / PGSIZE) (pg.write (patchPage (dstva % PGSIZE)
              (src.take (min (PGSIZE - dstva % PGSIZE) src.length)) pg.data)) hv) (dstva / PGSIZE)
              (dstva % PGSIZE) (src.take (min (PGSIZE - dstva % PGSIZE) src.length)) :=
            ⟨rfl, ⟨pg, hpg, huser, hwritable, update_self _ _ _⟩,
              fun u hu => update_of_ne hu _ _⟩
          have hsz' := hsz.trans (htouched.faulted.sz.symm.trans hwrote.sz.symm)
          generalize S₁.setPage (dstva / PGSIZE) _ hv = S₂ at hM'' hwrote hsz' ⊢
          apply (ih (by rw [List.length_drop]; omega) hM'' hsz').post
          intro r
          apply ex_le
          intro S'
          apply fact_mul_le
          intro hrest
          apply le_ex S'
          exact le_fact_mul (hrest.cons hsrc htouched hwrote rfl) (le_refl _)
        · rw [if_pos (not_not.mp hwritable)]
          cases htouched with
          | same _ =>
            apply Triple.ret_space hM'
            apply CopiedOut.stop hsrc
            left
            unfold Space.CanWrite
            rw [hpg]
            exact fun hcan => hwritable hcan.2
          | mapped hv _ =>
            obtain rfl := Option.some.inj ((update_self _ _ S.page).symm.trans hpg)
            exact absurd (by decide : Page.zero.Writable) hwritable
      · intro t'' _ hw hzero
        rw [hpte] at hzero
        exact absurd hzero (pg.entry_ne_zero _)

theorem copyout_spec (L : Link) (m : Prog.Mode) (pt tf : ℕ) (S : Space) (dstva : ℕ) (src : List UInt8) :
  Triple L.pool m (isSpace L pt tf S) (copyout L ⟨pt, S.sz⟩ pt dstva src)
    (fun r => ex fun S' => fact (CopiedOut m.oom S S' dstva src r) * isSpace L pt tf S')
  := by
  rw [← mul_one (isSpace L pt tf S)]
  apply Triple.of_isSpace
  intro t pa hM
  exact copyoutLoop_spec (Nat.le_refl src.length) hM rfl rfl

/-! ### What a caller can rely on -/

theorem user_byte (S : Space) (memory : ℕ → Bool) (a : ℕ) : (S.user memory).byte a = S.byte a := by
  unfold UserMem.byte Space.byte Space.user
  cases hpg : S.page (a / PGSIZE) with
  | none => simp only [hpg, Option.map_none]
  | some pg => simp only [hpg, Option.map_some, Page.toUser]

/-- Pages with the same flags that look the same to a user are the same. -/
theorem page_eq_of_user {memory : ℕ → Bool} (hflags : S'.flags v = S.flags v)
    (huser : (S'.user memory).page v = (S.user memory).page v) :
  S'.page v = S.page v
  := by
  unfold Space.flags at hflags
  simp only [Space.user] at huser
  cases hpg : S.page v with
  | none =>
    rw [hpg, Option.map_none, Option.map_eq_none_iff] at huser
    exact huser
  | some pg =>
    rw [hpg, Option.map_some, Option.map_eq_some_iff] at huser
    obtain ⟨pg', hpg', heq⟩ := huser
    rw [hpg, hpg', Option.getD_some, Option.getD_some] at hflags
    have hbytes : pageBytes pg'.data = pageBytes pg.data := congrArg UserPage.data heq
    have hdata : pg'.data = pg.data := by
      rw [← pageOfBytes_pageBytes pg'.data, hbytes, pageOfBytes_pageBytes]
    rw [hpg']
    obtain ⟨flags', data', _, _⟩ := pg'
    obtain ⟨flags, data, _, _⟩ := pg
    subst hflags hdata
    rfl

/-- A range whose pages all lie below the size does not wrap around. -/
theorem range_wrap {P : ℕ → Prop} (hP : ∀ v, P v → v * PGSIZE < S.sz) {a : ℕ} (ha : a < 2 ^ 64)
    (len : ℕ) :
  (∀ i < len, P ((a + i) % 2 ^ 64 / PGSIZE)) ↔ ∀ i < len, P ((a + i) / PGSIZE)
  := by
  have hsz := S.sz_le
  have hlow : ∀ b, P (b / PGSIZE) → b < 2 ^ 64 - 1 := by
    intro b hb
    have := hP _ hb
    unfold TRAPFRAME TRAMPOLINE MAXVA PGSIZE at hsz
    unfold PGSIZE at this
    omega
  constructor
  · intro h
    have hlast : a + len < 2 ^ 64 := by
      by_contra hwrap
      have hi : 2 ^ 64 - 1 - a < len := by omega
      have haddr : (a + (2 ^ 64 - 1 - a)) % 2 ^ 64 = 2 ^ 64 - 1 := by omega
      have hend := h _ hi
      rw [haddr] at hend
      exact absurd (hlow _ hend) (lt_irrefl _)
    intro i hi
    have := h i hi
    rwa [Nat.mod_eq_of_lt (by omega)] at this
  · intro h i hi
    have hb := hlow _ (h i hi)
    rw [Nat.mod_eq_of_lt (by omega)]
    exact h i hi

/-- What a caller of `copyout` can rely on; `ample` says that memory could be allocated when
it was needed. -/
structure ConfinedOut (S S' : Space) (dstva : ℕ) (src : List UInt8) (r : ℤ) (ample : Prop) : Prop where
  result : r = 0 ∨ r = -1
  ok_iff : r = 0 ↔ (∀ i < src.length, S.CanWrite ((dstva + i) % 2 ^ 64 / PGSIZE)) ∧ ample
  bytes : ∃ k ≤ src.length, (r = 0 → k = src.length)
    ∧ ∀ a, S'.byte a = if dstva ≤ a ∧ a < dstva + k then src.getD (a - dstva) 0 else S.byte a
  pages : ∀ v, S'.page v ≠ S.page v → S.CanWrite v
  flags : ∀ v, S'.flags v = S.flags v
  sz : S'.sz = S.sz

/-- What a caller of `copyin` can rely on. -/
structure ConfinedIn (S S' : Space) (srcva len : ℕ) (r : ℤ) (bs : List UInt8) (ample : Prop) :
    Prop where
  result : r = 0 ∨ r = -1
  ok_iff : r = 0 ↔ (∀ i < len, S.Readable ((srcva + i) % 2 ^ 64 / PGSIZE)) ∧ ample
  bytes : r = 0 → bs = S.bytes srcva len
  faulted : Faulted S S'

theorem Space.CanWrite.lt_sz (h : S.CanWrite v) : v * PGSIZE < S.sz := by
  unfold Space.CanWrite at h
  cases hpg : S.page v with
  | none =>
    rw [hpg] at h
    exact h
  | some pg =>
    apply S.below
    rw [hpg]
    exact Option.some_ne_none pg

theorem CopiedOut.confined {dstva : ℕ}
    (h : CopiedOut oom S S' dstva src r) (hdst : dstva < 2 ^ 64) (hoom : oom → ¬ ample)
    (hample : ample ∨ r = -1) :
  ConfinedOut S S' dstva src r ample
  := by
  obtain ⟨_, hok, _⟩ := UserMem.copyout_spec (S.user S'.isMapped) dstva src
  obtain ⟨k, hk, hwritten, hall⟩ := UserMem.copyout_written (S.user S'.isMapped) dstva src
  rw [h.run] at hok hwritten hall
  simp only [decide_eq_true_eq] at hok hall
  constructor
  · exact h.result
  · rw [range_wrap (fun _ => Space.CanWrite.lt_sz) hdst]
    constructor
    · intro hr
      have hresult : ample := by
        apply hample.resolve_right
        rw [hr]
        decide
      refine ⟨?_, hresult⟩
      intro i hi
      exact ((canWrite_user_iff S _ _).mp (hok.mp hr (dstva + i) (by omega) (by omega))).1
    · rintro ⟨hcan, hmem⟩
      apply h.result.resolve_right
      intro hr
      obtain ⟨i, hi, hnot | ⟨_, ho⟩⟩ := h.refused hr
      · exact hnot (hcan i hi)
      · exact hoom ho hmem
  · refine ⟨k, hk, hall, ?_⟩
    intro a
    have := hwritten.byte a
    rwa [user_byte, user_byte] at this
  · intro v hv
    apply ((canWrite_user_iff S S'.isMapped v).mp (hwritten.page v ?_)).1
    exact mt (page_eq_of_user (h.flags v)) hv
  · exact h.flags
  · exact h.sz

theorem CopiedIn.confined {srcva len : ℕ} {bs : List UInt8}
    (h : CopiedIn oom S S' srcva len r bs) (hsrc : srcva < 2 ^ 64) (hoom : oom → ¬ ample)
    (hample : ample ∨ r = -1) :
  ConfinedIn S S' srcva len r bs ample
  := by
  constructor
  · rcases h.result with ⟨hr, _⟩ | ⟨hr, _⟩
    · exact Or.inl hr
    · exact Or.inr hr
  · rw [range_wrap (fun _ => Space.readable_lt) hsrc]
    constructor
    · intro hr
      rw [hr] at hample
      refine ⟨?_, hample.resolve_right (by decide)⟩
      rcases h.result with ⟨_, hlen⟩ | ⟨hr', _⟩
      · rw [← hlen]
        exact h.readable
      · rw [hr] at hr'
        cases hr'
    · rintro ⟨hread, hmem⟩
      rcases h.result with ⟨hr, _⟩ | ⟨_, hlt, hnot | ⟨_, ho⟩⟩
      · exact hr
      · exact absurd (hread _ hlt) hnot
      · exact absurd hmem (hoom ho)
  · intro hr
    rcases h.result with ⟨_, hlen⟩ | ⟨hr', _⟩
    · rw [← hlen]
      exact h.bytes
    · rw [hr] at hr'
      cases hr'
  · exact h.faulted

section

variable {s : Store ℕ PageData} {R : Assertion ℕ PageData}
  (hs : s.Has L.pool (isSpace L pt tf S * R))

include hs

theorem exec_copyout (dstva : ℕ) (src : List UInt8) :
  ∃ r s' S', (copyout L ⟨pt, S.sz⟩ pt dstva src).exec s = some (r, s')
    ∧ s'.Has L.pool (isSpace L pt tf S' * R)
    ∧ CopiedOut (¬ (copyout L ⟨pt, S.sz⟩ pt dstva src).Ample s) S S' dstva src r
  := by
  have hspec := copyout_spec L { oom := ¬ (copyout L ⟨pt, S.sz⟩ pt dstva src).Ample s, panics := False }
    pt tf S dstva src
  obtain ⟨r, s', hexec, hs'⟩ := hspec.returns not_false hs (Classical.em _).symm
  rw [ex_mul] at hs'
  obtain ⟨h', ⟨S', hS'⟩, hholds, hin⟩ := hs'
  rw [mul_assoc, fact_mul_iff] at hS'
  exact ⟨r, s', S', hexec, ⟨h', hS'.2, hholds, hin⟩, hS'.1⟩

theorem exec_copyin (srcva len : ℕ) :
  ∃ r bs s' S', (copyin L ⟨pt, S.sz⟩ pt srcva len).exec s = some ((r, bs), s')
    ∧ s'.Has L.pool (isSpace L pt tf S' * R)
    ∧ CopiedIn (¬ (copyin L ⟨pt, S.sz⟩ pt srcva len).Ample s) S S' srcva len r bs
  := by
  have hspec := copyin_spec L { oom := ¬ (copyin L ⟨pt, S.sz⟩ pt srcva len).Ample s, panics := False }
    pt tf S srcva len
  obtain ⟨⟨r, bs⟩, s', hexec, hs'⟩ := hspec.returns not_false hs (Classical.em _).symm
  rw [ex_mul] at hs'
  obtain ⟨h', ⟨S', hS'⟩, hholds, hin⟩ := hs'
  rw [mul_assoc, fact_mul_iff] at hS'
  exact ⟨r, bs, s', S', hexec, ⟨h', hS'.2, hholds, hin⟩, hS'.1⟩

end

/-- A process that has been promised two pages and has none yet. -/
def lazySpace : Space where
  sz := 2 * PGSIZE
  page _ := none
  sz_le := by decide
  below _ hv := absurd rfl hv

end Xv6.Uvm
