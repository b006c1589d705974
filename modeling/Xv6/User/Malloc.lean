import Mathlib.Data.Set.Insert
import Mathlib.Tactic

/-!
# `malloc`

The allocator of the user programs keeps its free blocks in a circular list through their headers and
asks `sbrk` for more.  `morecore` counts in units of the size of a header in an unsigned number, and
passes a number of bytes to `sbrk`, whose parameter is an `int`.

Beside the headers, the state has the regions that `sbrk` has returned.  Pointers are natural numbers,
with 0 for the null pointer.
-/

namespace Xv6.Malloc

open Function

/-- The state of the allocator. -/
structure Heap where
  ptr : ℕ → ℕ
  size : ℕ → UInt32
  freep : ℕ
  regions : List (ℕ × ℕ)

namespace Heap

def setPtr (h : Heap) (p q : ℕ) : Heap := { h with ptr := update h.ptr p q }

def setSize (h : Heap) (p : ℕ) (n : UInt32) : Heap := { h with size := update h.size p n }

def setFreep (h : Heap) (p : ℕ) : Heap := { h with freep := p }

/-- The address behind a block, `p + p->s.size`. -/
def behind (h : Heap) (p : ℕ) : ℕ := p + 16 * (h.size p).toNat

end Heap

/-- The loop of `free`: the block of the list behind which `bp` belongs. -/
def place (h : Heap) (bp : ℕ) : ℕ → ℕ → Option ℕ
  | 0, _ => none
  | fuel + 1, p =>
    if p < bp ∧ bp < h.ptr p then some p
    else if h.ptr p ≤ p ∧ (p < bp ∨ bp < h.ptr p) then some p
    else place h bp fuel (h.ptr p)

/-- `free` behind its loop. -/
def link (h : Heap) (bp p : ℕ) : Heap :=
  let h :=
    if h.behind bp = h.ptr p then
      (h.setSize bp (h.size bp + h.size (h.ptr p))).setPtr bp (h.ptr (h.ptr p))
    else h.setPtr bp (h.ptr p)
  let h :=
    if h.behind p = bp then (h.setSize p (h.size p + h.size bp)).setPtr p (h.ptr bp)
    else h.setPtr p bp
  h.setFreep p

/-- `free`, with a bound on the iterations of its loop. -/
def free (fuel : ℕ) (h : Heap) (ap : ℕ) : Option Heap :=
  (place h (ap - 16) fuel h.freep).map (link h (ap - 16))

/-- The units that `morecore` asks for. -/
def coreUnits (nu : UInt32) : UInt32 := if nu < 4096 then 4096 else nu

/-- `nu * sizeof(Header)` as the `int` that `sbrk` receives. -/
def sbrkArg (nu : UInt32) : ℤ := (nu.toNat * 16 : ℤ).bmod (2 ^ 32)

/-- `morecore`.  `sbrk` answers with an address, or not at all. -/
def morecore (sbrk : Heap → ℤ → Option ℕ) (fuel : ℕ) (h : Heap) (nu : UInt32) : Option (ℕ × Heap) :=
  let nu := coreUnits nu
  match sbrk h (sbrkArg nu) with
  | none => some (0, h)
  | some p =>
    let h := { h with regions := (p, (sbrkArg nu).toNat) :: h.regions }
    (free fuel (h.setSize p nu) (p + 16)).map fun h => (h.freep, h)

/-- The units for a request. -/
def units (nbytes : UInt32) : UInt32 := UInt32.ofNat ((nbytes.toNat + 16 - 1) / 16 + 1)

/-- The loop of `malloc`. -/
def mallocLoop (sbrk : Heap → ℤ → Option ℕ) (nunits : UInt32) :
    ℕ → Heap → ℕ → ℕ → Option (ℕ × Heap)
  | 0, _, _, _ => none
  | fuel + 1, h, prevp, p =>
    if nunits ≤ h.size p then
      if h.size p = nunits then some (p + 16, (h.setPtr prevp (h.ptr p)).setFreep prevp)
      else
        let h := h.setSize p (h.size p - nunits)
        let p := h.behind p
        some (p + 16, (h.setSize p nunits).setFreep prevp)
    else if p = h.freep then
      match morecore sbrk fuel h nunits with
      | none => none
      | some (p, h) => if p = 0 then some (0, h) else mallocLoop sbrk nunits fuel h p (h.ptr p)
    else mallocLoop sbrk nunits fuel h p (h.ptr p)

/-- The first call makes a list of `base`. -/
def start (base : ℕ) (h : Heap) : Heap :=
  if h.freep = 0 then ((h.setPtr base base).setFreep base).setSize base 0 else h

/-- `malloc`, with a bound on the iterations of its loops. -/
def malloc (sbrk : Heap → ℤ → Option ℕ) (base fuel : ℕ) (h : Heap) (nbytes : UInt32) : Option (ℕ × Heap) :=
  let h := start base h
  mallocLoop sbrk (units nbytes) fuel h h.freep (h.ptr h.freep)

/-! ### The memory of a block -/

/-- The bytes from `a` to `b` are in regions that `sbrk` has returned. -/
def Heap.Obtained (h : Heap) (a b : ℕ) : Prop :=
  ∀ x, a ≤ x → x < b → ∃ r ∈ h.regions, r.1 ≤ x ∧ x < r.1 + r.2

theorem Heap.behind_setSize (h : Heap) (p : ℕ) (n : UInt32) :
  (h.setSize p n).behind p = p + 16 * n.toNat
  := by
  simp [Heap.behind, Heap.setSize]

/-- The blocks `B`, with those of the list, are in memory that `sbrk` has returned. -/
structure Sound (B : Set ℕ) (h : Heap) : Prop where
  freep : h.freep = 0 ∨ h.freep ∈ B
  ptr : ∀ p ∈ B, h.ptr p ∈ B
  obtained : ∀ p ∈ B, h.Obtained p (h.behind p)

section Sound

variable {fuel p q bp : ℕ} {B : Set ℕ} {h h' : Heap} {n : UInt32} {sbrk : Heap → ℤ → Option ℕ}

theorem Sound.setFreep (hs : Sound B h) (hp : p ∈ B) : Sound B (h.setFreep p) :=
  ⟨Or.inr hp, hs.ptr, hs.obtained⟩

theorem Sound.setPtr (hs : Sound B h) (hq : q ∈ B) : Sound B (h.setPtr p q)
  := by
  refine ⟨hs.freep, ?_, hs.obtained⟩
  intro a ha
  change update h.ptr p q a ∈ B
  by_cases hap : a = p
  · rw [hap, update_self]
    exact hq
  · rw [update_of_ne hap]
    exact hs.ptr a ha

theorem Sound.setSize (hs : Sound B h) (hn : h.Obtained p (p + 16 * n.toNat)) : Sound B (h.setSize p n)
  := by
  refine ⟨hs.freep, hs.ptr, ?_⟩
  intro a ha
  change h.Obtained a (a + 16 * (update h.size p n a).toNat)
  by_cases hap : a = p
  · rw [hap, update_self]
    exact hn
  · rw [update_of_ne hap]
    exact hs.obtained a ha

theorem Sound.insert (hs : Sound B h) (hptr : h.ptr p ∈ B) (hp : h.Obtained p (h.behind p)) :
  Sound (insert p B) h
  := by
  refine ⟨hs.freep.imp_right (Set.mem_insert_of_mem p), ?_, ?_⟩
  · rintro a (rfl | ha)
    · exact Set.mem_insert_of_mem a hptr
    · exact Set.mem_insert_of_mem p (hs.ptr a ha)
  · rintro a (rfl | ha)
    · exact hp
    · exact hs.obtained a ha

/-- A block and the one behind it are one block. -/
theorem Heap.Obtained.merge (hp : h.Obtained p (h.behind p)) (hq : h.Obtained q (h.behind q))
    (hpq : h.behind p = q) :
  h.Obtained p (p + 16 * (h.size p + h.size q).toNat)
  := by
  have hsum : (h.size p + h.size q).toNat ≤ (h.size p).toNat + (h.size q).toNat := by
    rw [UInt32.toNat_add]
    exact Nat.mod_le _ _
  intro x hx hlt
  by_cases hxq : x < q
  · exact hp x hx (hpq ▸ hxq)
  · apply hq x (Nat.le_of_not_lt hxq)
    rw [Heap.behind] at hpq ⊢
    omega

theorem Sound.place (hs : Sound B h) (hp : p ∈ B) (hq : place h bp fuel p = some q) : q ∈ B
  := by
  induction fuel generalizing p with
  | zero => cases hq
  | succ fuel ih =>
    rw [Malloc.place] at hq
    split_ifs at hq
    · cases hq
      exact hp
    · cases hq
      exact hp
    · exact ih (hs.ptr p hp) hq

/-- The step of `free` that joins a block with the one behind it, or links it. -/
theorem Sound.join (hs : Sound B h) (hp : h.Obtained p (h.behind p)) (hq : q ∈ B) :
  Sound (Insert.insert p B) (if h.behind p = q then
    (h.setSize p (h.size p + h.size q)).setPtr p (h.ptr q) else h.setPtr p q)
  := by
  split_ifs with hpq
  · have hn := hp.merge (hs.obtained q hq) hpq
    apply ((hs.setSize hn).setPtr (hs.ptr q hq)).insert
    · change update h.ptr p (h.ptr q) p ∈ B
      rw [update_self]
      exact hs.ptr q hq
    · change h.Obtained p (p + 16 * (update h.size p (h.size p + h.size q) p).toNat)
      rw [update_self]
      exact hn
  · apply (hs.setPtr hq).insert
    · change update h.ptr p q p ∈ B
      rw [update_self]
      exact hq
    · exact hp

theorem Sound.link (hs : Sound B h) (hp : p ∈ B) (hbp : h.Obtained bp (h.behind bp)) :
  Sound (Insert.insert bp B) (link h bp p)
  := by
  have hin : bp ∈ Insert.insert bp B := Set.mem_insert bp B
  have hp' : p ∈ Insert.insert bp B := Set.mem_insert_of_mem bp hp
  have hfirst := hs.join hbp (hs.ptr p hp)
  have hsecond := hfirst.join (hfirst.obtained p hp') hin
  rw [Set.insert_eq_of_mem hp'] at hsecond
  exact hsecond.setFreep hp'

theorem Sound.free (hs : Sound B h) (hp : h.freep ∈ B) (hbp : h.Obtained bp (h.behind bp))
    (hfree : free fuel h (bp + 16) = some h') :
  Sound (Insert.insert bp B) h' ∧ h'.freep ∈ B
  := by
  rw [Malloc.free, Nat.add_sub_cancel, Option.map_eq_some_iff] at hfree
  obtain ⟨q, hq, rfl⟩ := hfree
  have hq' := hs.place hp hq
  exact ⟨hs.link hq' hbp, hq'⟩

/-- `sbrk` has been asked for all of the block. -/
def Honest (nu : UInt32) : Prop := 0 ≤ sbrkArg nu ∧ nu.toNat * 16 ≤ sbrkArg nu

theorem Sound.morecore (hs : Sound B h) (hp : h.freep ∈ B) (hnu : Honest (coreUnits n))
    (hmore : morecore sbrk fuel h n = some (q, h')) :
  ∃ B', Sound B' h' ∧ (q ≠ 0 → q ∈ B' ∧ h'.freep ∈ B')
  := by
  rw [Malloc.morecore] at hmore
  dsimp only at hmore
  split at hmore
  · cases hmore
    exact ⟨B, hs, fun h => absurd rfl h⟩
  · rename_i a hsbrk
    obtain ⟨h'', hfree, heq⟩ := Option.map_eq_some_iff.mp hmore
    cases heq
    generalize hh₁ : ({ h with regions := (a, (sbrkArg (coreUnits n)).toNat) :: h.regions } : Heap) = h₁ at hfree
    have hs₁ : Sound B h₁ := by
      subst hh₁
      refine ⟨hs.freep, hs.ptr, ?_⟩
      intro p hp x hx hlt
      obtain ⟨r, hr, hxr⟩ := hs.obtained p hp x hx hlt
      exact ⟨r, List.mem_cons_of_mem _ hr, hxr⟩
    have hnew : h₁.Obtained a (a + 16 * (coreUnits n).toNat) := by
      subst hh₁
      intro x hx hlt
      refine ⟨_, List.mem_cons_self, hx, ?_⟩
      have := hnu.2
      dsimp only
      omega
    have hfreep : (h₁.setSize a (coreUnits n)).freep ∈ B := by
      subst hh₁
      exact hp
    have hres := (hs₁.setSize hnew).free hfreep (h₁.behind_setSize a _ ▸ hnew) hfree
    have hin := Set.mem_insert_of_mem a hres.2
    exact ⟨_, hres.1, fun _ => ⟨hin, hin⟩⟩

/-- The block that `malloc` returns has the units that were asked for. -/
theorem Sound.mallocLoop (hs : Sound B h) (hfreep : h.freep ∈ B) (hprev : q ∈ B) (hp : p ∈ B)
    (hn : Honest (coreUnits n)) {r : ℕ} (hloop : mallocLoop sbrk n fuel h q p = some (r, h')) :
  ∃ B', Sound B' h' ∧ (r ≠ 0 → ∃ a, r = a + 16 ∧ h'.Obtained a (a + 16 * n.toNat))
  := by
  induction fuel generalizing B h q p with
  | zero => cases hloop
  | succ fuel ih =>
    rw [Malloc.mallocLoop] at hloop
    by_cases hsize : n ≤ h.size p
    · rw [if_pos hsize] at hloop
      have hobt := hs.obtained p hp
      by_cases heq : h.size p = n
      · rw [if_pos heq] at hloop
        cases hloop
        refine ⟨B, (hs.setPtr (hs.ptr p hp)).setFreep hprev, fun _ => ⟨p, rfl, ?_⟩⟩
        rw [Heap.behind, heq] at hobt
        exact hobt
      · rw [if_neg heq] at hloop
        cases hloop
        have hle : n.toNat ≤ (h.size p).toNat := UInt32.le_iff_toNat_le.mp hsize
        have hsub : (h.size p - n).toNat = (h.size p).toNat - n.toNat := UInt32.toNat_sub_of_le _ _ hsize
        have hrest : h.Obtained p (p + 16 * (h.size p - n).toNat) := by
          intro x hx hlt
          apply hobt x hx
          rw [Heap.behind]
          omega
        rw [Heap.behind_setSize]
        have htail : h.Obtained (p + 16 * (h.size p - n).toNat)
            (p + 16 * (h.size p - n).toNat + 16 * n.toNat) := by
          intro x hx hlt
          apply hobt x (by omega)
          rw [Heap.behind]
          omega
        exact ⟨B, ((hs.setSize hrest).setSize htail).setFreep hprev, fun _ => ⟨_, rfl, htail⟩⟩
    · rw [if_neg hsize] at hloop
      split_ifs at hloop
      · split at hloop
        · cases hloop
        · rename_i p' h₁ hmore
          obtain ⟨B', hs', hin⟩ := hs.morecore hfreep hn hmore
          split_ifs at hloop with hnull
          · cases hloop
            exact ⟨B', hs', fun h => absurd rfl h⟩
          · exact ih hs' (hin hnull).2 (hin hnull).1 (hs'.ptr p' (hin hnull).1) hloop
      · exact ih hs hfreep hp (hs.ptr p hp) hloop

theorem Sound.start (base : ℕ) (hs : Sound B h) :
  ∃ B', Sound B' (start base h) ∧ (start base h).freep ∈ B'
  := by
  unfold Malloc.start
  split_ifs with hnull
  · refine ⟨{base}, ⟨Or.inr rfl, ?_, ?_⟩, rfl⟩
    · rintro p rfl
      exact update_self ..
    · rintro p rfl x hx hlt
      rw [Heap.behind_setSize] at hlt
      exact absurd hx (Nat.not_le_of_lt hlt)
  · exact ⟨B, hs, hs.freep.resolve_left hnull⟩

end Sound

theorem honest_iff (nu : UInt32) : Honest nu ↔ nu.toNat * 16 < 2 ^ 31
  := by
  unfold Honest sbrkArg Int.bmod
  dsimp only
  split_ifs
  · omega
  · omega

theorem units_toNat (nbytes : UInt32) : (units nbytes).toNat = (nbytes.toNat + 15) / 16 + 1
  := by
  apply UInt32.toNat_ofNat_of_lt
  have := nbytes.toNat_lt
  rw [UInt32.size]
  omega

theorem coreUnits_toNat (nu : UInt32) : (coreUnits nu).toNat = max nu.toNat 4096
  := by
  unfold coreUnits
  split_ifs with hsmall
  · have hsmall' : nu.toNat < 4096 := hsmall
    rw [max_eq_right (Nat.le_of_lt hsmall')]
    rfl
  · have hlarge : ¬ nu.toNat < 4096 := hsmall
    rw [max_eq_left (Nat.le_of_not_lt hlarge)]

/-- What `sbrk` is asked for is enough exactly for requests below 2 GB, and then `malloc` returns
memory that has been obtained. -/
theorem malloc_obtained_iff (nbytes : UInt32) :
  (Honest (coreUnits (units nbytes)) ↔ max ((nbytes.toNat + 15) / 16 + 1) 4096 * 16 < 2 ^ 31)
    ∧ (max ((nbytes.toNat + 15) / 16 + 1) 4096 * 16 < 2 ^ 31 →
      ∀ sbrk base fuel B h p h', Sound B h → malloc sbrk base fuel h nbytes = some (p, h') →
        (p ≠ 0 → h'.Obtained p (p + nbytes.toNat)) ∧ ∃ B', Sound B' h')
  := by
  have hiff : Honest (coreUnits (units nbytes))
      ↔ max ((nbytes.toNat + 15) / 16 + 1) 4096 * 16 < 2 ^ 31 := by
    rw [honest_iff, coreUnits_toNat, units_toNat]
  refine ⟨hiff, ?_⟩
  intro hsmall sbrk base fuel B h p h' hs hmalloc
  obtain ⟨B₁, hs₁, hin⟩ := hs.start base
  obtain ⟨B', hs', hblock⟩ := hs₁.mallocLoop hin hin (hs₁.ptr _ hin) (hiff.mpr hsmall) hmalloc
  refine ⟨?_, B', hs'⟩
  intro hnull x hx hlt
  obtain ⟨a, rfl, hobt⟩ := hblock hnull
  apply hobt x (Nat.le_of_add_right_le hx)
  rw [units_toNat]
  omega

/-- No memory has been asked for. -/
def fresh : Heap := ⟨fun _ => 0, fun _ => 0, 0, []⟩

theorem malloc_obtained_small :
  ∀ p h', malloc (fun _ _ => some 4096) 16 3 fresh 100 = some (p, h') → p ≠ 0 → h'.Obtained p (p + 100)
  := by
  intro p h' hmalloc
  have hsound : Sound ∅ fresh := ⟨Or.inl rfl, by rintro _ ⟨⟩, by rintro _ ⟨⟩⟩
  exact ((malloc_obtained_iff 100).2 (by decide) _ _ _ _ _ _ _ hsound hmalloc).1

/-- For `0xffffffff` bytes, `sbrk` is asked for 16, and `malloc` returns the memory behind them. -/
theorem malloc_overruns :
  ∃ h', malloc (fun _ _ => some 4096) 16 3 fresh 0xffffffff = some (4112, h')
    ∧ h'.regions = [(4096, 16)] ∧ ¬ h'.Obtained 4112 (4112 + 0xffffffff)
  := by
  have hrun : (malloc (fun _ _ => some 4096) 16 3 fresh 0xffffffff).map
      (fun r => (r.1, r.2.regions)) = some (4112, [(4096, 16)]) := by decide
  obtain ⟨⟨p, h'⟩, hmalloc, heq⟩ := Option.map_eq_some_iff.mp hrun
  obtain ⟨rfl, hregions⟩ := Prod.mk.inj heq
  refine ⟨h', hmalloc, hregions, ?_⟩
  intro hobt
  obtain ⟨r, hr, -, hlt⟩ := hobt 4112 (Nat.le_refl _) (Nat.lt_add_of_pos_right (by decide))
  rw [hregions, List.mem_singleton] at hr
  subst hr
  exact absurd hlt (by decide)

end Xv6.Malloc
