import Mathlib.Tactic

/-!
# Tables of slots

A finite map can be kept in a list of slots, each of which is free or has a key with its value.
A key is looked for from the front, a new one is put into the first free slot or behind the last
one, and a slot is freed when its key is removed.  As long as no key is in two slots, these
operations look up, extend and restrict the map.
-/

namespace Slots

open Function

variable {κ ν : Type} [DecidableEq κ]

/-- A slot is free, or has a key and a value. -/
abbrev Table (κ ν : Type) := List (Option (κ × ν))

/-! ### Looking for a key and for a free slot -/

/-- The value of a key and the index of its first slot, when the slots are numbered from `j`. -/
def findFrom (k : κ) : Table κ ν → ℕ → Option (ν × ℕ)
  | [], _ => none
  | none :: l, j => findFrom k l (j + 1)
  | some (k', v) :: l, j => if k = k' then some (v, j) else findFrom k l (j + 1)

def find (k : κ) (l : Table κ ν) : Option (ν × ℕ) := findFrom k l 0

/-- The index of the first free slot, that behind the last one if there is none. -/
def freeFrom : Table κ ν → ℕ → ℕ
  | [], j => j
  | none :: _, j => j
  | some _ :: l, j => freeFrom l (j + 1)

def free (l : Table κ ν) : ℕ := freeFrom l 0

/-- The map that the slots stand for. -/
def get (l : Table κ ν) (k : κ) : Option ν := (find k l).map Prod.fst

/-- The slot `j` is replaced, or a slot is added. -/
def put (l : Table κ ν) (j : ℕ) (x : Option (κ × ν)) : Table κ ν :=
  if j < l.length then l.set j x else l ++ [x]

/-- No key is in two slots. -/
def Distinct (l : Table κ ν) : Prop :=
  ∀ (i j : ℕ) k v w, l[i]? = some (some (k, v)) → l[j]? = some (some (k, w)) → i = j

section Find

variable {l : Table κ ν} {k : κ} {v : ν} {i j : ℕ}

theorem findFrom_eq_some (h : findFrom k l j = some (v, i)) : j ≤ i ∧ l[i - j]? = some (some (k, v)) := by
  induction l generalizing j with
  | nil => cases h
  | cons x l ih =>
    have hnext : findFrom k l (j + 1) = some (v, i) → j ≤ i ∧ (x :: l)[i - j]? = some (some (k, v)) := by
      intro h
      obtain ⟨hle, hget⟩ := ih h
      refine ⟨by omega, ?_⟩
      rwa [show i - j = i - (j + 1) + 1 by omega, List.getElem?_cons_succ]
    match x with
    | none => exact hnext h
    | some (k', v') =>
      unfold findFrom at h
      split_ifs at h with hk
      · subst hk
        cases h
        simp
      · exact hnext h

theorem findFrom_eq_none : findFrom k l j = none ↔ ∀ v, some (k, v) ∉ l := by
  induction l generalizing j with
  | nil => simp [findFrom]
  | cons x l ih =>
    match x with
    | none => simp [findFrom, ih]
    | some (k', v') =>
      unfold findFrom
      split_ifs with hk
      · subst hk
        simp only [false_iff, not_forall, not_not]
        exact ⟨v', List.mem_cons_self⟩
      · simp [ih, hk]

theorem find_eq_some (h : find k l = some (v, i)) : l[i]? = some (some (k, v)) :=
  (findFrom_eq_some h).2

theorem find_eq_none : find k l = none ↔ ∀ v, some (k, v) ∉ l := findFrom_eq_none

/-- A key that is in one slot only is found there. -/
theorem Distinct.find_eq (hd : Distinct l) (h : l[i]? = some (some (k, v))) : find k l = some (v, i) := by
  cases hfind : find k l with
  | none => exact absurd (List.mem_of_getElem? h) (find_eq_none.mp hfind v)
  | some r =>
    obtain ⟨w, j⟩ := r
    have hj := find_eq_some hfind
    obtain rfl := hd i j k v w h hj
    rw [h] at hj
    obtain ⟨-, rfl⟩ := Prod.mk.inj (Option.some.inj (Option.some.inj hj))
    rfl

theorem Distinct.get_eq_some (hd : Distinct l) : get l k = some v ↔ ∃ i : ℕ, l[i]? = some (some (k, v)) := by
  constructor
  · intro h
    obtain ⟨⟨w, i⟩, hfind, rfl⟩ := Option.map_eq_some_iff.mp h
    exact ⟨i, find_eq_some hfind⟩
  · rintro ⟨i, h⟩
    rw [get, hd.find_eq h]
    rfl

theorem get_eq_none : get l k = none ↔ find k l = none := Option.map_eq_none_iff

end Find

section Free

variable {l : Table κ ν} {j : ℕ}

omit [DecidableEq κ] in
theorem freeFrom_spec :
  j ≤ freeFrom l j ∧ freeFrom l j ≤ j + l.length
    ∧ (freeFrom l j < j + l.length → l[freeFrom l j - j]? = some none)
    ∧ ∀ i < freeFrom l j - j, l[i]? ≠ some none
  := by
  induction l generalizing j with
  | nil => simp [freeFrom]
  | cons x l ih =>
    match x with
    | none => simp [freeFrom]
    | some y =>
      obtain ⟨hle, hlen, hfree, hused⟩ := ih (j := j + 1)
      have hstep : freeFrom (some y :: l) j = freeFrom l (j + 1) := rfl
      rw [hstep, List.length_cons]
      refine ⟨by omega, by omega, ?_, ?_⟩
      · intro hlt
        rw [show freeFrom l (j + 1) - j = freeFrom l (j + 1) - (j + 1) + 1 by omega,
          List.getElem?_cons_succ]
        exact hfree (by omega)
      · intro i hi
        cases i with
        | zero => simp
        | succ i =>
          rw [List.getElem?_cons_succ]
          exact hused i (by omega)

omit [DecidableEq κ] in
theorem free_le (l : Table κ ν) : free l ≤ l.length := by
  have h := (freeFrom_spec (l := l) (j := 0)).2.1
  rwa [Nat.zero_add] at h

omit [DecidableEq κ] in
theorem free_slot (h : free l < l.length) : l[free l]? = some none := by
  apply (freeFrom_spec (l := l) (j := 0)).2.2.1
  rwa [Nat.zero_add]

omit [DecidableEq κ] in
/-- The first free slot, or the one that is added, has no key. -/
theorem free_ne_some (l : Table κ ν) (x : κ × ν) : l[free l]? ≠ some (some x) := by
  rcases Nat.lt_or_ge (free l) l.length with h | h
  · rw [free_slot h]
    simp
  · rw [List.getElem?_eq_none h]
    simp

end Free

/-! ### Changing a slot -/

section Put

variable {l : Table κ ν} {k : κ} {v : ν} {x : Option (κ × ν)} {i j : ℕ}

omit [DecidableEq κ] in
theorem getElem?_put (hj : j ≤ l.length) (i : ℕ) : (put l j x)[i]? = if i = j then some x else l[i]? := by
  unfold put
  split_ifs with hlt hij hij
  · rw [hij, List.getElem?_set_self hlt]
  · exact List.getElem?_set_ne (Ne.symm hij)
  · obtain rfl : j = l.length := by omega
    rw [hij, List.getElem?_concat_length]
  · obtain rfl : j = l.length := by omega
    rcases Nat.lt_or_ge i l.length with hi | hi
    · rw [List.getElem?_append_left hi]
    · rw [List.getElem?_eq_none hi, List.getElem?_eq_none]
      rw [List.length_append, List.length_singleton]
      omega

/-- A key that is in no slot may be put into one. -/
theorem Distinct.put_some (hd : Distinct l) (hj : j ≤ l.length) (hnew : find k l = none) :
  Distinct (put l j (some (k, v)))
  := by
  have hnot : ∀ (i : ℕ) w, l[i]? ≠ some (some (k, w)) := fun i w h =>
    find_eq_none.mp hnew w (List.mem_of_getElem? h)
  intro a b k' v' w' ha hb
  rw [getElem?_put hj] at ha hb
  split_ifs at ha hb with haj hbj
  · rw [haj, hbj]
  · obtain ⟨rfl, -⟩ := Prod.mk.inj (Option.some.inj (Option.some.inj ha))
    exact absurd hb (hnot b w')
  · obtain ⟨rfl, -⟩ := Prod.mk.inj (Option.some.inj (Option.some.inj hb))
    exact absurd ha (hnot a v')
  · exact hd a b k' v' w' ha hb

omit [DecidableEq κ] in
theorem Distinct.put_none (hd : Distinct l) (hj : j ≤ l.length) : Distinct (put l j none) := by
  intro a b k v w ha hb
  rw [getElem?_put hj] at ha hb
  split_ifs at ha hb with haj hbj
  · simp at ha
  · simp at ha
  · simp at hb
  · exact hd a b k v w ha hb

omit [DecidableEq κ] in
theorem distinct_nil : Distinct ([] : Table κ ν) := by
  intro a b k v w ha
  simp at ha

/-- Putting a key into a slot that has none extends the map. -/
theorem Distinct.get_put_some (hd : Distinct l) (hj : j ≤ l.length) (hfree : ∀ y, l[j]? ≠ some (some y))
    (hnew : find k l = none) :
  get (put l j (some (k, v))) = update (get l) k (some v)
  := by
  have hput := hd.put_some (v := v) hj hnew
  funext k'
  apply Option.ext
  intro w
  rw [hput.get_eq_some]
  by_cases hk : k' = k
  · subst hk
    rw [update_self]
    constructor
    · rintro ⟨i, hi⟩
      rw [getElem?_put hj] at hi
      split_ifs at hi with hij
      · obtain ⟨-, rfl⟩ := Prod.mk.inj (Option.some.inj (Option.some.inj hi))
        rfl
      · exact absurd (List.mem_of_getElem? hi) (find_eq_none.mp hnew w)
    · intro h
      cases h
      exact ⟨j, by rw [getElem?_put hj, if_pos rfl]⟩
  · rw [update_of_ne hk, hd.get_eq_some]
    apply exists_congr
    intro i
    rw [getElem?_put hj]
    split_ifs with hij
    · constructor
      · intro h
        obtain ⟨rfl, -⟩ := Prod.mk.inj (Option.some.inj (Option.some.inj h))
        exact absurd rfl hk
      · intro h
        rw [hij] at h
        exact absurd h (hfree _)
    · rfl

/-- Freeing the slot of a key restricts the map. -/
theorem Distinct.get_put_none (hd : Distinct l) (hj : l[j]? = some (some (k, v))) :
  get (put l j none) = update (get l) k none
  := by
  obtain ⟨hlt, -⟩ := List.getElem?_eq_some_iff.mp hj
  have hle := Nat.le_of_lt hlt
  have hput := hd.put_none hle
  funext k'
  apply Option.ext
  intro w
  rw [hput.get_eq_some]
  by_cases hk : k' = k
  · subst hk
    rw [update_self]
    constructor
    · rintro ⟨i, hi⟩
      rw [getElem?_put hle] at hi
      split_ifs at hi with hij
      · simp at hi
      · exact absurd (hd i j k' w v hi hj) hij
    · intro h
      cases h
  · rw [update_of_ne hk, hd.get_eq_some]
    apply exists_congr
    intro i
    rw [getElem?_put hle]
    split_ifs with hij
    · constructor
      · intro h
        simp at h
      · intro h
        rw [hij, hj] at h
        obtain ⟨rfl, -⟩ := Prod.mk.inj (Option.some.inj (Option.some.inj h))
        exact absurd rfl hk
    · rfl

end Put

end Slots
