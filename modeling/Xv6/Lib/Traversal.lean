import Mathlib.Logic.Relation
import Mathlib.Data.List.Nodup
import Mathlib.Tactic

/-!
# Depth-first traversal

A tree is given by the lists of children of its nodes.  `DepthFirst children d as l` says that `l` is
the preorder of the trees with the roots `as`, which lie at depth `d`: every node is followed by the
nodes below it, and siblings stand in the order of their list.  There is one when a rank
decreases from parents to children.  When moreover the depth of a node is known and no node has two
parents, the nodes below the roots are listed once each, with their depths.
-/

universe u

variable {α : Type u} {children : α → List α}

/-- The nodes of the trees below the given roots, with their depths, in preorder. -/
inductive DepthFirst (children : α → List α) : ℕ → List α → List (α × ℕ) → Prop where
  | nil (d : ℕ) : DepthFirst children d [] []
  | cons {d : ℕ} {a : α} {as : List α} {l l' : List (α × ℕ)} :
      DepthFirst children (d + 1) (children a) l → DepthFirst children d as l' →
      DepthFirst children d (a :: as) ((a, d) :: (l ++ l'))

/-- A node and the nodes below it. -/
abbrev Descends (children : α → List α) : α → α → Prop :=
  Relation.ReflTransGen (fun a b => b ∈ children a)

namespace DepthFirst

variable {d : ℕ} {as : List α} {l : List (α × ℕ)} {P : α → Prop}

/-- There is a preorder when a rank decreases from parents to children. -/
theorem exists_of_rank (rank : α → ℕ)
    (hchild : ∀ a, P a → ∀ b ∈ children a, P b ∧ rank b < rank a) {n : ℕ}
    (has : ∀ a ∈ as, P a ∧ rank a < n) :
  ∃ l, DepthFirst children d as l
  := by
  induction n generalizing d as with
  | zero =>
    cases as with
    | nil => exact ⟨[], .nil d⟩
    | cons a as => exact absurd (has a List.mem_cons_self).2 (Nat.not_lt_zero _)
  | succ n ih =>
    induction as with
    | nil => exact ⟨[], .nil d⟩
    | cons a as ihas =>
      obtain ⟨hP, hrank⟩ := has a List.mem_cons_self
      obtain ⟨l', hl'⟩ := ihas (fun b hb => has b (List.mem_cons_of_mem a hb))
      obtain ⟨l, hl⟩ : ∃ l, DepthFirst children (d + 1) (children a) l := by
        apply ih
        intro b hb
        obtain ⟨hPb, hlt⟩ := hchild a hP b hb
        exact ⟨hPb, by omega⟩
      exact ⟨_, .cons hl hl'⟩

/-- The nodes listed are those below the roots. -/
theorem mem_iff (h : DepthFirst children d as l) {b : α} :
  b ∈ l.map Prod.fst ↔ ∃ a ∈ as, Descends children a b
  := by
  induction h with
  | nil => simp
  | @cons d a as l l' _ _ ih ih' =>
    rw [List.map_cons, List.map_append, List.mem_cons, List.mem_append, ih, ih']
    constructor
    · rintro (rfl | ⟨c, hc, hcb⟩ | ⟨c, hc, hcb⟩)
      · exact ⟨_, List.mem_cons_self, .refl⟩
      · exact ⟨a, List.mem_cons_self, .head hc hcb⟩
      · exact ⟨c, List.mem_cons_of_mem a hc, hcb⟩
    · rintro ⟨c, hc, hcb⟩
      obtain rfl | hc := List.mem_cons.mp hc
      · obtain rfl | ⟨e, he, heb⟩ := hcb.cases_head
        · exact Or.inl rfl
        · exact Or.inr (Or.inl ⟨e, he, heb⟩)
      · exact Or.inr (Or.inr ⟨c, hc, hcb⟩)

/-- The depths listed are those of the nodes. -/
theorem depth_eq {depth : α → ℕ} (hchild : ∀ a, P a → ∀ b ∈ children a, P b ∧ depth b = depth a + 1)
    (h : DepthFirst children d as l) (has : ∀ a ∈ as, P a ∧ depth a = d) :
  ∀ e ∈ l, P e.1 ∧ depth e.1 = e.2
  := by
  induction h with
  | nil => exact fun e he => absurd he List.not_mem_nil
  | @cons d a as l l' _ _ ih ih' =>
    obtain ⟨hPa, hda⟩ := has a List.mem_cons_self
    intro e he
    obtain rfl | he := List.mem_cons.mp he
    · exact ⟨hPa, hda⟩
    · obtain he | he := List.mem_append.mp he
      · apply ih _ e he
        intro b hb
        obtain ⟨hPb, hdb⟩ := hchild a hPa b hb
        exact ⟨hPb, by rw [hdb, hda]⟩
      · exact ih' (fun b hb => has b (List.mem_cons_of_mem a hb)) e he

end DepthFirst

section Depth

variable {P : α → Prop} {depth : α → ℕ}
  (hchild : ∀ a, P a → ∀ b ∈ children a, P b ∧ depth b = depth a + 1)
include hchild

/-- Nodes lie deeper than the nodes they are below of. -/
theorem descends_depth {a b : α} (h : Descends children a b) (ha : P a) :
  P b ∧ depth a ≤ depth b ∧ (depth a = depth b → a = b)
  := by
  induction h with
  | refl => exact ⟨ha, Nat.le_refl _, fun _ => rfl⟩
  | tail _ hb ih =>
    obtain ⟨hPc, hle, -⟩ := ih
    obtain ⟨hPb, hdb⟩ := hchild _ hPc _ hb
    exact ⟨hPb, by omega, fun heq => by omega⟩

variable (hparent : ∀ a a' b, P a → P a' → b ∈ children a → b ∈ children a' → a = a')

include hparent

/-- A node is below one node of each depth, when no node has two parents. -/
theorem descends_unique
    {a a' b : α} (ha : P a) (ha' : P a') (hd : depth a = depth a') (h : Descends children a b)
    (h' : Descends children a' b) :
  a = a'
  := by
  induction h with
  | refl => exact ((descends_depth hchild h' ha').2.2 hd.symm).symm
  | @tail c b hac hb ih =>
    obtain ⟨hPc, hle, -⟩ := descends_depth hchild hac ha
    obtain ⟨hPb, hdb⟩ := hchild c hPc b hb
    obtain rfl | ⟨c', hac', hb'⟩ := h'.cases_tail
    · omega
    · obtain ⟨hPc', -⟩ := descends_depth hchild hac' ha'
      obtain rfl := hparent c c' b hPc hPc' hb hb'
      exact ih hac'

/-- No node is listed twice. -/
theorem DepthFirst.nodup
    (hchildren : ∀ a, P a → (children a).Nodup) {d : ℕ} {as : List α} {l : List (α × ℕ)}
    (h : DepthFirst children d as l) (has : ∀ a ∈ as, P a ∧ depth a = d) (hnodup : as.Nodup) :
  (l.map Prod.fst).Nodup
  := by
  induction h with
  | nil => exact List.nodup_nil
  | @cons d a as l l' hl hl' ih ih' =>
    obtain ⟨hPa, hda⟩ := has a List.mem_cons_self
    obtain ⟨hnot, hnodup⟩ := List.nodup_cons.mp hnodup
    have hrest : ∀ b ∈ as, P b ∧ depth b = d := fun b hb => has b (List.mem_cons_of_mem a hb)
    have hdown : ∀ b ∈ children a, P b ∧ depth b = d + 1 := by
      intro b hb
      obtain ⟨hPb, hdb⟩ := hchild a hPa b hb
      exact ⟨hPb, by rw [hdb, hda]⟩
    -- a node in the list of `as` is below a root other than `a`
    have hother : ∀ b ∈ l'.map Prod.fst, ¬ Descends children a b := by
      intro b hb hab
      obtain ⟨c, hc, hcb⟩ := hl'.mem_iff.mp hb
      obtain ⟨hPc, hdc⟩ := hrest c hc
      have hac : a = c := descends_unique hchild hparent hPa hPc (by rw [hda, hdc]) hab hcb
      exact hnot (hac ▸ hc)
    rw [List.map_cons, List.map_append, List.nodup_cons, List.nodup_append]
    refine ⟨?_, ih hdown (hchildren a hPa), ih' hrest hnodup, ?_⟩
    · intro ha
      obtain ha | ha := List.mem_append.mp ha
      · obtain ⟨b, hb, hba⟩ := hl.mem_iff.mp ha
        obtain ⟨hPb, hdb⟩ := hdown b hb
        have hle : depth b ≤ depth a := (descends_depth hchild hba hPb).2.1
        omega
      · exact hother a ha .refl
    · rintro b hb c hc rfl
      obtain ⟨e, he, heb⟩ := hl.mem_iff.mp hb
      exact hother b hc (.head he heb)

end Depth
