import Xv6.Lib.Stop
import Xv6.Lib.Traversal
import Xv6.Proc.Table

/-!
# The process tree viewer

`ptv` prints the entries that `getprocs` returns as a tree: `dfs` prints the entries with a
given parent, each followed by what hangs below it.  The recursion has no bound of its own.  The
model gets a bound on the nesting of the calls and stops when it is exceeded; a run that does not
stop is a run of the program, and one that stops is the beginning of one.

The numbers of entries and levels are not larger than the number of entries, which is an `int`,
so the counters do not overflow.
-/

namespace Xv6

namespace Ptv

/-! ### The program -/

/-- The bytes of a string constant. -/
def text (s : String) : List UInt8 := s.toUTF8.toList

/-- What `printf` prints for `%s`: the bytes up to the first zero. -/
def str (name : List UInt8) : List UInt8 := name.takeWhile (· ≠ 0)

/-- What is printed before an entry at a depth. -/
def indent (depth : ℕ) : List UInt8 :=
  (List.range depth).flatMap fun i => if i = depth - 1 then text "  └── " else text "      "

/-- What is printed of the state of an entry, `PINFO_` being the numbers of `enum procstate`. -/
def stateText (state : ℤ) : String :=
  if state = ProcState.zombie.code then ",ZOMBIE"
  else if state = ProcState.running.code then ",RUN"
  else if state = ProcState.sleeping.code then ",SLEEP"
  else if state = ProcState.runnable.code then ",RDY"
  else ""

/-- The line that `print_process` prints. -/
def printProcess (p : Pinfo) (depth : ℕ) : List UInt8 :=
  indent depth ++ str p.name ++ text ("(" ++ toString p.pid ++ stateText p.state ++ ")\n")

/-- The last line. -/
def printTotal (count : ℕ) : List UInt8 := text ("Total: " ++ toString count ++ " processes\n")

/-- The lines printed so far, and `total_count`.  No step depends on `calls`, the depths that
`dfs` has been called with. -/
structure Out where
  lines : List (List UInt8)
  count : ℕ
  calls : List ℕ

abbrev PtvM := EStateM Unit Out

def print (line : List UInt8) : PtvM Unit := modify fun o => { o with lines := o.lines ++ [line] }

/-- `dfs(parent_pid, depth, procs, n, count)`, with at most `fuel` nested calls. -/
def dfs (procs : List Pinfo) : ℕ → ℤ → ℕ → PtvM Unit
  | fuel, parentPid, depth => do
    modify fun o => { o with calls := o.calls ++ [depth] }
    match fuel with
    | 0 => throw ()
    | fuel + 1 =>
      procs.forM fun p => do
        if p.ppid = parentPid then
          modify fun o => { o with count := o.count + 1 }
          print (printProcess p depth)
          dfs procs fuel p.pid (depth + 1)

/-- `main`, with what `getprocs` returns; `none` is a failure.  The result is the exit
status. -/
def main (fuel : ℕ) : Option (List Pinfo) → PtvM ℤ
  | none => do
    print (text "ptv: getprocs failed\n")
    return 1
  | some procs => do
    if procs.length = 0 then
      print (text "No processes found\n")
      return 0
    else
      match procs.find? (·.pid = 1) with
      | none =>
        print (text "ptv: init process not found\n")
        return 1
      | some init =>
        print (str init.name ++ text ("(" ++ toString init.pid ++ stateText init.state ++ ")\n"))
        modify fun o => { o with count := 1 }
        dfs procs fuel 1 1
        let o ← get
        print (printTotal o.count)
        return 0

/-- Nothing has been printed. -/
def Out.empty : Out where
  lines := []
  count := 0
  calls := []

/-! ### What a call prints -/

open Stop

/-- The entries whose parent is a given entry, in the order of the array. -/
def children (procs : List Pinfo) (e : Pinfo) : List Pinfo := procs.filter (·.ppid = e.pid)

theorem mem_children {procs : List Pinfo} {e c : Pinfo} :
  c ∈ children procs e ↔ c ∈ procs ∧ c.ppid = e.pid
  := by
  simp [children]

/-- What `dfs` does with an entry that it has found. -/
def visit (procs : List Pinfo) (fuel depth : ℕ) (p : Pinfo) : PtvM Unit := do
  modify fun o => { o with count := o.count + 1 }
  print (printProcess p depth)
  dfs procs fuel p.pid (depth + 1)

theorem forM_ite_eq {l : List Pinfo} (c : Pinfo → Bool) (f : Pinfo → PtvM Unit) :
  (l.forM fun p => if c p then f p else pure ()) = (l.filter c).forM f
  := by
  induction l with
  | nil => rfl
  | cons p l ih =>
    simp only [List.forM_eq_forM] at ih ⊢
    by_cases hp : c p = true
    · rw [List.filter_cons_of_pos hp, List.forM_cons, List.forM_cons, if_pos hp, ih]
    · rw [List.filter_cons_of_neg hp, List.forM_cons, if_neg hp, pure_bind, ih]

/-- A call of `dfs` visits the entries with the given parent. -/
theorem dfs_succ (procs : List Pinfo) (fuel : ℕ) (pid : ℤ) (depth : ℕ) :
  dfs procs (fuel + 1) pid depth = (do
    modify fun o => { o with calls := o.calls ++ [depth] }
    (procs.filter (·.ppid = pid)).forM (visit procs fuel depth))
  := by
  rw [dfs, ← forM_ite_eq]
  simp only [decide_eq_true_eq, visit]

/-- The visits to some entries print the lines of the trees below them. -/
theorem wp_visit {procs : List Pinfo} {d : ℕ} {as : List Pinfo} {l : List (Pinfo × ℕ)}
    (h : DepthFirst (children procs) d as l) {fuel : ℕ} (hfuel : ∀ e ∈ l, e.2 < d + fuel) (o : Out) :
  wp (as.forM (visit procs fuel d))
    (fun _ o' => o'.lines = o.lines ++ l.map (fun e => printProcess e.1 e.2)
      ∧ o'.count = o.count + l.length)
    (fun _ _ => False) o
  := by
  induction h generalizing fuel o with
  | nil => exact ⟨(List.append_nil _).symm, rfl⟩
  | @cons d a as l l' _ _ ih ih' =>
    obtain ⟨fuel, rfl⟩ : ∃ k, fuel = k + 1 := by
      have := hfuel (a, d) List.mem_cons_self
      exact ⟨fuel - 1, by omega⟩
    rw [List.forM_eq_forM, List.forM_cons, visit, dfs_succ]
    simp only [wp_bind, wp_modify, print]
    have hbelow : ∀ e ∈ l, e.2 < d + 1 + fuel := by
      intro e he
      have := hfuel e (List.mem_cons_of_mem _ (List.mem_append_left _ he))
      omega
    apply wp_mono (ih hbelow _) _ (fun _ _ he => he)
    rintro - o₁ ⟨hlines, hcount⟩
    have hrest : ∀ e ∈ l', e.2 < d + (fuel + 1) :=
      fun e he => hfuel e (List.mem_cons_of_mem _ (List.mem_append_right _ he))
    apply wp_mono (ih' hrest o₁) _ (fun _ _ he => he)
    rintro - o₂ ⟨hlines', hcount'⟩
    constructor
    · rw [hlines', hlines, List.map_cons, List.map_append, List.append_assoc, List.append_assoc,
        List.singleton_append]
    · dsimp only at hcount
      rw [hcount', hcount, List.length_cons, List.length_append]
      omega

/-! ### Arrays that are trees -/

/-- The number of `ppid` steps from an entry to pid `1`. -/
inductive Steps (procs : List Pinfo) : Pinfo → ℕ → Prop where
  | root {e : Pinfo} : e ∈ procs → e.pid = 1 → Steps procs e 0
  | up {e e' : Pinfo} {k : ℕ} : e ∈ procs → e'.pid = e.ppid → Steps procs e' k → Steps procs e (k + 1)

/-- The pids are distinct, one entry has pid `1` and no parent, and from every other entry the
parents lead to it. -/
structure Rooted (procs : List Pinfo) : Prop where
  nodup : (procs.map Pinfo.pid).Nodup
  root : ∃! e, e ∈ procs ∧ e.pid = 1 ∧ e.ppid = -1
  parent : ∀ e ∈ procs, ¬ (e.pid = 1 ∧ e.ppid = -1) → ∃ e' k, e'.pid = e.ppid ∧ Steps procs e' k

namespace Steps

variable {procs : List Pinfo} {e : Pinfo} {k : ℕ}

theorem mem (h : Steps procs e k) : e ∈ procs := by
  cases h with
  | root he _ => exact he
  | up he _ _ => exact he

end Steps

namespace Rooted

variable {procs : List Pinfo} {e e' : Pinfo} {k k' : ℕ}

theorem eq_of_pid (h : Rooted procs) (he : e ∈ procs) (he' : e' ∈ procs) (hpid : e.pid = e'.pid) :
  e = e'
  := List.inj_on_of_nodup_map h.nodup he he' hpid

theorem exists_steps (h : Rooted procs) (he : e ∈ procs) : ∃ k, Steps procs e k := by
  by_cases hroot : e.pid = 1 ∧ e.ppid = -1
  · exact ⟨0, .root he hroot.1⟩
  · obtain ⟨e', k, hpid, hk⟩ := h.parent e he hroot
    exact ⟨k + 1, .up he hpid hk⟩

/-- The entry with pid `1` has no parent. -/
theorem ppid_eq (h : Rooted procs) (he : e ∈ procs) (hpid : e.pid = 1) : e.ppid = -1 := by
  obtain ⟨r, ⟨hr, hr1, hrp⟩, -⟩ := h.root
  rw [h.eq_of_pid he hr (hpid.trans hr1.symm)]
  exact hrp

section Unique

variable (h : Rooted procs) (hneg : ∀ e ∈ procs, e.pid ≠ -1)
include h hneg

theorem steps_unique (hk : Steps procs e k) (hk' : Steps procs e k') : k = k' := by
  induction hk generalizing k' with
  | root he hpid =>
    cases hk' with
    | root _ _ => rfl
    | up _ hparent hsteps =>
      exact absurd (hparent.trans (h.ppid_eq he hpid)) (hneg _ hsteps.mem)
  | up he hparent hsteps ih =>
    cases hk' with
    | root _ hpid =>
      exact absurd (hparent.trans (h.ppid_eq he hpid)) (hneg _ hsteps.mem)
    | up _ hparent' hsteps' =>
      have heq := h.eq_of_pid hsteps'.mem hsteps.mem (hparent'.trans hparent.symm)
      rw [ih (heq ▸ hsteps')]

/-- The entries on the way to pid `1` are distinct. -/
theorem steps_lt (hk : Steps procs e k) : k < procs.length := by
  have hpath : ∃ c : List Pinfo, c.length = k + 1 ∧ c.Nodup
      ∧ ∀ x ∈ c, ∃ j ≤ k, Steps procs x j := by
    induction hk with
    | @root e he hpid =>
      refine ⟨[e], rfl, List.nodup_singleton _, ?_⟩
      intro x hx
      rw [List.mem_singleton] at hx
      exact ⟨0, Nat.le_refl _, hx ▸ .root he hpid⟩
    | @up e e' k he hparent hsteps ih =>
      obtain ⟨c, hlen, hnodup, hc⟩ := ih
      refine ⟨e :: c, by rw [List.length_cons, hlen], List.nodup_cons.mpr ⟨?_, hnodup⟩, ?_⟩
      · intro hmem
        obtain ⟨j, hj, hsteps'⟩ := hc e hmem
        have := h.steps_unique hneg hsteps' (.up he hparent hsteps)
        omega
      · intro x hx
        obtain rfl | hx := List.mem_cons.mp hx
        · exact ⟨k + 1, Nat.le_refl _, .up he hparent hsteps⟩
        · obtain ⟨j, hj, hsteps'⟩ := hc x hx
          exact ⟨j, Nat.le_succ_of_le hj, hsteps'⟩
  obtain ⟨c, hlen, hnodup, hc⟩ := hpath
  have hsub : c ⊆ procs := by
    intro x hx
    obtain ⟨j, -, hsteps⟩ := hc x hx
    exact hsteps.mem
  have := (List.subperm_of_subset hnodup hsub).length_le
  omega

end Unique

end Rooted

/-! ### The program prints the tree -/

/-- The number of `ppid` steps to pid `1`, `0` if there are none. -/
noncomputable def depthOf (procs : List Pinfo) (e : Pinfo) : ℕ :=
  open Classical in if h : ∃ k, Steps procs e k then h.choose else 0

section Tree

variable {procs : List Pinfo} (h : Rooted procs) (hneg : ∀ e ∈ procs, e.pid ≠ -1) {e r : Pinfo}
include h hneg

theorem depthOf_eq {k : ℕ} (hk : Steps procs e k) : depthOf procs e = k := by
  have hex : ∃ k, Steps procs e k := ⟨k, hk⟩
  unfold depthOf
  rw [dif_pos hex]
  exact h.steps_unique hneg hex.choose_spec hk

/-- A child lies one step below its parent. -/
theorem depthOf_child {e c : Pinfo} (he : e ∈ procs) (hc : c ∈ children procs e) :
  c ∈ procs ∧ depthOf procs c = depthOf procs e + 1
  := by
  obtain ⟨hmem, hppid⟩ := mem_children.mp hc
  obtain ⟨k, hk⟩ := h.exists_steps he
  refine ⟨hmem, ?_⟩
  rw [depthOf_eq h hneg hk, depthOf_eq h hneg (.up hmem hppid.symm hk)]

theorem depthOf_lt (he : e ∈ procs) : depthOf procs e < procs.length := by
  obtain ⟨k, hk⟩ := h.exists_steps he
  rw [depthOf_eq h hneg hk]
  exact h.steps_lt hneg hk

omit hneg in
/-- Every entry is below the one with pid `1`. -/
theorem descends {r e : Pinfo} (hr : r ∈ procs) (hpid : r.pid = 1) (he : e ∈ procs) :
  Descends (children procs) r e
  := by
  obtain ⟨k, hk⟩ := h.exists_steps he
  induction hk with
  | root he hpid' => rw [h.eq_of_pid he hr (hpid'.trans hpid.symm)]
  | up he hparent hsteps ih => exact (ih hsteps.mem).tail (mem_children.mpr ⟨he, hparent.symm⟩)

/-- The preorder of the tree lists every entry once, with its number of steps. -/
theorem exists_depthFirst (hr : r ∈ procs) (hpid : r.pid = 1) :
  ∃ l, DepthFirst (children procs) 0 [r] ((r, 0) :: l)
    ∧ (((r, 0) :: l).map Prod.fst).Perm procs
    ∧ ∀ e ∈ (r, 0) :: l, Steps procs e.1 e.2
  := by
  have hchild : ∀ e, e ∈ procs → ∀ c ∈ children procs e,
      c ∈ procs ∧ depthOf procs c = depthOf procs e + 1 := fun e he c hc => depthOf_child h hneg he hc
  have hroot : depthOf procs r = 0 := depthOf_eq h hneg (.root hr hpid)
  have has : ∀ e ∈ [r], e ∈ procs ∧ depthOf procs e = 0 := by
    intro e he
    rw [List.mem_singleton.mp he]
    exact ⟨hr, hroot⟩
  obtain ⟨l, hl⟩ : ∃ l, DepthFirst (children procs) 0 [r] l := by
    apply DepthFirst.exists_of_rank (P := (· ∈ procs)) (n := procs.length + 1)
      (fun e => procs.length - depthOf procs e)
    · intro e he c hc
      obtain ⟨hmem, hdepth⟩ := hchild e he c hc
      have := depthOf_lt h hneg hmem
      exact ⟨hmem, by omega⟩
    · intro e he
      exact ⟨(has e he).1, by omega⟩
  have hprocs : procs.Nodup := List.Nodup.of_map _ h.nodup
  have hnodup : (l.map Prod.fst).Nodup := by
    apply DepthFirst.nodup hchild _ _ hl has (List.nodup_singleton r)
    · intro e e' c he he' hc hc'
      apply h.eq_of_pid he he'
      rw [← (mem_children.mp hc).2, (mem_children.mp hc').2]
    · intro e _
      exact hprocs.filter _
  have hperm : (l.map Prod.fst).Perm procs := by
    rw [List.perm_ext_iff_of_nodup hnodup hprocs]
    intro e
    rw [hl.mem_iff]
    constructor
    · rintro ⟨c, hc, hce⟩
      exact (descends_depth hchild hce (has c hc).1).1
    · intro he
      exact ⟨r, List.mem_singleton_self r, descends h hr hpid he⟩
  have hdepth := hl.depth_eq hchild has
  cases hl with
  | @cons _ _ _ l₁ l₂ hbelow hrest =>
    refine ⟨l₁ ++ l₂, .cons hbelow hrest, hperm, ?_⟩
    intro e he
    obtain ⟨hmem, hd⟩ := hdepth e he
    obtain ⟨k, hk⟩ := h.exists_steps hmem
    rw [← hd, depthOf_eq h hneg hk]
    exact hk

omit hneg in
theorem find_root (hr : r ∈ procs) (hpid : r.pid = 1) : procs.find? (·.pid = 1) = some r := by
  obtain ⟨e, he⟩ : ∃ e, procs.find? (·.pid = 1) = some e := by
    rw [← Option.isSome_iff_exists, List.find?_isSome]
    exact ⟨r, hr, by simpa using hpid⟩
  have hpid' : e.pid = 1 := by simpa using List.find?_some he
  rw [he, h.eq_of_pid (List.mem_of_find?_eq_some he) hr (hpid'.trans hpid.symm)]

/-- `ptv` ends, and prints every entry once, at its number of `ppid` steps to pid `1`, in the
preorder of the tree, and then the number of entries. -/
theorem main_prints_tree {fuel : ℕ} (hfuel : procs.length ≤ fuel) :
  ∃ r ∈ procs, r.pid = 1 ∧ ∃ l o, main fuel (some procs) Out.empty = .ok 0 o
    ∧ o.lines = l.map (fun e => printProcess e.1 e.2) ++ [printTotal procs.length]
    ∧ DepthFirst (children procs) 0 [r] l ∧ (l.map Prod.fst).Perm procs
    ∧ ∀ e ∈ l, Steps procs e.1 e.2
  := by
  obtain ⟨r, ⟨hr, hpid, -⟩, -⟩ := h.root
  obtain ⟨l, hl, hperm, hsteps⟩ := exists_depthFirst h hneg hr hpid
  have hlen : procs.length = l.length + 1 := by
    have := hperm.length_eq
    rwa [List.length_map, List.length_cons, eq_comm] at this
  obtain ⟨fuel, rfl⟩ : ∃ k, fuel = k + 1 := ⟨fuel - 1, by omega⟩
  -- the line of the root has no indentation, and the others are printed by `dfs`
  have hline : str r.name ++ text ("(" ++ toString r.pid ++ stateText r.state ++ ")\n")
      = printProcess r 0 := rfl
  have hbelow : DepthFirst (children procs) 1 (procs.filter (·.ppid = 1)) l := by
    have hchildren : children procs r = procs.filter (·.ppid = 1) := by rw [children, hpid]
    cases hl with
    | cons hbelow hrest =>
      cases hrest
      rwa [List.append_nil, ← hchildren]
  have hdeep : ∀ e ∈ l, e.2 < 1 + fuel := by
    intro e he
    have := h.steps_lt hneg (hsteps e (List.mem_cons_of_mem _ he))
    omega
  have hmain : wp (main (fuel + 1) (some procs)) (fun status o => status = 0
      ∧ o.lines = ((r, 0) :: l).map (fun e => printProcess e.1 e.2) ++ [printTotal procs.length])
      (fun _ _ => False) Out.empty := by
    have hne : ¬ procs.length = 0 := by omega
    rw [main, if_neg hne, find_root h hr hpid]
    simp only [wp_bind, wp_modify, wp_get, wp_pure, print, hline, dfs_succ]
    apply wp_mono (wp_visit hbelow hdeep _) _ (fun _ _ he => he)
    rintro - o ⟨hlines, hcount⟩
    refine ⟨trivial, ?_⟩
    dsimp only at hlines hcount ⊢
    rw [hlines, hcount, hlen, Nat.add_comm 1, Out.empty, List.nil_append, List.map_cons,
      List.singleton_append]
  obtain ⟨status, o, hrun, rfl, hlines⟩ := exists_ok_of_wp hmain
  exact ⟨r, hr, hpid, (r, 0) :: l, o, hrun, hlines, hl, hperm, hsteps⟩

end Tree

/-- An entry that is ready to run. -/
def ready (pid ppid : ℤ) : Pinfo := { pid, ppid, state := ProcState.runnable.code, name := [] }

theorem main_prints_tree_chain :
  ∃ r ∈ [ready 3 2, ready 2 1, ready 1 (-1)], r.pid = 1 ∧ ∃ l o,
    main 3 (some [ready 3 2, ready 2 1, ready 1 (-1)]) Out.empty = .ok 0 o
      ∧ o.lines = l.map (fun e => printProcess e.1 e.2) ++ [printTotal 3]
      ∧ DepthFirst (children [ready 3 2, ready 2 1, ready 1 (-1)]) 0 [r] l
      ∧ (l.map Prod.fst).Perm [ready 3 2, ready 2 1, ready 1 (-1)]
      ∧ ∀ e ∈ l, Steps [ready 3 2, ready 2 1, ready 1 (-1)] e.1 e.2
  := by
  have hone : Steps [ready 3 2, ready 2 1, ready 1 (-1)] (ready 1 (-1)) 0 := .root (by decide) rfl
  have htwo : Steps [ready 3 2, ready 2 1, ready 1 (-1)] (ready 2 1) 1 := .up (by decide) rfl hone
  have hrooted : Rooted [ready 3 2, ready 2 1, ready 1 (-1)] := by
    refine ⟨by decide, ⟨ready 1 (-1), by decide, ?_⟩, ?_⟩
    · rintro e ⟨he, hroot⟩
      revert e
      decide
    intro e he hnot
    simp only [List.mem_cons, List.not_mem_nil, or_false] at he
    obtain rfl | rfl | rfl := he
    · exact ⟨_, _, rfl, htwo⟩
    · exact ⟨_, _, rfl, hone⟩
    · exact absurd ⟨rfl, rfl⟩ hnot
  exact main_prints_tree hrooted (by decide) (Nat.le_refl 3)

/-- With an entry whose pid is `-1`, the entry with pid `1` is found as its child, and the
recursion does not end. -/
theorem main_diverges :
  Rooted [ready 1 (-1), ready (-1) 1]
    ∧ ∀ fuel, ∃ o, main fuel (some [ready 1 (-1), ready (-1) 1]) Out.empty = .error () o
  := by
  constructor
  · refine ⟨by decide, ⟨ready 1 (-1), by decide, ?_⟩, ?_⟩
    · rintro e ⟨he, hroot⟩
      revert e
      decide
    · intro e he hnot
      simp only [List.mem_cons, List.not_mem_nil, or_false] at he
      obtain rfl | rfl := he
      · exact absurd ⟨rfl, rfl⟩ hnot
      · exact ⟨ready 1 (-1), 0, rfl, .root (by decide) rfl⟩
  · have hdfs : ∀ fuel, ∀ pid ∈ [(1 : ℤ), -1], ∀ d o,
        wp (dfs [ready 1 (-1), ready (-1) 1] fuel pid d) (fun _ _ => False) (fun _ _ => True) o := by
      intro fuel
      induction fuel with
      | zero => exact fun _ _ _ _ => trivial
      | succ fuel ih =>
        intro pid hpid d o
        -- the one child of an entry is the other entry
        obtain ⟨e, he, hnext⟩ : ∃ e, [ready 1 (-1), ready (-1) 1].filter (·.ppid = pid) = [e]
            ∧ e.pid ∈ [(1 : ℤ), -1] := by
          obtain rfl | hpid := List.mem_cons.mp hpid
          · exact ⟨ready (-1) 1, by decide, by decide⟩
          · obtain rfl := List.mem_singleton.mp hpid
            exact ⟨ready 1 (-1), by decide, by decide⟩
        rw [dfs_succ, he, List.forM_eq_forM, List.forM_cons, visit]
        simp only [wp_bind, wp_modify, print]
        apply wp_mono (ih e.pid hnext _ _) _ (fun _ _ _ => trivial)
        exact fun _ _ hfalse => hfalse.elim
    intro fuel
    have hmain : wp (main fuel (some [ready 1 (-1), ready (-1) 1])) (fun _ _ => False) (fun _ _ => True)
        Out.empty := by
      have hfind : [ready 1 (-1), ready (-1) 1].find? (·.pid = 1) = some (ready 1 (-1)) := by decide
      rw [main, if_neg (by decide), hfind]
      simp only [wp_bind, wp_modify, print]
      apply wp_mono (hdfs fuel 1 (by decide) _ _) _ (fun _ _ _ => trivial)
      exact fun _ _ hfalse => hfalse.elim
    obtain ⟨_, o, ho, -⟩ := exists_error_of_wp hmain
    exact ⟨o, ho⟩

end Ptv

end Xv6
