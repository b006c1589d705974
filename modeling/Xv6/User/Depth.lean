import Xv6.Proc.Step
import Xv6.User.Ptv

/-!
# How deep the process tree viewer recurses

The depth of the recursion of `dfs` is decided by the data alone: `dfs` is called at depth
`m + 1` exactly when there are `m` entries below pid `1`, each the parent of the next one.
Nothing compares the depth with `MAX_DEPTH`, and processes that fork in turn make chains longer
than that.
-/

namespace Xv6

namespace Ptv

open Stop

abbrev MAX_DEPTH : ℕ := 32

/-- There are `m` entries below a pid, each the parent of the next one. -/
inductive Chain (procs : List Pinfo) : ℤ → ℕ → Prop where
  | nil (pid : ℤ) : Chain procs pid 0
  | cons {e : Pinfo} {m : ℕ} : e ∈ procs → Chain procs e.pid m → Chain procs e.ppid (m + 1)

variable {procs : List Pinfo} {pid : ℤ} {n : ℕ}

theorem Chain.take {m k : ℕ} (h : Chain procs pid m) (hk : k ≤ m) : Chain procs pid k := by
  induction h generalizing k with
  | nil pid =>
    rw [Nat.le_zero.mp hk]
    exact .nil pid
  | cons he _ ih =>
    cases k with
    | zero => exact .nil _
    | succ k => exact .cons he (ih (Nat.le_of_succ_le_succ hk))

/-! ### The calls -/

/-- The calls that have been added are at the depths of chains below the pid, which has depth
`d`. -/
def Follows (procs : List Pinfo) (pid : ℤ) (d : ℕ) (o o' : Out) : Prop :=
  ∀ c ∈ o'.calls, c ∈ o.calls ∨ ∃ m, c = d + m ∧ Chain procs pid m

section Calls

variable {procs : List Pinfo}

theorem Follows.call (pid : ℤ) (d : ℕ) (o : Out) :
  Follows procs pid d o { o with calls := o.calls ++ [d] }
  := by
  intro c hc
  obtain hc | hc := List.mem_append.mp hc
  · exact Or.inl hc
  · rw [List.mem_singleton.mp hc]
    exact Or.inr ⟨0, rfl, .nil pid⟩

/-- The calls below an entry are at the depths of chains that begin with it. -/
theorem Follows.child {e : Pinfo} {d : ℕ} {o o₁ o₂ : Out} (he : e ∈ procs)
    (h : Follows procs e.ppid d o o₁) (hchild : Follows procs e.pid (d + 1) o₁ o₂) :
  Follows procs e.ppid d o o₂
  := by
  intro c hc
  obtain hc | ⟨m, rfl, hm⟩ := hchild c hc
  · exact h c hc
  · exact Or.inr ⟨m + 1, by omega, .cons he hm⟩

/-- The depths of the calls are lengths of chains. -/
theorem wp_dfs_shallow (fuel : ℕ) (pid : ℤ) (d : ℕ) (o : Out) :
  wp (dfs procs fuel pid d) (fun _ => Follows procs pid d o) (fun _ => Follows procs pid d o) o
  := by
  induction fuel generalizing pid d o with
  | zero => exact Follows.call pid d o
  | succ fuel ih =>
    rw [dfs_succ, wp_bind, wp_modify]
    have hloop : wp ((procs.filter (·.ppid = pid)).forM (visit procs fuel d))
        (fun _ o' => Follows procs pid d o o'
          ∧ ∀ e ∈ procs.filter (·.ppid = pid), True)
        (fun _ => Follows procs pid d o) { o with calls := o.calls ++ [d] } := by
      apply wp_forM_mem _ (Follows.call pid d o)
      intro e he o₁ ho₁
      simp only [List.mem_filter, decide_eq_true_eq] at he
      obtain ⟨he, rfl⟩ := he
      rw [visit]
      simp only [wp_bind, wp_modify, print]
      apply wp_mono (ih e.pid (d + 1) _)
      · intro _ o₂ ho₂
        exact ⟨ho₁.child he ho₂, trivial⟩
      · intro _ o₂ ho₂
        exact ho₁.child he ho₂
    exact wp_mono hloop (fun _ _ h => h.1) (fun _ _ h => h)

/-- A call that ends has followed all chains; one that is stopped has gone as deep as it was
allowed to. -/
theorem wp_dfs_deep (fuel : ℕ) (pid : ℤ) (d : ℕ) (o : Out) :
  wp (dfs procs fuel pid d) (fun _ _ => ¬ Chain procs pid fuel) (fun _ o' => d + fuel ∈ o'.calls) o
  := by
  induction fuel generalizing pid d o with
  | zero => exact List.mem_append_right _ (List.mem_singleton_self d)
  | succ fuel ih =>
    rw [dfs_succ, wp_bind, wp_modify]
    have hloop : wp ((procs.filter (·.ppid = pid)).forM (visit procs fuel d))
        (fun _ _ => True ∧ ∀ e ∈ procs.filter (·.ppid = pid), ¬ Chain procs e.pid fuel)
        (fun _ o' => d + (fuel + 1) ∈ o'.calls) { o with calls := o.calls ++ [d] } := by
      apply wp_forM_mem _ trivial
      intro e _ o₁ _
      rw [visit]
      simp only [wp_bind, wp_modify, print]
      apply wp_mono (ih e.pid (d + 1) _)
      · intro _ o₂ hend
        exact ⟨trivial, hend⟩
      · intro _ o₂ hmem
        rwa [Nat.add_right_comm] at hmem
    apply wp_mono hloop _ (fun _ _ hmem => hmem)
    rintro - o₁ ⟨-, hall⟩ hchain
    cases hchain with
    | @cons e m he hm => exact hall e (by simpa using he) hm

end Calls

/-! ### The bound -/

/-- What has been printed and called when a run ends or is stopped. -/
def outOf {α : Type} : EStateM.Result Unit Out α → Out
  | .ok _ o => o
  | .error _ o => o

/-- `dfs` is never called with a depth greater than `MAX_DEPTH`. -/
def Bounded (procs : List Pinfo) : Prop :=
  ∀ fuel, ∀ d ∈ (outOf (main fuel (some procs) Out.empty)).calls, d ≤ MAX_DEPTH

/-- The arrays that `getprocs(procs, NPROC)` returns. -/
def Returned (procs : List Pinfo) : Prop :=
  ∃ s p count, procSystem.Reachable s ∧ s.pc p = .user (some (.getprocs NPROC count procs)) ∧ 0 ≤ count

/-- `main` calls `dfs` when there is an entry with pid `1`, and nothing else calls it. -/
theorem wp_main_calls {fuel : ℕ} (Q C : List ℕ → Prop)
    (hnone : (∀ e ∈ procs, e.pid ≠ 1) → Q [])
    (hdfs : (∃ e ∈ procs, e.pid = 1) → ∀ o : Out, o.calls = [] →
    wp (dfs procs fuel 1 1) (fun _ o' => Q o'.calls) (fun _ o' => C o'.calls) o) :
  wp (main fuel (some procs)) (fun _ o => Q o.calls) (fun _ o => C o.calls) Out.empty
  := by
  rw [main]
  split_ifs with hlen
  · apply hnone
    rw [List.length_eq_zero_iff.mp hlen]
    exact fun e he => absurd he List.not_mem_nil
  · cases hfind : procs.find? (·.pid = 1) with
    | none =>
      apply hnone
      intro e he
      simpa using List.find?_eq_none.mp hfind e he
    | some init =>
      have hroot : ∃ e ∈ procs, e.pid = 1 :=
        ⟨init, List.mem_of_find?_eq_some hfind, by simpa using List.find?_some hfind⟩
      simp only [wp_bind, wp_modify, wp_get, wp_pure, print]
      exact hdfs hroot _ rfl

theorem outOf_of_wp {x : PtvM ℤ} {Q : List ℕ → Prop} {o : Out}
    (h : wp x (fun _ o' => Q o'.calls) (fun _ o' => Q o'.calls) o) :
  Q (outOf (x o)).calls
  := by
  unfold wp at h
  cases hx : x o with
  | ok a o' | error e o' =>
    rw [hx] at h
    exact h

theorem not_bounded (hroot : ∃ e ∈ procs, e.pid = 1)
    (hchain : Chain procs 1 MAX_DEPTH) :
  ¬ Bounded procs
  := by
  intro hbounded
  have hmain : wp (main MAX_DEPTH (some procs)) (fun _ _ => False)
      (fun _ o => 1 + MAX_DEPTH ∈ o.calls) Out.empty := by
    apply wp_main_calls (fun _ => False) (fun calls => 1 + MAX_DEPTH ∈ calls)
    · intro hnone
      obtain ⟨e, he, hpid⟩ := hroot
      exact hnone e he hpid
    · intro _ o _
      exact wp_mono (wp_dfs_deep MAX_DEPTH 1 1 o) (fun _ _ hno => hno hchain) (fun _ _ h => h)
  obtain ⟨_, o, hrun, hmem⟩ := exists_error_of_wp hmain
  have hle := hbounded MAX_DEPTH (1 + MAX_DEPTH) (by rw [hrun]; exact hmem)
  omega

theorem bounded_of_no_chain
    (h : (∃ e ∈ procs, e.pid = 1) → ¬ Chain procs 1 MAX_DEPTH) :
  Bounded procs
  := by
  intro fuel
  have hmain : wp (main fuel (some procs)) (fun _ o => ∀ d ∈ o.calls, d ≤ MAX_DEPTH)
      (fun _ o => ∀ d ∈ o.calls, d ≤ MAX_DEPTH) Out.empty := by
    apply wp_main_calls (fun calls => ∀ d ∈ calls, d ≤ MAX_DEPTH) (fun calls => ∀ d ∈ calls, d ≤ MAX_DEPTH)
    · exact fun _ d hd => absurd hd List.not_mem_nil
    · intro hroot o ho
      have hfollows : ∀ o', Follows procs 1 1 o o' → ∀ d ∈ o'.calls, d ≤ MAX_DEPTH := by
        intro o' hfollows d hd
        obtain hd | ⟨m, rfl, hm⟩ := hfollows d hd
        · rw [ho] at hd
          exact absurd hd List.not_mem_nil
        · by_contra hgt
          exact h hroot (hm.take (by omega))
      exact wp_mono (wp_dfs_shallow fuel 1 1 o) (fun _ => hfollows) (fun _ => hfollows)
  exact outOf_of_wp (Q := fun calls => ∀ d ∈ calls, d ≤ MAX_DEPTH) hmain

/-- For the arrays that `getprocs` returns, the recursion stays within its limit exactly when
there is no chain of `MAX_DEPTH` entries below pid `1`. -/
theorem ptv_bounded_iff {procs : List Pinfo} :
  Returned procs → (Bounded procs ↔ ((∃ e ∈ procs, e.pid = 1) → ¬ Chain procs 1 MAX_DEPTH))
  := by
  intro _
  constructor
  · intro hbounded hroot hchain
    exact not_bounded hroot hchain hbounded
  · exact bounded_of_no_chain

/-! ### A chain of forks -/

/-- The process in slot `i`, the last of a chain, forks. -/
def forkLast (i : ℕ) : List Act :=
  [.dispatch (Fin.ofNat _ i), .call (Fin.ofNat _ i) .fork]
    ++ List.replicate (i + 9) (.run (Fin.ofNat _ i) true)

/-- The process in slot `i`, the last of a chain, calls `getprocs`. -/
def listLast (i : ℕ) : List Act :=
  [.dispatch (Fin.ofNat _ i), .call (Fin.ofNat _ i) (.getprocs NPROC ⟨0, 0, 0, []⟩)]
    ++ List.replicate (i + NPROC + 3) (.run (Fin.ofNat _ i) true)

/-- `n` processes fork in turn, and the last one calls `getprocs`. -/
def chainActs (n : ℕ) : List Act := (List.range n).flatMap forkLast ++ listLast n

/-- The array that a process has got. -/
def snapshot (s : Sys) (p : Slot) : Option (ℤ × List Pinfo) :=
  match s.pc p with
  | .user (some (.getprocs maxCount count copied)) =>
    if maxCount = NPROC ∧ 0 ≤ count then some (count, copied) else none
  | _ => none

theorem returned_of_snapshot {s : Sys} {p : Slot} {count : ℤ} {copied : List Pinfo}
    (hs : procSystem.Reachable s) (h : snapshot s p = some (count, copied)) :
  Returned copied
  := by
  unfold snapshot at h
  split at h
  · rename_i maxCount count' copied' hpc
    split_ifs at h with hcond
    cases h
    exact ⟨s, p, count, hs, hcond.1 ▸ hpc, hcond.2⟩
  · cases h

theorem chain_of_mem (h : ∀ i < n, (pid + i + 1, pid + i) ∈ procs.map (fun e => (e.pid, e.ppid))) :
  Chain procs pid n
  := by
  induction n generalizing pid with
  | zero => exact .nil pid
  | succ n ih =>
    obtain ⟨e, he, heq⟩ := List.mem_map.mp (h 0 (Nat.succ_pos n))
    have hpid : e.pid = pid + 1 := by simpa using congrArg Prod.fst heq
    have hppid : e.ppid = pid := by simpa using congrArg Prod.snd heq
    rw [← hppid]
    apply Chain.cons he
    rw [hpid]
    apply ih
    intro i hi
    have := h (i + 1) (Nat.succ_lt_succ hi)
    rw [Nat.cast_add, Nat.cast_one] at this
    rwa [show pid + 1 + (i : ℤ) + 1 = pid + ((i : ℤ) + 1) + 1 by ring,
      show pid + 1 + (i : ℤ) = pid + ((i : ℤ) + 1) by ring]

/-- The array that the last of `n` processes that fork in turn gets. -/
theorem exists_returned {l : List (ℤ × ℤ)} (h : ((procSystem.exec Sys.boot (chainActs n)).bind
      (fun s => snapshot s (Fin.ofNat _ n))).map (fun r => r.2.map (fun e => (e.pid, e.ppid))) = some l) :
  ∃ procs, Returned procs ∧ procs.map (fun e => (e.pid, e.ppid)) = l
  := by
  obtain ⟨⟨count, procs⟩, hr, hl⟩ := Option.map_eq_some_iff.mp h
  obtain ⟨s, hs, hsnap⟩ := Option.bind_eq_some_iff.mp hr
  have hboot : procSystem.Reachable Sys.boot := .init rfl
  exact ⟨procs, returned_of_snapshot (hboot.exec hs) hsnap, hl⟩

theorem ptv_bounded_iff_fork :
  ∃ procs, Returned procs ∧ procs.map (fun e => (e.pid, e.ppid)) = [(1, -1), (2, 1)]
    ∧ (Bounded procs ↔ ((∃ e ∈ procs, e.pid = 1) → ¬ Chain procs 1 MAX_DEPTH))
  := by
  obtain ⟨procs, hprocs, hl⟩ := exists_returned (n := 1) (l := [(1, -1), (2, 1)]) (by decide)
  exact ⟨procs, hprocs, hl, ptv_bounded_iff hprocs⟩

/-- When `MAX_DEPTH` processes fork in turn, the recursion exceeds its limit. -/
theorem ptv_exceeds_depth : ∃ procs, Returned procs ∧ ¬ Bounded procs := by
  obtain ⟨procs, hprocs, hl⟩ := exists_returned (n := 32)
    (l := (List.range 33).map fun i => ((i : ℤ) + 1, if i = 0 then -1 else (i : ℤ))) (by decide +kernel)
  refine ⟨procs, hprocs, not_bounded ?_ (chain_of_mem ?_)⟩
  · have hmem : ((1 : ℤ), (-1 : ℤ)) ∈ procs.map (fun e => (e.pid, e.ppid)) := by
      rw [hl]
      decide
    obtain ⟨e, he, heq⟩ := List.mem_map.mp hmem
    exact ⟨e, he, congrArg Prod.fst heq⟩
  · rw [hl]
    decide

end Ptv

end Xv6
