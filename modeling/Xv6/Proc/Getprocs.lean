import Xv6.Proc.Forest

/-!
# Snapshots of the process table

`sys_getprocs` reads the slots one by one, holding `wait_lock` for the whole scan and the
lock of each slot while it reads it.  Meanwhile other processes may allocate slots, give
them up again, and make them runnable; they cannot change a parent or free a zombie.  So
the slots already listed stay as they were listed, and the result is a tree, except for
children that `kfork` has published and not yet linked to their parent.
-/

namespace Xv6

open Function

/-! ### What a result looks like -/

/-- Following `ppid` from a pid leads to pid `1` within the entries. -/
inductive Ancestral (copied : List Pinfo) : ℤ → Prop where
  | root : Ancestral copied 1
  | up {e : Pinfo} : e ∈ copied → Ancestral copied e.ppid → Ancestral copied e.pid

/-- The pids are distinct, one of them is `1`, and every other entry hangs below it, unless
it is excepted. -/
structure Listing (except : Pinfo → Prop) (copied : List Pinfo) : Prop where
  nodup : (copied.map Pinfo.pid).Nodup
  root : ∃! e, e ∈ copied ∧ e.pid = 1
  parent : ∀ e ∈ copied, e.pid ≠ 1 → ¬ except e →
    (∃ e' ∈ copied, e' ≠ e ∧ e'.pid = e.ppid) ∧ Ancestral copied e.pid

/-- A child that `kfork` has made visible and not yet linked to its parent. -/
def Unlinked (e : Pinfo) : Prop := e.ppid = -1 ∧ e.state = ProcState.used.code

/-! ### Slots that have been listed -/

/-- Entry `e` describes slot `i`, whose lock nobody holds for longer than a step. -/
structure Listed (v : View) (i : Slot) (e : Pinfo) : Prop where
  used : v.lineage.kind i ≠ .free
  unlocked : v.lock i = none
  pid : e.pid = v.pid i
  ppid : ∀ q, v.lineage.parent i = some q → e.ppid = v.pid q
  orphan : v.lineage.parent i = none → i = v.lineage.root ∨ Unlinked e

/-- The entries copied so far describe the slots below `k`, and miss none that has a parent. -/
def Scanned (v : View) (k : ℕ) (copied : List Pinfo) : Prop :=
  ∃ seen : List Slot, seen.Nodup ∧ (∀ i ∈ seen, i.val < k) ∧ List.Forall₂ (Listed v) seen copied
    ∧ ∀ i, i.val < k → v.lineage.parent i ≠ none ∨ i = v.lineage.root → i ∈ seen

/-- What holds of the places inside `sys_getprocs`, and of its result. -/
def ScanOk (v : View) : Pc → Prop
  | .getprocsScan _ k _ copied => Scanned v k copied
  | .getprocsCopyout _ k pi copied => Scanned v k copied ∧ ∃ h : k < NPROC, Listed v ⟨k, h⟩ pi
  | .user (some (.getprocs maxCount count copied)) => maxCount = NPROC → 0 ≤ count →
      count = copied.length ∧ (v.allocated < 2 ^ 31 - 1 → Listing Unlinked copied)
  | _ => True

theorem Scanned.nil (v : View) : Scanned v 0 [] := by
  use []
  simp

variable {copied : List Pinfo} {k : ℕ} {i : Slot} {e : Pinfo} {ok : Bool}

/-- An unused slot is passed over. -/
theorem Scanned.skip
    {v : View} (hwf : v.lineage.Wf) (h : Scanned v k copied)
    (hk : k < NPROC) (hfree : v.lineage.kind ⟨k, hk⟩ = .free) :
  Scanned v (k + 1) copied
  := by
  obtain ⟨seen, hnodup, hlt, hlisted, hall⟩ := h
  refine ⟨seen, hnodup, fun i hi => Nat.lt_succ_of_lt (hlt i hi), hlisted, ?_⟩
  intro i hi hp
  apply hall i _ hp
  by_contra hik
  obtain rfl : i = ⟨k, hk⟩ := Fin.ext (Nat.le_antisymm (Nat.lt_succ_iff.mp hi) (Nat.le_of_not_lt hik))
  obtain hp | hr := hp
  · apply hp (hwf.free_orphan _ hfree)
  · rw [hr, hwf.root_live] at hfree
    cases hfree

/-- The entry of a slot is copied. -/
theorem Scanned.append {v : View} (h : Scanned v k copied) (hk : k < NPROC)
    (he : Listed v ⟨k, hk⟩ e) :
  Scanned v (k + 1) (copied ++ [e])
  := by
  obtain ⟨seen, hnodup, hlt, hlisted, hall⟩ := h
  refine ⟨seen ++ [⟨k, hk⟩], ?_, ?_, ?_, ?_⟩
  · rw [List.nodup_append]
    refine ⟨hnodup, List.nodup_singleton _, ?_⟩
    rintro i hi j hj rfl
    rw [List.mem_singleton] at hj
    have := hlt i hi
    rw [hj] at this
    exact Nat.lt_irrefl _ this
  · intro i hi
    obtain hi | hi := List.mem_append.mp hi
    · apply Nat.lt_succ_of_lt (hlt i hi)
    · rw [List.mem_singleton.mp hi]
      apply Nat.lt_succ_self
  · apply List.rel_append hlisted
    exact List.Forall₂.cons he List.Forall₂.nil
  · intro i hi hp
    by_cases hik : i.val = k
    · apply List.mem_append_right
      rw [List.mem_singleton]
      apply Fin.ext hik
    · apply List.mem_append_left
      apply hall i (by omega) hp

/-! ### Other processes do not disturb the scan -/

section Stability

variable {s : Sys} {p q : Slot} {pc' : Pc} {v : View}

/-- While another thread holds `wait_lock`, a step changes no parent. -/
theorem Effect.parent_eq
    (he : Effect s p pc' v) (hI : Inv s.view s.pc) (hq : (s.pc q).holdsWait = true) (hqp : q ≠ p) :
  v.lineage.parent = s.view.lineage.parent ∧ v.lineage.root = s.view.lineage.root
  := by
  have hwait : s.waitLock = some q := (hI.wait q).mpr hq
  have hp : (s.pc p).holdsWait = false := by
    by_contra hp
    apply hqp (hI.wait.eq hq (Bool.not_eq_false _ ▸ hp))
  cases he with
  | touch | takeWait | leaveWait | claim | alloc | publish | ready | die => exact ⟨rfl, rfl⟩
  | abandon np _ ha =>
    have hself := update_eq_self np s.view.lineage.parent
    rw [(ha (hI.loc p)).2] at hself
    exact ⟨hself, rfl⟩
  | adopt np pid _ _ _ hw =>
    rw [hwait] at hw
    cases hw
  | entrust status i hpc =>
    rw [hpc] at hp
    cases hp
  | reap i hw =>
    rw [hp] at hw
    cases hw

/-- While another thread holds `wait_lock`, a step does not disturb the slots listed. -/
theorem Listed.effect (hl : Listed s.view i e) (he : Effect s p pc' v) (hI : Inv s.view s.pc)
    (hq : (s.pc q).holdsWait = true) (hqp : q ≠ p) :
  Listed v i e
  := by
  obtain ⟨hparent, hroot⟩ := he.parent_eq hI hq hqp
  have hp : (s.pc p).holdsWait = false := by
    by_contra hp
    apply hqp (hI.wait.eq hq (Bool.not_eq_false _ ▸ hp))
  -- a slot that is set up or given up differs from the listed one and from its parent
  have key : ∀ np, i ≠ np → s.view.lineage.kind np ≠ .live →
      v.lineage.kind i = s.view.lineage.kind i → v.lock i = s.view.lock i →
      (∀ j, j ≠ np → v.pid j = s.view.pid j) → Listed v i e := by
    intro np hi hnp hkind hlock hpid
    constructor
    · rw [hkind]; apply hl.used
    · rw [hlock]; apply hl.unlocked
    · rw [hpid i hi]; apply hl.pid
    · intro r hr
      rw [hparent] at hr
      have hrnp : r ≠ np := by rintro rfl; apply hnp (hI.wf.parent_live i r hr)
      rw [hpid r hrnp]
      apply hl.ppid r hr
    · rw [hparent, hroot]
      apply hl.orphan
  have hloc := hI.loc p
  cases he with
  | touch => apply hl
  | takeWait hfree =>
    have hw : s.waitLock = some q := (hI.wait q).mpr hq
    rw [hw] at hfree
    cases hfree
  | leaveWait hw | reap i hw =>
    rw [hp] at hw
    cases hw
  | claim np _ hfree =>
    have hi : i ≠ np := by rintro rfl; apply hl.used hfree
    apply key np hi (by rw [hfree]; decide) rfl (update_of_ne hi _ _) (fun _ _ => rfl)
  | alloc np hpc =>
    rw [hpc] at hloc
    have hfree : s.view.lineage.kind np = .free := hloc
    have hi : i ≠ np := by rintro rfl; apply hl.used hfree
    apply key np hi (by rw [hfree]; decide) (update_of_ne hi _ _) rfl
    intro j hj
    apply update_of_ne hj
  | abandon np hs ha =>
    have hlock : s.view.lock np = some p := (hI.slot np p).mpr hs
    have hi : i ≠ np := by
      rintro rfl
      rw [hl.unlocked] at hlock
      cases hlock
    apply key np hi (by rw [(ha hloc).1]; decide) (update_of_ne hi _ _)
      (update_of_ne hi _ _)
    intro j hj
    apply update_of_ne hj
  | publish np pid hpc =>
    rw [hpc] at hloc
    have hi : i ≠ np := by
      rintro rfl
      have hlock : s.view.lock i = some p := (hI.slot i p).mpr (by rw [hpc]; rfl)
      rw [hl.unlocked] at hlock
      cases hlock
    apply key np hi (by rw [hloc.1]; decide) rfl (update_of_ne hi _ _) (fun _ _ => rfl)
  | adopt np pid _ _ _ hw =>
    have hwait : s.waitLock = some q := (hI.wait q).mpr hq
    rw [hwait] at hw
    cases hw
  | ready np pid hpc =>
    constructor
    · by_cases hi : i = np
      · simp [Lineage.setKind, hi]
      · simpa [Lineage.setKind, hi] using hl.used
    · apply hl.unlocked
    · apply hl.pid
    · apply hl.ppid
    · apply hl.orphan
  | entrust status i hpc | die status hpc =>
    rw [hpc] at hp
    cases hp

theorem Scanned.effect
    (h : Scanned s.view k copied) (he : Effect s p pc' v)
    (hI : Inv s.view s.pc) (hq : (s.pc q).holdsWait = true) (hqp : q ≠ p) :
  Scanned v k copied
  := by
  obtain ⟨hparent, hroot⟩ := he.parent_eq hI hq hqp
  obtain ⟨seen, hnodup, hlt, hlisted, hall⟩ := h
  refine ⟨seen, hnodup, hlt, ?_, ?_⟩
  · apply hlisted.imp
    intro i e hl
    apply hl.effect he hI hq hqp
  · rw [hparent, hroot]
    apply hall

/-- What the other threads have scanned survives a step. -/
theorem ScanOk.other
    (h : ScanOk s.view (s.pc q)) (he : Effect s p pc' v) (hI : Inv s.view s.pc) (hqp : q ≠ p) :
  ScanOk v (s.pc q)
  := by
  cases hpc : s.pc q with
  | getprocsScan maxCount k pi copied =>
    rw [hpc] at h
    exact Scanned.effect h he hI (by rw [hpc]; rfl) hqp
  | getprocsCopyout maxCount k pi copied =>
    rw [hpc] at h
    obtain ⟨hs, hk, hl⟩ := h
    have hw : (s.pc q).holdsWait = true := by rw [hpc]; rfl
    exact ⟨hs.effect he hI hw hqp, hk, hl.effect he hI hw hqp⟩
  | user r =>
    rw [hpc] at h
    cases r with
    | none => trivial
    | some r =>
      cases r with
      | getprocs maxCount count copied =>
        intro hmax hcount
        obtain ⟨hlen, hlist⟩ := h hmax hcount
        use hlen
        intro hbound
        apply hlist (lt_of_le_of_lt he.allocated_le hbound)
      | _ => trivial
  | _ => trivial

end Stability

/-! ### The steps of the scan -/

/-- The entry read from a slot describes it. -/
theorem Sys.entry_listed {s : Sys} (hI : Inv s.view s.pc) (hlock : s.lock i = none)
    (hused : (s.proc i).state ≠ .unused) (pi : Pinfo) :
  Listed s.view i (s.entry i pi)
  := by
  have hkind : s.view.lineage.kind i ≠ .free := mt ProcState.kind_eq_free.mp hused
  refine ⟨hkind, hlock, rfl, ?_, ?_⟩
  · intro q hq
    have hq : (s.proc i).parent = some q := hq
    simp only [Sys.entry, hq]
    rfl
  · intro hp
    by_cases hr : i = s.view.lineage.root
    · left; exact hr
    · right
      have hused : (s.proc i).state = .used := by
        have hsettled := mt (hI.wf.settled i) (by simp [hr, hp])
        cases hst : (s.proc i).state <;> simp_all [Sys.view, ProcState.kind]
      have hp : (s.proc i).parent = none := hp
      simp [Unlinked, Sys.entry, hp, hused]

/-- No more entries are copied than slots were passed. -/
theorem Scanned.length_le {v : View} (h : Scanned v k copied) :
  copied.length ≤ k
  := by
  obtain ⟨seen, hnodup, hlt, hlisted, _⟩ := h
  have hsub : seen.map Fin.val ⊆ List.range k := by
    intro n hn
    obtain ⟨i, hi, rfl⟩ := List.mem_map.mp hn
    apply List.mem_range.mpr (hlt i hi)
  have hle := (List.subperm_of_subset (hnodup.map Fin.val_injective) hsub).length_le
  rw [List.length_map, List.length_range] at hle
  rw [← hlisted.length_eq]
  apply hle

section Complete

variable {v : View} {seen : List Slot} {copied : List Pinfo}

section

variable (h : List.Forall₂ (Listed v) seen copied)

include h

/-- The pids of the entries are those of the slots. -/
theorem map_pid_of_listed : copied.map Pinfo.pid = seen.map v.pid := by
  induction h with
  | nil => rfl
  | cons hl _ ih => rw [List.map_cons, List.map_cons, hl.pid, ih]

theorem exists_entry (hi : i ∈ seen) : ∃ e ∈ copied, Listed v i e := by
  induction h with
  | nil => cases hi
  | cons hl _ ih =>
    obtain rfl | hi := List.mem_cons.mp hi
    · exact ⟨_, List.mem_cons_self, hl⟩
    · obtain ⟨e, he, hl⟩ := ih hi
      exact ⟨e, List.mem_cons_of_mem _ he, hl⟩

theorem exists_slot (he : e ∈ copied) : ∃ i ∈ seen, Listed v i e := by
  induction h with
  | nil => cases he
  | cons hl _ ih =>
    obtain rfl | he := List.mem_cons.mp he
    · exact ⟨_, List.mem_cons_self, hl⟩
    · obtain ⟨i, hi, hl⟩ := ih he
      exact ⟨i, List.mem_cons_of_mem _ hi, hl⟩

end

/-- From the pid of a slot below the first process the entries lead to pid `1`. -/
theorem ancestral_of_ascends
    (hroot : v.pid v.lineage.root = 1) (h : List.Forall₂ (Listed v) seen copied)
    (hall : ∀ i, v.lineage.parent i ≠ none → i ∈ seen)
    (hi : Ascends v.lineage.parent v.lineage.root i) :
  Ancestral copied (v.pid i)
  := by
  induction hi with
  | root =>
    rw [hroot]
    apply Ancestral.root
  | up hp _ ih =>
    obtain ⟨e, he, hl⟩ := exists_entry h (hall _ (by rw [hp]; simp))
    rw [← hl.pid]
    apply Ancestral.up he
    rw [hl.ppid _ hp]
    apply ih

/-- A complete scan is a tree, apart from children not yet linked to their parent. -/
theorem Scanned.listing
    (hwf : v.lineage.Wf) (hpid : PidInv v) (h : Scanned v k copied) (hk : NPROC ≤ k) :
  Listing Unlinked copied
  := by
  obtain ⟨seen, hnodup, _, hlisted, hall⟩ := h
  have hmem : ∀ i, v.lineage.parent i ≠ none ∨ i = v.lineage.root → i ∈ seen :=
    fun i => hall i (Nat.lt_of_lt_of_le i.isLt hk)
  have hpids : (copied.map Pinfo.pid).Nodup := by
    rw [map_pid_of_listed hlisted]
    apply hnodup.map_on
    intro i hi j hj hij
    obtain ⟨_, _, hli⟩ := exists_entry hlisted hi
    obtain ⟨_, _, hlj⟩ := exists_entry hlisted hj
    apply hpid.inj i j hli.used hlj.used hij
  refine ⟨hpids, ?_, ?_⟩
  · obtain ⟨e, he, hl⟩ := exists_entry hlisted (hmem _ (Or.inr rfl))
    have hone : e.pid = 1 := by rw [hl.pid, hpid.root]
    use e, ⟨he, hone⟩
    rintro e' ⟨he', hone'⟩
    apply List.inj_on_of_nodup_map hpids he' he
    rw [hone, hone']
  · intro e he hne hex
    obtain ⟨i, _, hl⟩ := exists_slot hlisted he
    cases hp : v.lineage.parent i with
    | none =>
      obtain rfl | hu := hl.orphan hp
      · rw [hl.pid, hpid.root] at hne
        contradiction
      · contradiction
    | some q =>
      have hlive := hwf.parent_live i q hp
      obtain ⟨e', he', hl'⟩ := exists_entry hlisted (hmem q (hwf.settled q (Or.inl hlive)).symm)
      have hup : Ascends v.lineage.parent v.lineage.root i := hwf.ascends i (by rw [hp]; simp)
      constructor
      · refine ⟨e', he', ?_, ?_⟩
        · rintro rfl
          obtain rfl := hpid.inj i q hl.used hl'.used (by rw [← hl.pid, ← hl'.pid])
          apply hup.acyclic hwf.root_orphan Nat.one_pos
          simp [climb, hp]
        · rw [hl'.pid, hl.ppid q hp]
      · rw [hl.pid]
        apply ancestral_of_ascends hpid.root hlisted (fun j hj => hmem j (Or.inl hj)) hup

end Complete

/-- Outside `sys_getprocs` nothing is asserted. -/
def Pc.scans : Pc → Bool
  | .getprocsWait .. | .getprocsScan .. | .getprocsCopyout .. => true
  | .user (some (.getprocs ..)) => true
  | _ => false

theorem ScanOk.of_scans {v : View} {pc : Pc} (h : pc.scans = false) : ScanOk v pc := by
  unfold ScanOk
  split <;> first | contradiction | trivial

theorem advance_scans {s s' : Sys} {p : Slot} (hpc : (s.pc p).scans = false)
    (h : s.advance p ok (s.pc p) = some s') :
  (s'.pc p).scans = false
  := by
  cases hp : s.pc p <;> rw [hp] at h hpc <;>
    simp only [Sys.advance, Sys.waitAt, Sys.wakeupAt, Sys.abandon] at h <;>
    (try split_ifs at h) <;>
    simp only [Option.some.injEq, Option.map_some, Option.map_none, reduceCtorEq] at h <;>
    (try subst h) <;> first | contradiction | simp [Pc.scans]

section Own

variable {s s' : Sys} {p : Slot}

/-- The end of the scan: with room for every slot the result is complete. -/
theorem ScanOk.finish
    (hI : Inv s.view s.pc) (hpid : s.allocated < 2 ^ 31 - 1 → PidInv s.view) {maxCount : ℤ}
    (h : Scanned s.view k copied)
    (hend : ¬ (k < NPROC ∧ (copied.length : ℤ) < maxCount)) (w : Option Slot) :
  ScanOk { s.view with waitLock := w } (.user (some (.getprocs maxCount copied.length copied)))
  := by
  rintro rfl _
  use rfl
  intro hbound
  apply h.listing hI.wf (hpid hbound)
  by_contra hk
  apply hend
  have hlt : k < NPROC := Nat.lt_of_not_le hk
  exact ⟨hlt, by exact_mod_cast lt_of_le_of_lt h.length_le hlt⟩

/-- A step of the scanning thread itself. -/
theorem ScanOk.advance (hI : Inv s.view s.pc) (hpid : s.allocated < 2 ^ 31 - 1 → PidInv s.view)
    (h : s.advance p ok (s.pc p) = some s') (hok : ScanOk s.view (s.pc p)) :
  ScanOk s'.view (s'.pc p)
  := by
  by_cases hs : (s.pc p).scans = false
  · apply ScanOk.of_scans (advance_scans hs h)
  cases hpc : s.pc p <;> rw [hpc] at hs h hok <;> try contradiction
  case getprocsWait maxCount pi =>
    simp only [Sys.advance] at h
    split_ifs at h
    cases h
    simp only [Sys.goto_pc, update_self]
    apply Scanned.nil
  case getprocsScan maxCount k pi copied =>
    simp only [Sys.advance] at h
    split_ifs at h with hk hlock hfree
    · cases h
      simp only [Sys.goto_pc, update_self]
      exact Scanned.skip hI.wf hok hk.1 (ProcState.kind_eq_free.mpr hfree)
    · cases h
      simp only [Sys.goto_pc, update_self]
      exact ⟨hok, hk.1, Sys.entry_listed hI hlock hfree pi⟩
    · cases h
      simp only [Sys.goto_pc, update_self]
      exact ScanOk.finish hI hpid hok hk none
  case getprocsCopyout maxCount k pi copied =>
    obtain ⟨hscan, hk, hl⟩ := hok
    simp only [Sys.advance] at h
    split_ifs at h
    · cases h
      simp only [Sys.goto_pc, update_self]
      exact hscan.append hk hl
    · cases h
      simp only [Sys.goto_pc, update_self]
      intro _ hcount
      contradiction

/-- Entering a system call starts no scan. -/
theorem ScanOk.enter (p : Slot) (c : Syscall) (hok : ScanOk s.view (s.pc p)) :
  ScanOk (s.enter p c).view ((s.enter p c).pc p)
  := by
  cases c with
  | getprocs maxCount pi =>
    simp only [Sys.enter]
    split_ifs
    · simp [ScanOk]
    · simp [ScanOk]
  | exit status =>
    simp only [Sys.enter]
    split_ifs
    · exact hok
    · simp [ScanOk]
  | _ => simp [Sys.enter, ScanOk]

end Own

theorem ScanOk.step
    {s s' : Sys} {a : Act} (hI : Inv s.view s.pc)
    (hpid : s.allocated < 2 ^ 31 - 1 → PidInv s.view) (h : s.step a = some s')
    (hok : ∀ q, ScanOk s.view (s.pc q)) (q : Slot) :
  ScanOk s'.view (s'.pc q)
  := by
  have hmoves : ∀ p, Moves s p s' → ScanOk s'.view (s'.pc p) → ScanOk s'.view (s'.pc q) := by
    rintro p ⟨pc', hpc, he⟩ hself
    by_cases hq : q = p
    · rw [hq]
      apply hself
    · rw [hpc, update_of_ne hq]
      apply (hok q).other he hI hq
  obtain ⟨hview, hpc⟩ | ⟨p, c, r, hpc, rfl⟩ | ⟨p, ok, hrun, h⟩ := step_cases h
  · rw [hview, hpc]
    apply hok q
  · obtain hm | hpanic := enter_moves hpc c
    · apply hmoves p hm
      apply ScanOk.enter p c (hok p)
    · rw [hpanic]
      apply hok q
  · apply hmoves p (advance_moves hrun h)
    apply ScanOk.advance hI hpid h (hok p)

theorem ScanOk.reachable {s : Sys} (hs : procSystem.Reachable s) (q : Slot) :
  ScanOk s.view (s.pc q)
  := by
  induction hs generalizing q with
  | init h =>
    subst h
    trivial
  | step hr h ih => apply ScanOk.step (Inv.reachable hr) (PidInv.reachable hr) h ih

/-! ### The result of a call -/

/-- A call with room for every slot that returns a count has copied that many entries: their
pids are distinct, one of them is `1`, and all others hang below it by their `ppid`, except
for children that `kfork` has not yet linked to their parent, which show state `USED` and
`ppid` `-1`. -/
theorem getprocs_snapshot
    {s : Sys} (hs : procSystem.Reachable s) (hbound : s.allocated < 2 ^ 31 - 1) {p : Slot} {n : ℤ}
    {copied : List Pinfo} (hret : s.pc p = .user (some (.getprocs NPROC n copied))) (hn : 0 ≤ n) :
  n = copied.length ∧ Listing Unlinked copied
  := by
  have hok := ScanOk.reachable hs p
  rw [hret] at hok
  obtain ⟨hlen, hlist⟩ := hok rfl hn
  exact ⟨hlen, hlist hbound⟩

/-- The first process has forked a child and is about to link a second one to itself when
the first child calls `sys_getprocs`, which meets three used slots. -/
def scanDuringFork : List Act :=
  .dispatch 0 :: forkActs 0 1 ++ .dispatch 1 :: (forkActs 0 2).take 9
    ++ .call 1 (.getprocs NPROC ⟨0, 0, 0, List.replicate 16 0⟩) :: List.replicate 69 (.run 1 true)

/-- What that call copies; the last entry is the second child. -/
def scannedDuringFork : List Pinfo :=
  [⟨1, -1, 4, List.replicate 16 0⟩, ⟨2, 1, 4, List.replicate 16 0⟩, ⟨3, -1, 1, List.replicate 16 0⟩]

theorem exec_scanDuringFork :
  ∃ s, procSystem.exec Sys.boot scanDuringFork = some s ∧ s.allocated < 2 ^ 31 - 1
    ∧ s.pc 1 = .user (some (.getprocs NPROC 3 scannedDuringFork))
  := by
  have h : (procSystem.exec Sys.boot scanDuringFork).map (fun s => (s.allocated, s.pc 1))
      = some (3, .user (some (.getprocs NPROC 3 scannedDuringFork))) := by decide
  obtain ⟨s, hs, hp⟩ := Option.map_eq_some_iff.mp h
  obtain ⟨ha, hpc⟩ := Prod.mk.inj hp
  exact ⟨s, hs, by rw [ha]; decide, hpc⟩

theorem getprocs_snapshot_during_fork :
  ∃ s, procSystem.exec Sys.boot scanDuringFork = some s
    ∧ s.pc 1 = .user (some (.getprocs NPROC 3 scannedDuringFork))
    ∧ Listing Unlinked scannedDuringFork
  := by
  obtain ⟨s, hs, ha, hpc⟩ := exec_scanDuringFork
  have hboot : procSystem.Reachable Sys.boot := .init rfl
  exact ⟨s, hs, hpc, (getprocs_snapshot (hboot.exec hs) ha hpc (by decide)).2⟩

/-- The exception is needed: the second child has pid `3`, and no entry is its parent. -/
theorem getprocs_unlinked_child :
  ∃ s, procSystem.Reachable s ∧ s.allocated < 2 ^ 31 - 1
    ∧ s.pc 1 = .user (some (.getprocs NPROC 3 scannedDuringFork))
    ∧ ¬ Listing (fun _ => False) scannedDuringFork
  := by
  obtain ⟨s, hs, ha, hpc⟩ := exec_scanDuringFork
  have hboot : procSystem.Reachable Sys.boot := .init rfl
  refine ⟨s, hboot.exec hs, ha, hpc, ?_⟩
  intro hl
  have hchild : (⟨3, -1, 1, List.replicate 16 0⟩ : Pinfo) ∈ scannedDuringFork := by decide
  obtain ⟨⟨e, he, _, hpid⟩, _⟩ := hl.parent _ hchild (by decide) id
  have hpos : ∀ e ∈ scannedDuringFork, e.pid ≠ -1 := by decide
  apply hpos e he hpid

end Xv6
