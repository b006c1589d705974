import Xv6.Lib.Mutex
import Xv6.Proc.Effect

/-!
# The process forest

The invariant of the process table.  Each lock is held by the thread that stands in its
critical section, a slot is set up by one thread only, every thread finds its local
assertion true, and the lineage of the processes is well formed.  It holds in every state
that the steps reach from `userinit`.
-/

namespace Xv6

open Function

/-- The invariant of the process table, the locks and the threads. -/
structure Inv (v : View) (pc : Slot → Pc) : Prop where
  wait : Guards v.waitLock (fun k => k.holdsWait = true) pc
  slot : ∀ q, Guards (v.lock q) (fun k => k.holdsSlot = some q) pc
  unique : ∀ p q np, (pc p).builds = some np → (pc q).builds = some np → p = q
  loc : ∀ p, Local v.lineage p (pc p)
  wf : v.lineage.Wf
  free_pid : ∀ i, v.lineage.kind i = .free → v.pid i = 0

/-! ### Places -/

namespace Pc

variable {pc : Pc} {q : Slot}

theorem builds_of_holdsSlot (h : pc.holdsSlot = some q) : pc.builds = some q := by
  cases pc <;> first | exact h | cases h

theorem holdsSlot_of_builds (h : pc.builds = none) : pc.holdsSlot = none := by
  cases pc <;> first | rfl | cases h

theorem builds_of_holdsWait (h : pc.holdsWait = true) : pc.builds = none := by
  cases pc <;> first | rfl | cases h

theorem holdsWait_of_builds (h : pc.builds = some q) : pc.holdsWait = false := by
  cases pc <;> first | rfl | cases h

theorem holdsWait_of_holdsSlot (h : pc.holdsSlot = some q) : pc.holdsWait = false :=
  holdsWait_of_builds (builds_of_holdsSlot h)

end Pc

namespace Inv

variable {s : Sys} {p : Slot} {pc' : Pc} {v : View}

/-! ### Locks -/

variable (hI : Inv s.view s.pc)

include hI

theorem wait_effect (h : Effect s p pc' v) :
  Guards v.waitLock (fun k => k.holdsWait = true) (update s.pc p pc')
  := by
  have hg : Guards s.waitLock (fun k => k.holdsWait = true) s.pc := hI.wait
  cases h with
  | touch hw => apply hg.keep (by rw [hw])
  | takeWait hfree _ hw =>
    rw [hfree] at hg
    apply hg.acquire hw
  | leaveWait hw hidle | reap i hw _ _ _ hidle => apply hg.release hw (by simp [hidle.1])
  | claim np _ _ hidle hpc' => apply hg.keep (by rw [hidle.1, hpc']; exact Iff.rfl)
  | alloc np hpc hpc' | publish np pid hpc hpc' | adopt np pid hpc hpc'
  | entrust status i hpc hpc' => apply hg.keep (by rw [hpc, hpc']; exact Iff.rfl)
  | abandon np hs _ hidle => apply hg.keep (by simp [hidle.1, Pc.holdsWait_of_holdsSlot hs])
  | ready np pid hpc hidle => apply hg.keep (by rw [hpc, hidle.1]; exact Iff.rfl)
  | die status hpc hpc' =>
    apply hg.release
    · rw [hpc]; rfl
    · rw [hpc']; exact Bool.false_ne_true

theorem slot_effect (h : Effect s p pc' v) (q : Slot) :
  Guards (v.lock q) (fun k => k.holdsSlot = some q) (update s.pc p pc')
  := by
  have hg : ∀ q, Guards (s.lock q) (fun k => k.holdsSlot = some q) s.pc := hI.slot
  have hnone : ∀ {k : Pc}, k.builds = none → (k.holdsSlot = some q ↔ False) := by
    intro k hk
    simp [Pc.holdsSlot_of_builds hk]
  cases h with
  | touch _ hs => apply (hg q).keep (by rw [hs])
  | takeWait _ hb _ hb' => apply (hg q).keep ((hnone hb').trans (hnone hb).symm)
  | leaveWait hw hidle | reap i hw _ _ _ hidle =>
    apply (hg q).keep ((hnone hidle.2).trans (hnone (Pc.builds_of_holdsWait hw)).symm)
  | claim np hlock _ hidle hpc' =>
    subst hpc'
    apply Guards.acquire_at hg hlock
    · intro b hb
      rw [Pc.holdsSlot_of_builds hidle.2]
      simp [Pc.holdsSlot, hb.symm]
    · rfl
  | alloc np hpc hpc' | adopt np pid hpc hpc' | entrust status i hpc hpc' | die status hpc hpc' =>
    apply (hg q).keep (by rw [hpc, hpc']; exact Iff.rfl)
  | abandon np hs _ hidle =>
    apply Guards.release_at hg hs
    · intro b hb
      simp [Pc.holdsSlot_of_builds hidle.2, hs, hb.symm]
    · simp [Pc.holdsSlot_of_builds hidle.2]
  | publish np pid hpc hpc' =>
    apply Guards.release_at hg
    · rw [hpc]; rfl
    · intro b hb
      simp [hpc, hpc', Pc.holdsSlot, hb.symm]
    · simp [hpc', Pc.holdsSlot]
  | ready np pid hpc hidle =>
    apply (hg q).keep
    rw [hpc, Pc.holdsSlot_of_builds hidle.2]
    exact Iff.rfl

/-! ### Slots being set up -/

/-- A thread that sets up the same slot as before sets it up alone. -/
theorem builds_ne {np : Slot} (hb : (s.pc p).builds = some np) {q : Slot} (hq : q ≠ p) :
  (s.pc q).builds ≠ some np
  := by
  intro hqb
  apply hq (hI.unique q p np hqb hb)

/-- A slot being set up is not live or dead. -/
theorem kind_of_builds {q np : Slot} (hb : (s.pc q).builds = some np) :
  s.view.lineage.kind np = .embryo
    ∨ s.view.lineage.kind np = .free ∧ (s.pc q).holdsSlot = some np
  := by
  have hl := hI.loc q
  cases hpc : s.pc q <;> rw [hpc] at hl hb <;> try cases hb
  case allocPid => right; exact ⟨hl, rfl⟩
  all_goals left; exact hl.1

theorem unique_effect (h : Effect s p pc' v) (q r np : Slot) :
  (update s.pc p pc' q).builds = some np →
    (update s.pc p pc' r).builds = some np → q = r
  := by
  have hsame : pc'.builds = (s.pc p).builds →
      ∀ q np, q ≠ p → pc'.builds = some np → (s.pc q).builds ≠ some np := by
    intro hb q np hq hb'
    apply hI.builds_ne (hb ▸ hb') hq
  have hnone : pc'.builds = none →
      ∀ q np, q ≠ p → pc'.builds = some np → (s.pc q).builds ≠ some np := by
    intro hb q np _ hb'
    rw [hb] at hb'
    cases hb'
  apply unique_update (g := Pc.builds) hI.unique
  cases h with
  | touch _ _ hb => apply hsame hb
  | takeWait _ _ _ hb => apply hnone hb
  | leaveWait _ hidle | abandon np _ _ hidle | ready np pid _ hidle | reap i _ _ _ _ hidle =>
    apply hnone hidle.2
  | claim np hlock hfree _ hpc' =>
    subst hpc'
    intro q np' _ hb hqb
    obtain rfl : np = np' := Option.some.inj hb
    obtain hk | ⟨-, hs⟩ := hI.kind_of_builds hqb
    · rw [hfree] at hk
      cases hk
    · have hq : s.lock np = some q := (hI.slot np q).mpr hs
      rw [hlock] at hq
      cases hq
  | alloc np hpc hpc' | publish np pid hpc hpc' | adopt np pid hpc hpc'
  | entrust status i hpc hpc' => apply hsame (by rw [hpc, hpc']; rfl)
  | die status _ hpc' => apply hnone (by rw [hpc']; rfl)

end Inv

/-! ### Local assertions are stable -/

namespace Local

variable {L : Lineage Slot} {q i : Slot} {pc : Pc}

/-- An assertion does not depend on the stage of a slot its thread is not setting up. -/
theorem setKind (h : Local L q pc) (hb : pc.builds ≠ some i) (k : Kind) :
  Local (L.setKind i k) q pc
  := by
  have hkind : ∀ {np}, some np ≠ some i → (L.setKind i k).kind np = L.kind np :=
    fun hnp => update_of_ne (mt (congrArg some) hnp) _ _
  cases pc with
  | allocPid np => exact (hkind hb).trans h
  | allocTrapframe np | allocPagetable np | forkCopy np | forkDup np | forkParent np pid
  | forkReady np pid => exact ⟨(hkind hb).trans h.1, h.2⟩
  | _ => exact h

/-- An assertion does not depend on the parent of a slot its thread is not setting up,
unless the slot becomes a child of that thread. -/
theorem setParent
    (h : Local L q pc) (hb : pc.builds ≠ some i) {x : Option Slot} (hx : x = some q → q = L.root) :
  Local (L.setParent i x) q pc
  := by
  have hchild : q ≠ L.root → ∀ j, update L.parent i x j = some q → L.parent j = some q := by
    intro hroot j hj
    by_cases hji : j = i
    · subst hji
      rw [update_self] at hj
      apply absurd (hx hj) hroot
    · rwa [update_of_ne hji] at hj
  have hparent : ∀ {np}, some np ≠ some i → (L.setParent i x).parent np = L.parent np :=
    fun hnp => update_of_ne (mt (congrArg some) hnp) _ _
  cases pc with
  | reparent status k | reparentWakeup status k j | exitWakeup status chan j | exitZombie status =>
    use h.1
    intro j hj
    apply h.2 j (hchild h.1 j hj)
  | allocTrapframe np | allocPagetable np | forkCopy np | forkDup np | forkParent np pid
  | forkReady np pid => exact ⟨h.1, (hparent hb).trans h.2⟩
  | _ => exact h

end Local

namespace Inv

variable {s : Sys} {p : Slot} {pc' : Pc} {v : View}

/-- The slot being set up is nobody's child but that of the thread setting it up. -/
theorem parent_of_builds
    (hI : Inv s.view s.pc) {q r np : Slot} (hb : (s.pc q).builds = some np)
    (hp : s.view.lineage.parent np = some r) :
  q = r
  := by
  have hl := hI.loc q
  cases hpc : s.pc q <;> rw [hpc] at hl hb <;> try cases hb
  case allocPid =>
    rw [hI.wf.free_orphan np hl] at hp
    cases hp
  case forkReady => exact Option.some.inj (hl.2.symm.trans hp)
  all_goals
    rw [hl.2] at hp
    cases hp

section

variable (hI : Inv s.view s.pc) (h : Effect s p pc' v)

include hI h

/-- The assertions of the other threads survive a step. -/
theorem loc_other {q : Slot} (hq : q ≠ p) : Local v.lineage q (s.pc q) := by
  have hl := hI.loc q
  cases h with
  | touch | takeWait | leaveWait | claim | publish => apply hl
  | alloc np hpc | ready np pid hpc => apply hl.setKind (hI.builds_ne (by rw [hpc]; rfl) hq)
  | abandon np hs =>
    have hb := hI.builds_ne (Pc.builds_of_holdsSlot hs) hq
    apply Local.setKind _ hb
    apply hl.setParent hb
    intro h
    cases h
  | adopt np pid hpc =>
    apply hl.setParent (hI.builds_ne (by rw [hpc]; rfl) hq)
    intro h
    apply absurd (Option.some.inj h).symm hq
  | entrust status i _ _ hparent =>
    apply hl.setParent
    · intro hb
      apply hq (hI.parent_of_builds hb hparent)
    · intro h
      apply (Option.some.inj h).symm
  | die status _ _ hlive =>
    apply hl.setKind
    intro hb
    obtain hk | ⟨hk, -⟩ := hI.kind_of_builds hb <;> rw [hlive] at hk <;> cases hk
  | reap i _ _ hdead =>
    have hb : (s.pc q).builds ≠ some i := by
      intro hb
      obtain hk | ⟨hk, -⟩ := hI.kind_of_builds hb <;> rw [hdead] at hk <;> cases hk
    apply Local.setKind _ hb
    apply hl.setParent hb
    intro h
    cases h

/-- The thread that takes a step finds its new assertion true. -/
theorem loc_self : Local v.lineage p pc' := by
  have hl := hI.loc p
  cases h with
  | touch _ _ _ h => apply h hl
  | takeWait _ _ _ _ h => apply h hl
  | leaveWait _ _ h => apply h
  | claim np _ hfree _ hpc' => rw [hpc']; exact hfree
  | alloc np hpc hpc' =>
    rw [hpc] at hl
    rw [hpc']
    constructor
    · simp [Lineage.setKind]
    · apply hI.wf.free_orphan np hl
  | abandon _ _ _ _ h => apply h
  | publish np pid hpc hpc' =>
    rw [hpc] at hl
    rw [hpc']
    exact hl
  | adopt np pid hpc hpc' =>
    rw [hpc] at hl
    rw [hpc']
    use hl.1
    simp [Lineage.setParent]
  | ready _ _ _ _ h => apply h
  | entrust status i hpc hpc' hparent =>
    rw [hpc] at hl
    rw [hpc']
    use hl.1
    intro j hj
    by_cases hji : j = i
    · subst hji
      simp only [Lineage.setParent, update_self, Option.some.injEq] at hj
      apply absurd hj.symm hl.1
    · simp only [Lineage.setParent, update_of_ne hji] at hj
      have h1 := hl.2 j hj
      have h2 : i.val ≠ j.val := fun h => hji (Fin.ext h).symm
      omega
  | die status _ hpc' => rw [hpc']; trivial
  | reap _ _ _ _ _ _ h => apply h

/-! ### The lineage -/

theorem wf_effect : v.lineage.Wf := by
  have hl := hI.loc p
  cases h with
  | touch | takeWait | leaveWait | claim | publish => apply hI.wf
  | alloc np hpc =>
    rw [hpc] at hl
    apply hI.wf.create hl
  | abandon np _ h =>
    obtain ⟨hk, hp⟩ := h hl
    have hself := s.view.lineage.setParent_self np
    rw [hp] at hself
    simp only [View.vacate]
    rw [hself]
    apply hI.wf.discard hk hp
  | adopt np pid hpc _ hlive =>
    rw [hpc] at hl
    apply hI.wf.adopt hl.1 hlive
  | ready np pid hpc =>
    rw [hpc] at hl
    apply hI.wf.rouse
    rw [hl.2]
    simp
  | entrust status i _ _ hparent =>
    apply hI.wf.entrust
    rw [hparent]
    simp
  | die status hpc _ hlive =>
    rw [hpc] at hl
    apply hI.wf.die hlive hl.1 hl.2
  | reap i _ _ hdead => apply hI.wf.reap hdead

theorem free_pid_effect (i : Slot)
    (hi : v.lineage.kind i = .free) :
  v.pid i = 0
  := by
  have hvacate : ∀ np, ((s.view.vacate np).lineage.kind i = .free) → (s.view.vacate np).pid i = 0 := by
    intro np hi
    by_cases hnp : i = np
    · simp [View.vacate, hnp]
    · simp only [View.vacate, Lineage.setKind, Lineage.setParent, update_of_ne hnp] at hi ⊢
      apply hI.free_pid i hi
  have hkind : ∀ np k, k ≠ .free → (s.view.lineage.setKind np k).kind i = .free →
      i ≠ np ∧ s.view.pid i = 0 := by
    intro np k hk hi
    by_cases hnp : i = np
    · simp [Lineage.setKind, hnp, hk] at hi
    · simp only [Lineage.setKind, update_of_ne hnp] at hi
      exact ⟨hnp, hI.free_pid i hi⟩
  cases h with
  | touch | takeWait | leaveWait | claim | publish | adopt | entrust => apply hI.free_pid i hi
  | alloc np =>
    obtain ⟨hne, hpid⟩ := hkind np .embryo (by decide) hi
    simpa [hne] using hpid
  | abandon np => apply hvacate np hi
  | ready np => apply (hkind np .live (by decide) hi).2
  | die => apply (hkind p .dead (by decide) hi).2
  | reap j => apply hvacate j hi

end

/-- The invariant survives every step. -/
theorem step {s' : Sys} {a : Act} (hI : Inv s.view s.pc) (h : s.step a = some s') :
  Inv s'.view s'.pc
  := by
  obtain ⟨p, pc', hpc, he⟩ | rfl := step_moves h
  · rw [hpc]
    refine ⟨hI.wait_effect he, hI.slot_effect he, hI.unique_effect he, ?_, hI.wf_effect he,
      hI.free_pid_effect he⟩
    intro q
    by_cases hq : q = p
    · subst hq
      rw [update_self]
      apply hI.loc_self he
    · rw [update_of_ne hq]
      apply hI.loc_other he hq
  · exact hI

theorem boot : Inv Sys.boot.view Sys.boot.pc := by
  have hparent : ∀ i, Sys.boot.view.lineage.parent i = none := by
    intro i
    by_cases hi : i = 0 <;> simp [Sys.boot, Sys.view, Proc.zero, hi]
  have hkind : ∀ i, i ≠ 0 → Sys.boot.view.lineage.kind i = .free := by
    intro i hi
    simp [Sys.boot, Sys.view, Proc.zero, hi, ProcState.kind]
  constructor
  · intro p
    simp [Sys.boot, Sys.view, Pc.holdsWait]
  · intro q p
    simp [Sys.boot, Sys.view, Pc.holdsSlot]
  · intro p q np hp
    cases hp
  · intro p
    trivial
  · constructor
    · intro i _
      apply hparent
    · intro i j hij
      rw [hparent] at hij
      cases hij
    · rfl
    · apply hparent
    · intro i hi
      left
      by_contra hne
      rw [hkind i hne] at hi
      simp at hi
    · intro i hi
      apply absurd (hparent i) hi
  · intro i hi
    by_cases h0 : i = 0
    · subst h0
      cases hi
    · simp [Sys.boot, Sys.view, Proc.zero, h0]

theorem reachable (hs : procSystem.Reachable s) :
  Inv s.view s.pc
  := by
  apply hs.invariant (I := fun s => Inv s.view s.pc)
  · rintro _ rfl
    apply boot
  · intro s a s' hI h
    apply hI.step h

end Inv

/-! ### Pids -/

/-- The pids handed out so far are `1` up to `allocated`, and no two processes share one. -/
structure PidInv (v : View) : Prop where
  nextpid : v.nextpid = v.allocated + 1
  range : ∀ i, v.lineage.kind i ≠ .free → 0 < v.pid i ∧ v.pid i ≤ v.allocated
  inj : ∀ i j, v.lineage.kind i ≠ .free → v.lineage.kind j ≠ .free → v.pid i = v.pid j → i = j
  root : v.pid v.lineage.root = 1

theorem intSucc_eq {n : ℤ} (h0 : 0 ≤ n) (h : n + 1 < 2 ^ 31) : intSucc n = n + 1 := by
  unfold intSucc
  apply Int.bmod_eq_of_le
  · omega
  · omega

namespace PidInv

variable {s : Sys} {p i : Slot} {pc' : Pc} {v : View}

/-- Freeing a slot other than the first process's. -/
theorem vacate (h : PidInv v) (hi : i ≠ v.lineage.root) : PidInv (v.vacate i) := by
  have hne : ∀ j, (v.vacate i).lineage.kind j ≠ .free → j ≠ i := by
    rintro j hj rfl
    simp [View.vacate, Lineage.setKind] at hj
  have hkind : ∀ j, (v.vacate i).lineage.kind j ≠ .free →
      v.lineage.kind j ≠ .free ∧ (v.vacate i).pid j = v.pid j := by
    intro j hj
    have hji := hne j hj
    simp only [View.vacate, Lineage.setKind, Lineage.setParent, update_of_ne hji] at hj ⊢
    exact ⟨hj, trivial⟩
  constructor
  · apply h.nextpid
  · intro j hj
    obtain ⟨hk, hpid⟩ := hkind j hj
    rw [hpid]
    apply h.range j hk
  · intro j k hj hk hjk
    obtain ⟨hj, hpj⟩ := hkind j hj
    obtain ⟨hk, hpk⟩ := hkind k hk
    rw [hpj, hpk] at hjk
    apply h.inj j k hj hk hjk
  · simp only [View.vacate, Lineage.setKind, Lineage.setParent, update_of_ne hi.symm]
    apply h.root

/-- Changes of stage that free nobody. -/
theorem setKind (h : PidInv v) (hi : v.lineage.kind i ≠ .free) (k : Kind) :
  PidInv { v with lineage := v.lineage.setKind i k }
  := by
  have hkind : ∀ j, (v.lineage.setKind i k).kind j ≠ .free → v.lineage.kind j ≠ .free := by
    intro j hj
    by_cases hji : j = i
    · rwa [hji]
    · simpa [Lineage.setKind, hji] using hj
  constructor
  · apply h.nextpid
  · intro j hj
    apply h.range j (hkind j hj)
  · intro j l hj hl
    apply h.inj j l (hkind j hj) (hkind l hl)
  · apply h.root

/-- The next pid given to a free slot. -/
theorem alloc (h : PidInv v) (hbound : v.allocated + 1 < 2 ^ 31 - 1) {np : Slot} (hnp : np ≠ v.lineage.root) :
  PidInv { v with
    lineage := v.lineage.setKind np .embryo
    pid := update v.pid np v.nextpid
    nextpid := intSucc v.nextpid
    allocated := v.allocated + 1 }
  := by
  have hnext := h.nextpid
  have hold : ∀ j, j ≠ np → (v.lineage.setKind np .embryo).kind j ≠ .free →
      0 < v.pid j ∧ v.pid j ≤ v.allocated := by
    intro j hj hk
    apply h.range j
    simpa [Lineage.setKind, hj] using hk
  constructor
  · simp only
    rw [intSucc_eq]
    · push_cast
      omega
    · omega
    · omega
  · intro j hj
    by_cases hjn : j = np
    · subst hjn
      simp only [update_self]
      push_cast
      omega
    · simp only [update_of_ne hjn]
      have := hold j hjn hj
      push_cast
      omega
  · intro j k hj hk hjk
    by_cases hjn : j = np
    · by_cases hkn : k = np
      · rw [hjn, hkn]
      · simp only [hjn, update_self, update_of_ne hkn] at hjk
        have := hold k hkn hk
        omega
    · by_cases hkn : k = np
      · simp only [hkn, update_self, update_of_ne hjn] at hjk
        have := hold j hjn hj
        omega
      · simp only [update_of_ne hjn, update_of_ne hkn] at hjk
        simp only [Lineage.setKind, update_of_ne hjn] at hj
        simp only [Lineage.setKind, update_of_ne hkn] at hk
        apply h.inj j k hj hk hjk
  · simp only [Lineage.setKind, update_of_ne hnp.symm]
    apply h.root

theorem effect
    (hI : Inv s.view s.pc) (h : PidInv s.view) (he : Effect s p pc' v)
    (hbound : v.allocated < 2 ^ 31 - 1) :
  PidInv v
  := by
  have hl := hI.loc p
  cases he with
  | touch => apply h
  | takeWait | leaveWait | claim | publish | adopt | entrust =>
    exact ⟨h.nextpid, h.range, h.inj, h.root⟩
  | alloc np hpc =>
    rw [hpc] at hl
    have hfree : s.view.lineage.kind np = .free := hl
    apply h.alloc hbound (hI.wf.root_ne (by rw [hfree]; decide)).symm
  | abandon np _ ha =>
    have hk := (ha hl).1
    obtain ⟨h1, h2, h3, h4⟩ := h.vacate (hI.wf.root_ne (i := np) (by rw [hk]; decide)).symm
    exact ⟨h1, h2, h3, h4⟩
  | ready np pid hpc =>
    rw [hpc] at hl
    apply h.setKind (by rw [hl.1]; decide)
  | die status _ _ hlive =>
    obtain ⟨h1, h2, h3, h4⟩ := h.setKind (i := p) (by rw [hlive]; decide) .dead
    exact ⟨h1, h2, h3, h4⟩
  | reap i _ _ hdead =>
    obtain ⟨h1, h2, h3, h4⟩ := h.vacate (hI.wf.root_ne (i := i) (by rw [hdead]; decide)).symm
    exact ⟨h1, h2, h3, h4⟩

end PidInv

/-- `allocpid` is called at most once in a step. -/
theorem Effect.allocated_le {s : Sys} {p : Slot} {pc' : Pc} {v : View} (h : Effect s p pc' v) :
  s.allocated ≤ v.allocated
  := by
  cases h with
  | alloc => apply Nat.le_succ
  | _ => apply Nat.le_refl

theorem PidInv.reachable
    {s : Sys} (hs : procSystem.Reachable s) (hbound : s.allocated < 2 ^ 31 - 1) :
  PidInv s.view
  := by
  induction hs with
  | init h =>
    subst h
    constructor
    · rfl
    · intro i hi
      by_cases h0 : i = 0
      · subst h0
        decide
      · simp [Sys.boot, Sys.view, Proc.zero, h0, ProcState.kind] at hi
    · intro i j hi hj _
      by_cases h0 : i = 0
      · by_cases h1 : j = 0
        · rw [h0, h1]
        · simp [Sys.boot, Sys.view, Proc.zero, h1, ProcState.kind] at hj
      · simp [Sys.boot, Sys.view, Proc.zero, h0, ProcState.kind] at hi
    · rfl
  | step hr h ih =>
    obtain ⟨p, pc', -, he⟩ | rfl := step_moves h
    · have hle := he.allocated_le
      apply PidInv.effect (Inv.reachable hr) (ih (lt_of_le_of_lt hle hbound)) he hbound
    · exact ih hbound

/-! ### The forest of a process table -/

namespace Sys

/-- The parent pointers of a process table. -/
def parent (s : Sys) (i : Slot) : Option Slot := (s.proc i).parent

/-- The process table is a forest hanging from `initproc`. -/
structure Forested (s : Sys) : Prop where
  unused : ∀ i, (s.proc i).state = .unused →
    s.parent i = none ∧ (s.proc i).pid = 0 ∧ ∀ j, s.parent j ≠ some i
  parent : ∀ i q, s.parent i = some q →
    (s.proc q).state ≠ .unused ∧ (s.proc q).state ≠ .zombie
  ascends : ∀ i, s.parent i ≠ none → Ascends s.parent s.initproc i
  acyclic : ∀ i, s.parent i ≠ none → ∀ n, 0 < n → climb s.parent n i ≠ some i
  root : s.parent s.initproc = none
  pid_pos : s.allocated < 2 ^ 31 - 1 → ∀ i, (s.proc i).state ≠ .unused → 0 < (s.proc i).pid
  pid_inj : s.allocated < 2 ^ 31 - 1 → ∀ i j, (s.proc i).state ≠ .unused →
    (s.proc j).state ≠ .unused → (s.proc i).pid = (s.proc j).pid → i = j

end Sys

/-- Every process table that the steps reach from `userinit` is a forest, whether
`wait_lock` is free or not. -/
theorem process_forest {s : Sys} (hs : procSystem.Reachable s) :
  s.Forested
  := by
  have hI := Inv.reachable hs
  have hfree : ∀ i, s.view.lineage.kind i = .free ↔ (s.proc i).state = .unused :=
    fun _ => ProcState.kind_eq_free
  have hused : ∀ i, (s.proc i).state ≠ .unused → s.view.lineage.kind i ≠ .free :=
    fun i hi hk => hi ((hfree i).mp hk)
  constructor
  · intro i hi
    have hk := (hfree i).mpr hi
    use hI.wf.free_orphan i hk, hI.free_pid i hk
    apply hI.wf.not_parent
    rw [hk]
    decide
  · intro i q hq
    have hlive : (s.proc q).state.kind = .live := hI.wf.parent_live i q hq
    constructor
    · intro h
      simp [h, ProcState.kind] at hlive
    · intro h
      simp [h, ProcState.kind] at hlive
  · apply hI.wf.ascends
  · intro i hi n hn
    apply (hI.wf.ascends i hi).acyclic hI.wf.root_orphan hn
  · apply hI.wf.root_orphan
  · intro hbound i hi
    apply ((PidInv.reachable hs hbound).range i (hused i hi)).1
  · intro hbound i j hi hj
    apply (PidInv.reachable hs hbound).inj i j (hused i hi) (hused j hj)

/-- The steps of a `kfork` of `p` that allocates the slot with index `k`. -/
def forkActs (p : Slot) (k : ℕ) : List Act :=
  .call p .fork :: List.replicate (k + 8) (.run p true)

/-- The table after the first process has forked once. -/
theorem process_forest_fork :
  ∃ s, procSystem.exec Sys.boot (.dispatch 0 :: forkActs 0 1) = some s
    ∧ s.parent 1 = some 0 ∧ s.Forested
  := by
  have h : (procSystem.exec Sys.boot (.dispatch 0 :: forkActs 0 1)).map (·.parent 1)
      = some (some 0) := by decide
  obtain ⟨s, hs, hp⟩ := Option.map_eq_some_iff.mp h
  have hboot : procSystem.Reachable Sys.boot := .init rfl
  exact ⟨s, hs, hp, process_forest (hboot.exec hs)⟩

/-- The locks of the process table in every reachable state: a thread holds one exactly while it is
inside of its critical section, and a slot is set up by one thread only. -/
theorem proc_locks_exclusive {s : Sys} (hs : procSystem.Reachable s) :
  (∀ p, s.waitLock = some p ↔ (s.pc p).holdsWait = true)
    ∧ (∀ q p, s.lock q = some p ↔ (s.pc p).holdsSlot = some q)
    ∧ ∀ p q np, (s.pc p).builds = some np → (s.pc q).builds = some np → p = q
  := by
  have h := Inv.reachable hs
  exact ⟨h.wait, h.slot, h.unique⟩

/-- The first process has found a slot for a child. -/
theorem proc_locks_exclusive_fork :
  ∃ s, procSystem.Reachable s ∧ s.lock 1 = some 0 ∧ (s.pc 0).holdsSlot = some 1
  := by
  have hrun : procSystem.exec Sys.boot
      [.dispatch 0, .call 0 .fork, .run 0 true, .run 0 true] = some _ := rfl
  have hr := (TransitionSystem.Reachable.init rfl).exec hrun
  exact ⟨_, hr, rfl, ((proc_locks_exclusive hr).2.1 1 0).mp rfl⟩

end Xv6
