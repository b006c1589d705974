import Xv6.Proc.Wait

/-!
# Exactly-once reaping

A process that exits leaves its pid and status in its slot, and `kwait` takes them out.
Exits and returns from `kwait` follow the rules of deposits, so that nothing is returned
twice.  A process that sleeps in `kwait` has no zombie child while `wait_lock` is free: a
process that exits holds `wait_lock` from before it wakes its parent until it is a zombie,
and while it hands its children over and wakes the first process.
-/

namespace Xv6

open Function

/-! ### Nobody sleeps next to a zombie child -/

/-- Every thread finds its assertion true; a process that does not sleep elsewhere sleeps on
its own slot; and a process that sleeps next to a zombie child is the first process, on its
way to be woken. -/
structure Waiting (s : Sys) : Prop where
  awaits : ∀ p, Awaits s p (s.pc p)
  sleeps : ∀ q, (s.proc q).state = .sleeping →
    (∃ r, s.pc q = .user r) ∨ (s.proc q).chan = some (.proc q)
  owed : ∀ i q, s.parent i = some q → (s.proc i).state = .zombie → s.Asleep q →
    q = s.initproc ∧ ∃ p status k j, s.pc p = .reparentWakeup status k j ∧ j ≤ q.val

theorem awaits_of_not_holdsWait {s : Sys} {p : Slot} {pc : Pc} (h : pc.holdsWait = false) :
  Awaits s p pc
  := by
  cases pc with
  | exitWakeup | exitZombie | waitScan | waitKilled | waitSleep => cases h
  | _ => trivial

/-- A step after which there are no more zombies, children or sleepers than before. -/
structure Eases (s s' : Sys) : Prop where
  zombie : ∀ i, (s'.proc i).state = .zombie → (s.proc i).state = .zombie
  asleep : ∀ q, s'.Asleep q → s.Asleep q
  parent : ∀ i q, s'.parent i = some q → s.parent i = some q
  root : s'.initproc = s.initproc

theorem Sys.setProc_pc (s : Sys) (i : Slot) (pr : Proc) : (s.setProc i pr).pc = s.pc := rfl

variable {s s' : Sys} {i q : Slot} {pr : Proc} {status : ℤ} {addr : UInt64} {havekids : Bool}

/-- One process changes. -/
theorem Eases.of_setProc
    (hproc : s'.proc = update s.proc i pr) (hroot : s'.initproc = s.initproc)
    (hz : pr.state ≠ .zombie) (hsleep : ¬ (pr.state = .sleeping ∧ pr.chan = some (.proc i)))
    (hparent : ∀ q, pr.parent = some q → (s.proc i).parent = some q) :
  Eases s s'
  where
  zombie j := by
    rw [hproc]
    exact update_cases j (absurd · hz) (fun _ => id)
  asleep q := by
    unfold Sys.Asleep
    rw [hproc]
    exact update_cases q (absurd · hsleep) (fun _ => id)
  parent j q := by
    unfold Sys.parent
    rw [hproc]
    exact update_cases j (hparent q) (fun _ => id)
  root := hroot

theorem Calm.eases (h : Calm s s') : Eases s s' :=
  ⟨fun i => (h.zombie_iff i).mp, fun _ => h.asleep, h.parent, h.root⟩

theorem Awaits.eases {p : Slot} {pc : Pc} (h : Awaits s p pc) (he : Eases s s') :
  Awaits s' p pc
  := by
  cases pc with
  | waitScan addr k havekids =>
    intro i hi hparent
    obtain ⟨hz, hkids⟩ := h i hi (he.parent i p hparent)
    exact ⟨fun hz' => hz (he.zombie i hz'), hkids⟩
  | waitKilled addr | waitSleep addr =>
    exact fun i hparent hz => h i (he.parent i p hparent) (he.zombie i hz)
  | exitWakeup status chan j =>
    intro q hq
    obtain ⟨hchan, hnot⟩ := h q (he.parent p q hq)
    exact ⟨hchan, fun hj hsleep => hnot hj (he.asleep q hsleep)⟩
  | exitZombie status => exact fun q hq hsleep => h q (he.parent p q hq) (he.asleep q hsleep)
  | _ => trivial

namespace Waiting

variable {s s' : Sys} {p : Slot} {pc pc' : Pc} {r : Option Ret}

theorem boot : Waiting Sys.boot where
  awaits _ := trivial
  sleeps q _ := Or.inl ⟨none, rfl⟩
  owed i q hparent := by
    have horphan : ∀ i, Sys.boot.parent i = none := by decide
    cases (horphan i).symm.trans hparent

theorem awaits_at (hw : Waiting s) (hpc : s.pc p = pc) : Awaits s p pc := hpc ▸ hw.awaits p

/-- While a thread holds `wait_lock` anywhere else, nobody is on the way to be woken. -/
theorem not_owed (hw : Waiting s) (hI : Inv s.view s.pc) (hpc : s.pc p = pc)
    (hholds : pc.holdsWait = true) (hne : ∀ status k j, pc ≠ .reparentWakeup status k j)
    {i q : Slot} (hparent : s.parent i = some q) (hz : (s.proc i).state = .zombie) :
  ¬ s.Asleep q
  := by
  subst hpc
  intro hsleep
  obtain ⟨_, p', status, k, j, hp', _⟩ := hw.owed i q hparent hz hsleep
  have hholds' : (s.pc p').holdsWait = true := by rw [hp']; rfl
  obtain rfl := hI.wait.eq hholds hholds'
  exact hne status k j hp'

/-- A step after which there are no more zombies, children or sleepers than before, by which
at most the thread of `p` moves. -/
theorem ease (hw : Waiting s) (he : Eases s s') (hothers : ∀ q, q ≠ p → s'.pc q = s.pc q)
    (hawaits : Awaits s' p (s'.pc p))
    (hsleeps : ∀ q, (s'.proc q).state = .sleeping →
      (∃ r, s'.pc q = .user r) ∨ (s'.proc q).chan = some (.proc q))
    (howed : ∀ status k j, s.pc p = .reparentWakeup status k j →
      s'.Asleep s.initproc → j ≤ s.initproc.val →
        ∃ status k j, s'.pc p = .reparentWakeup status k j ∧ j ≤ s.initproc.val) :
  Waiting s'
  where
  awaits q := by
    by_cases hq : q = p
    · subst hq
      exact hawaits
    · rw [hothers q hq]
      exact (hw.awaits q).eases he
  sleeps := hsleeps
  owed i q hparent hz hsleep := by
    obtain ⟨rfl, p', status, k, j, hp', hj⟩ := hw.owed i q (he.parent i q hparent)
      (he.zombie i hz) (he.asleep q hsleep)
    refine ⟨he.root.symm, ?_⟩
    by_cases hpp' : p' = p
    · subst hpp'
      obtain ⟨status', k', j', hpc', hj'⟩ := howed status k j hp' hsleep hj
      exact ⟨p', status', k', j', hpc', hj'⟩
    · exact ⟨p', status, k, j, (hothers p' hpp').trans hp', hj⟩

theorem sleeps_calm (hw : Waiting s) (hcalm : Calm s s')
    (hpc : ∀ q, (s.proc q).state = .sleeping → s'.pc q = s.pc q) (q : Slot)
    (hq : (s'.proc q).state = .sleeping) :
  (∃ r, s'.pc q = .user r) ∨ (s'.proc q).chan = some (.proc q)
  := by
  obtain ⟨hs, hchan⟩ := hcalm.sleeping q hq
  rw [hpc q hs, hchan]
  exact hw.sleeps q hs

section

variable (hw : Waiting s) (hrun : (s.proc p).state = .running)

include hw hrun

/-- A thread moves, makes no zombie or child, and puts nobody to sleep. -/
theorem move (hcalm : Calm s s')
    (hpc : s'.pc = update s.pc p pc') (hawaits : Awaits s' p pc')
    (howed : ∀ status k j, s.pc p = .reparentWakeup status k j →
      s'.Asleep s.initproc → j ≤ s.initproc.val →
        ∃ status k j, pc' = .reparentWakeup status k j ∧ j ≤ s.initproc.val) :
  Waiting s'
  := by
  have hself : s'.pc p = pc' := by rw [hpc, update_self]
  have hothers : ∀ q, q ≠ p → s'.pc q = s.pc q := by
    intro q hq
    rw [hpc, update_of_ne hq]
  apply hw.ease hcalm.eases hothers
  · rwa [hself]
  · apply hw.sleeps_calm hcalm
    intro q hs
    apply hothers
    rintro rfl
    cases hrun.symm.trans hs
  · rwa [hself]

/-- A thread moves, and the table stays as it is. -/
theorem goto (hpc : s.pc p = pc)
    (hawaits : Awaits s p pc') (hne : ∀ status k j, pc ≠ .reparentWakeup status k j) :
  Waiting (s.goto p pc')
  := by
  have hcalm : Calm s (s.goto p pc') := Calm.of_proc rfl rfl
  apply hw.move hrun hcalm rfl (hawaits.eases hcalm.eases)
  intro status k j hpc₀
  exact absurd (hpc.symm.trans hpc₀) (hne status k j)

/-- The thread of `p` moves while nobody else holds `wait_lock`, and one process changes. -/
theorem settle (hproc : s'.proc = update s.proc i pr) (hpc : s'.pc = update s.pc p pc')
    (hawaits : Awaits s' p pc') (hothers : ∀ q, q ≠ p → (s.pc q).holdsWait = false)
    (hsleep : pr.state = .sleeping →
      (s.proc i).state = .sleeping ∧ pr.chan = (s.proc i).chan
        ∨ pr.chan = some (.proc i) ∧ ∀ j, s.parent j = some i → (s.proc j).state ≠ .zombie)
    (hself : pr.state = .zombie → ∀ q, pr.parent = some q → s.Asleep q →
      q = s'.initproc ∧ ∃ status k j, pc' = .reparentWakeup status k j ∧ j ≤ q.val)
    (hrest : ∀ j q, s.parent j = some q → (s.proc j).state = .zombie → ¬ s.Asleep q) :
  Waiting s'
  := by
  have hasleep : ∀ q, s'.Asleep q → s.Asleep q
      ∨ q = i ∧ pr.state = .sleeping ∧ ∀ j, s.parent j = some i → (s.proc j).state ≠ .zombie := by
    intro q
    unfold Sys.Asleep
    rw [hproc]
    refine update_cases q ?_ (fun _ => Or.inl)
    rintro ⟨hs, hchan⟩
    rcases hsleep hs with ⟨hs', hchan'⟩ | ⟨_, hnone⟩
    · exact Or.inl ⟨hs', hchan'.symm.trans hchan⟩
    · exact Or.inr ⟨rfl, hs, hnone⟩
  refine ⟨fun q => ?_, fun q => ?_, fun j q hparent hz hq => ?_⟩
  · rw [hpc]
    exact update_cases q hawaits (fun hq => awaits_of_not_holdsWait (hothers q hq))
  · have hold : (s.proc q).state = .sleeping →
        (∃ r, s'.pc q = .user r) ∨ (s.proc q).chan = some (.proc q) := by
      intro hs
      have hqp : q ≠ p := by
        rintro rfl
        cases hrun.symm.trans hs
      rw [hpc, update_of_ne hqp]
      exact hw.sleeps q hs
    rw [hproc]
    revert hold
    refine update_cases q (fun hold hs => ?_) (fun _ => id)
    rcases hsleep hs with ⟨hs', hchan⟩ | ⟨hchan, _⟩
    · rw [hchan]
      exact hold hs'
    · exact Or.inr hchan
  · unfold Sys.parent at hparent
    rw [hproc] at hparent hz
    revert hparent hz
    refine update_cases j (fun hparent hz => ?_) (fun _ hparent hz => ?_)
    · have hold := (hasleep q hq).resolve_right fun hs => by cases hz.symm.trans hs.2.1
      obtain ⟨hroot, status, k, j, hpc', hle⟩ := hself hz q hparent hold
      refine ⟨hroot, p, status, k, j, ?_, hle⟩
      rw [hpc, update_self, hpc']
    · rcases hasleep q hq with hold | ⟨rfl, _, hnone⟩
      · exact absurd hold (hrest j q hparent hz)
      · exact absurd hz (hnone j hparent)

end

theorem doze (hw : Waiting s) {n : ℕ} (hpc : s.pc p = .user r) :
  Waiting (s.setProc p { s.proc p with chan := some (.other n), state := .sleeping })
  := by
  have hother : ∀ q, q ≠ p → (s.setProc p { s.proc p with
      chan := some (.other n), state := .sleeping }).proc q = s.proc q :=
    fun q hq => update_of_ne hq ..
  have he : Eases s (s.setProc p { s.proc p with chan := some (.other n), state := .sleeping }) :=
    Eases.of_setProc rfl rfl nofun (by rintro ⟨_, ⟨⟩⟩) fun _ => id
  apply hw.ease (p := p) he
  · exact fun _ _ => rfl
  · rw [Sys.setProc_pc, hpc]
    trivial
  · intro q hq
    by_cases hqp : q = p
    · subst hqp
      exact Or.inl ⟨r, hpc⟩
    · rw [hother q hqp] at hq ⊢
      exact hw.sleeps q hq
  · intro status k j hpc₀
    cases hpc.symm.trans hpc₀

theorem adopt (hw : Waiting s) (hI : Inv s.view s.pc) {np : Slot} {pid : ℤ}
    (hrun : (s.proc p).state = .running) (hpc : s.pc p = .forkParent np pid)
    (hlock : s.waitLock = none) :
  Waiting ((s.setProc np { s.proc np with parent := some p }).goto p (.forkReady np pid))
  := by
  have hfree : ∀ q, ¬ (s.pc q).holdsWait = true := by
    intro q
    have hg : Guards none (fun k => k.holdsWait = true) s.pc := hlock ▸ hI.wait
    exact hg.not_inside q
  have hembryo : s.view.lineage.kind np = .embryo := by
    have hl := hI.loc p
    rw [hpc] at hl
    exact hl.1
  refine hw.settle hrun rfl rfl trivial (fun q _ => Bool.eq_false_of_not_eq_true (hfree q)) ?_ ?_ ?_
  · exact fun hs => Or.inl ⟨hs, rfl⟩
  · intro hz
    cases hembryo.symm.trans (ProcState.kind_eq_dead.mpr hz)
  · intro i q hparent hz hsleep
    obtain ⟨_, p', status, k, j, hp', _⟩ := hw.owed i q hparent hz hsleep
    apply hfree p'
    rw [hp']
    rfl

/-- The threads other than the one that holds `wait_lock` do not hold it. -/
theorem others (hI : Inv s.view s.pc) (hpc : s.pc p = pc) (hholds : pc.holdsWait = true)
    (hq : q ≠ p) :
  (s.pc q).holdsWait = false
  := by
  subst hpc
  apply Bool.eq_false_of_not_eq_true
  intro hn
  exact hq (hI.wait.eq hn hholds)

variable (hw : Waiting s) (hI : Inv s.view s.pc)

include hw hI

theorem entrust (hrun : (s.proc p).state = .running) (hpc : s.pc p = .reparent status i) :
  Waiting ((s.setProc i { s.proc i with parent := some s.initproc }).goto p
    (.reparentWakeup status i 0))
  := by
  refine hw.settle hrun rfl rfl trivial (fun _ => others hI hpc rfl) (fun hs => Or.inl ⟨hs, rfl⟩) ?_
    (fun _ _ => hw.not_owed hI hpc rfl nofun)
  rintro _ q ⟨⟩ _
  exact ⟨rfl, status, i, 0, rfl, Nat.zero_le _⟩

theorem die (hrun : (s.proc p).state = .running) (hpc : s.pc p = .exitZombie status) :
  Waiting (((s.setProc p { s.proc p with xstate := status, state := .zombie }).setWait none).goto p
    (.user none))
  := by
  refine hw.settle hrun rfl rfl trivial (fun _ => others hI hpc rfl) nofun ?_
    (fun _ _ => hw.not_owed hI hpc rfl nofun)
  intro _ q hparent hsleep
  exact absurd hsleep (hw.awaits_at hpc q hparent)

theorem reap (hrun : (s.proc p).state = .running) (hpc : s.pc p = .waitScan addr i havekids) :
  Waiting (((s.setProc i (s.proc i).freeproc).setWait none).goto p (.user r))
  := hw.settle hrun rfl rfl trivial (fun _ => others hI hpc rfl) nofun nofun
    (fun _ _ => hw.not_owed hI hpc rfl nofun)

theorem sleep (hrun : (s.proc p).state = .running) (hpc : s.pc p = .waitSleep addr) :
  Waiting (((s.setProc p { s.proc p with chan := some (.proc p), state := .sleeping }).setWait
    none).goto p (.waitWait addr))
  := hw.settle hrun rfl rfl trivial (fun _ => others hI hpc rfl)
    (fun _ => Or.inr ⟨rfl, hw.awaits_at hpc⟩) nofun (fun _ _ => hw.not_owed hI hpc rfl nofun)

end Waiting

variable {evs : List (DepositEvent Slot (ℤ × ℤ))} {a : Act}

/-- Every step keeps the invariant. -/
theorem WaitEffect.waiting
    (h : WaitEffect s a evs s') (hI : Inv s.view s.pc) (hw : Waiting s) :
  Waiting s'
  := by
  cases h with
  | still s' hcalm hpc =>
    apply hw.ease (p := 0) hcalm.eases
    · intro q _
      rw [hpc]
    · rw [hpc]
      exact (hw.awaits 0).eases hcalm.eases
    · apply hw.sleeps_calm hcalm
      intro q _
      rw [hpc]
    · intro status k j hpc₀ _ hj
      rw [hpc]
      exact ⟨status, k, j, hpc₀, hj⟩
  | doze p n r hrun hpc => exact hw.doze hpc
  | walk p pc' s' hrun hcalm hpc hplain hawaits _ =>
    apply hw.move hrun hcalm hpc (hawaits s')
    intro status k j hpc₀
    rw [hpc₀] at hplain
    cases hplain
  | adopt p np pid hrun hpc hlock => exact hw.adopt hI hrun hpc hlock
  | skipChild p status k hrun hpc => exact hw.goto hrun hpc trivial nofun
  | entrust p status i hrun hpc _ => exact hw.entrust hI hrun hpc
  | wakeInit p status k j s' hrun hpc hcalm hpc' hwoken =>
    apply hw.move hrun hcalm hpc' trivial
    intro status' k' j' hpc₀ hsleep hj
    cases hpc.symm.trans hpc₀
    refine ⟨status, k, j + 1, rfl, ?_⟩
    have hne : s.initproc.val ≠ j := fun hinit => hwoken hinit hsleep
    omega
  | wokeInit p status k j hrun hpc hle =>
    have hcalm : Calm s (s.goto p (.reparent status (k + 1))) := Calm.of_proc rfl rfl
    apply hw.move hrun hcalm rfl trivial
    intro status' k' j' hpc₀ hsleep hj
    cases hpc.symm.trans hpc₀
    have := s.initproc.isLt
    omega
  | callParent p status k hrun hpc =>
    apply hw.goto hrun hpc _ nofun
    intro q hq
    rw [hq]
    exact ⟨rfl, fun hn => absurd hn (Nat.not_lt_zero _)⟩
  | wakeParent p status chan j s' hrun hpc hcalm hpc' hwoken =>
    apply hw.move hrun hcalm hpc'
    · intro q hq
      obtain ⟨hchan, hnot⟩ := hw.awaits_at hpc q (hcalm.parent p q hq)
      refine ⟨hchan, fun hlt hsleep => ?_⟩
      rcases Nat.lt_succ_iff_lt_or_eq.mp hlt with hlt | heq
      · exact hnot hlt (hcalm.asleep hsleep)
      · exact hwoken q heq hchan hsleep
    · intro status k j hpc₀
      cases hpc.symm.trans hpc₀
  | wokeParent p status chan j hrun hpc hle =>
    apply hw.goto hrun hpc _ nofun
    intro q hq
    apply (hw.awaits_at hpc q hq).2
    have := q.isLt
    omega
  | die p status hrun hpc => exact hw.die hI hrun hpc
  | pass p addr i havekids havekids' hrun hpc hchild hkids =>
    apply hw.goto hrun hpc _ nofun
    intro i' hi' hparent
    rcases Nat.lt_succ_iff_lt_or_eq.mp hi' with hlt | heq
    · obtain ⟨hz, hk⟩ := hw.awaits_at hpc i' hlt hparent
      exact ⟨hz, hkids hk⟩
    · obtain rfl := Fin.ext heq
      exact hchild hparent
  | reap p addr i havekids ok _ hrun hpc _ _ => exact hw.reap hI hrun hpc
  | scanned p addr k hrun hpc hle =>
    apply hw.goto hrun hpc _ nofun
    intro i hparent
    apply (hw.awaits_at hpc i _ hparent).1
    have := i.isLt
    omega
  | alive p addr hrun hpc =>
    have hawaits := hw.awaits_at hpc
    exact hw.goto hrun hpc hawaits nofun
  | sleep p addr hrun hpc => exact hw.sleep hI hrun hpc
  | fail p addr hrun hwhy =>
    have hcalm : Calm s ((s.setWait none).goto p (.user (some (.wait (-1))))) :=
      Calm.of_proc rfl rfl
    apply hw.move hrun hcalm rfl trivial
    intro status k j hpc₀
    rcases hwhy with ⟨_, hpc, _⟩ | ⟨hpc, _⟩ | ⟨_, _, _, _, hpc, _⟩
    all_goals cases hpc.symm.trans hpc₀

/-- Every state that the steps reach from `userinit` is one of these. -/
theorem Waiting.reachable {s : Sys} (hs : procSystem.Reachable s) :
  Waiting s
  := by
  induction hs with
  | init h =>
    rw [h]
    exact boot
  | step hr h ih => exact (step_waitEffect (Inv.reachable hr) h).waiting (Inv.reachable hr) ih

/-! ### Exits and returns from `kwait` are deposits -/

/-- What a step deposits and takes leads from the zombies before it to the zombies after it. -/
theorem WaitEffect.deposit
    (h : WaitEffect s a evs s') :
  (depositSystem Slot (ℤ × ℤ)).exec s.zombies evs = some s'.zombies
  := by
  have hnone : ∀ s' : Sys, s'.zombies = s.zombies →
      (depositSystem Slot (ℤ × ℤ)).exec s.zombies [] = some s'.zombies := by
    intro s' hz
    rw [hz]
    rfl
  cases h with
  | still s' hcalm _ | walk p pc' s' _ hcalm | wakeInit p status k j s' _ _ hcalm
  | wakeParent p status chan j s' _ _ hcalm => exact hnone s' hcalm.zombies
  | doze p n r hrun _ | sleep p addr hrun _ =>
    apply hnone
    apply Sys.zombies_setProc_of_same rfl
    unfold Proc.remains
    rw [hrun]
    rfl
  | adopt p np pid | entrust p status i => exact hnone _ (Sys.zombies_setProc_of_same rfl rfl)
  | die p status hrun _ =>
    have hp : s.zombies p = none := by
      unfold Sys.zombies Proc.remains
      rw [hrun]
      rfl
    apply TransitionSystem.exec_cons_iff.mpr
    refine ⟨_, if_pos hp, congrArg some ?_⟩
    symm
    apply Sys.zombies_setProc
    · rfl
    · rfl
  | reap p addr i havekids ok _ _ _ _ hz =>
    have hi : s.zombies i = some ((s.proc i).pid, (s.proc i).xstate) := if_pos hz
    apply TransitionSystem.exec_cons_iff.mpr
    refine ⟨_, if_pos hi, congrArg some ?_⟩
    symm
    apply Sys.zombies_setProc
    · rfl
    · rfl
  | _ => rfl

/-- What the steps of a run from `userinit` deposit and take. -/
def depositTrace (as : List Act) : List (DepositEvent Slot (ℤ × ℤ)) :=
  procSystem.trace (fun s a _ => s.deposits a) Sys.boot as

theorem depositTrace_exec {as : List Act} {s : Sys} (h : procSystem.exec Sys.boot as = some s) :
  (depositSystem Slot (ℤ × ℤ)).exec (fun _ => none) (depositTrace as) = some s.zombies
  := by
  have hboot : Sys.boot.zombies = fun _ => none := by
    funext i
    revert i
    decide
  rw [← hboot]
  refine TransitionSystem.exec_trace (f := Sys.zombies) (I := procSystem.Reachable) ?_ ?_ (.init rfl) h
  · exact fun _ _ _ => .step
  · exact fun s a s' hs h => (step_waitEffect (Inv.reachable hs) h).deposit

/-! ### The status passed to `kexit` -/

/-- A thread comes to be in `kexit` by calling it. -/
theorem WaitEffect.exiting (h : WaitEffect s a evs s') (hq : (s'.pc q).exiting = some status) :
  (s.pc q).exiting = some status ∨ a = .call q (.exit status)
  := by
  have hmove : ∀ (p : Slot) (pc pc' : Pc), s.pc p = pc → s'.pc = update s.pc p pc' →
      (pc'.exiting = some status → pc.exiting = some status ∨ a = .call p (.exit status)) →
      (s.pc q).exiting = some status ∨ a = .call q (.exit status) := by
    rintro p _ pc' rfl hpc hexit
    rw [hpc] at hq
    revert hq
    exact update_cases q hexit (fun _ => Or.inl)
  cases h with
  | still s' _ hpc =>
    rw [hpc] at hq
    exact Or.inl hq
  | doze => exact Or.inl hq
  | walk p pc' s' _ _ hpc _ _ _ hexit => exact hmove p _ _ rfl hpc (hexit status)
  | adopt p np pid _ hpc | die p _ _ hpc | pass p addr i havekids havekids' _ hpc
  | reap p addr i havekids ok _ _ hpc | scanned p addr k _ hpc | alive p addr _ hpc
  | sleep p addr _ hpc => exact hmove p _ _ hpc rfl nofun
  | skipChild p _ k _ hpc | entrust p _ i _ hpc | wokeInit p _ k j _ hpc
  | callParent p _ k _ hpc | wokeParent p _ chan j _ hpc => exact hmove p _ _ hpc rfl Or.inl
  | wakeInit p _ k j s' _ hpc _ hpc' | wakeParent p _ chan j s' _ hpc _ hpc' =>
    exact hmove p _ _ hpc hpc' Or.inl
  | fail p addr _ _ => exact hmove p _ _ rfl rfl nofun

theorem Sys.user_of_call {p : Slot} {c : Syscall} (h : s.step (.call p c) = some s') :
  ∃ r, s.pc p = .user r
  := by
  unfold Sys.step at h
  split_ifs at h
  simp only at h
  split_ifs at h
  cases hpc : s.pc p with
  | user r => exact ⟨r, rfl⟩
  | _ =>
    rw [hpc] at h
    cases h

/-- The last system call of a thread in `kexit` is `exit`, with the status the thread carries. -/
theorem exit_called {as : List Act} {s : Sys} (h : procSystem.exec Sys.boot as = some s)
    (hq : (s.pc q).exiting = some status) :
  ∃ bs cs, as = bs ++ .call q (.exit status) :: cs ∧ ∀ c, .call q c ∉ cs
  := by
  have hboot : ¬ (Sys.boot.pc q).exiting = some status := by rintro ⟨⟩
  obtain ⟨bs, a, cs, s₁, rfl, hbs, hnot, hsince⟩ :=
    TransitionSystem.exec_since (P := fun s => (s.pc q).exiting = some status) hboot h hq
  have hs₁ : procSystem.Reachable s₁ := TransitionSystem.Reachable.exec (.init rfl) hbs
  rw [TransitionSystem.exec_append, hbs] at h
  obtain ⟨s₂, h₂, _⟩ := TransitionSystem.exec_cons_iff.mp h
  have hexit : (s₂.pc q).exiting = some status := by
    apply hsince [] cs s₂ rfl
    rw [TransitionSystem.exec_append, hbs]
    exact TransitionSystem.exec_cons_iff.mpr ⟨s₂, h₂, rfl⟩
  obtain rfl : a = .call q (.exit status) :=
    ((step_waitEffect (Inv.reachable hs₁) h₂).exiting hexit).resolve_left hnot
  refine ⟨bs, cs, rfl, ?_⟩
  -- a thread in `kexit` makes no system call
  intro c hc
  obtain ⟨ds, es, rfl⟩ := List.append_of_mem hc
  rw [Option.bind_some, ← List.cons_append, TransitionSystem.exec_append] at h
  obtain ⟨s₃, h₃, h⟩ := Option.bind_eq_some_iff.mp h
  obtain ⟨s₄, h₄, _⟩ := TransitionSystem.exec_cons_iff.mp h
  have hexit₃ : (s₃.pc q).exiting = some status := by
    apply hsince ds _ s₃ rfl
    rw [TransitionSystem.exec_append, hbs]
    exact h₃
  obtain ⟨r, hr⟩ := Sys.user_of_call h₄
  rw [hr] at hexit₃
  cases hexit₃

/-! ### What `kwait` promises -/

/-- What holds of exits and of `kwait` after the run `as` to `s`, and for the next step. -/
structure Reaped (as : List Act) (s : Sys) : Prop where
  /-- What `kwait` takes from a slot was left there by an exit, and nothing has been left
  there or taken from there since. -/
  once : ∀ es es' i b, depositTrace as = es ++ .take i b :: es' →
    ∃ es₁ es₂, es = es₁ ++ .put i b :: es₂ ∧ ∀ e ∈ es₂, e.place ≠ i
  /-- A process leaves its pid and the status it has called `kexit` with. -/
  exits : ∀ a s' i pid status, s.step a = some s' → .put i (pid, status) ∈ s.deposits a →
    pid = (s.proc i).pid ∧ ∃ bs cs, as = bs ++ .call i (.exit status) :: cs ∧ ∀ c, .call i c ∉ cs
  /-- What is taken is taken by the parent, which returns the pid. -/
  reaps : ∀ a s' i pid status, s.step a = some s' → .take i (pid, status) ∈ s.deposits a →
    ∃ p ok, a = .run p ok ∧ s.parent i = some p ∧ s'.pc p = .user (some (.wait pid))
  /-- When the status cannot be copied out, `kwait` fails and the table stays as it is. -/
  unreaped : ∀ s' p (i : Slot) addr havekids, s.step (.run p false) = some s' →
    s.pc p = .waitScan addr i havekids → s.parent i = some p → (s.proc i).state = .zombie →
    addr ≠ 0 → s'.pc p = .user (some (.wait (-1))) ∧ s'.proc = s.proc
  /-- A process that returns from `kwait` has taken what it returns, or it returns `-1`
  because it has no children, has been killed, or could not copy the status out. -/
  returns : ∀ a s' p r, s.step a = some s' → s'.pc p = .user (some (.wait r)) →
    s'.pc p ≠ s.pc p →
    (∃ i status, s.deposits a = [.take i (r, status)])
      ∨ r = -1 ∧ s.deposits a = [] ∧ ((∀ i, s.parent i ≠ some p) ∨ (s.proc p).killed = true
        ∨ a = .run p false ∧ ∃ addr k havekids, s.pc p = .waitScan addr k havekids ∧ addr ≠ 0)
  /-- While `wait_lock` is free, nobody sleeps in `kwait` next to a zombie child. -/
  awake : s.waitLock = none → ∀ q addr, s.pc q = .waitWait addr →
    (s.proc q).state = .sleeping → ∀ i, s.parent i = some q → (s.proc i).state ≠ .zombie

/-- A thread that moves is the one a step moves. -/
theorem moved_of_update {p q : Slot} {pc' : Pc}
    (hpc : s'.pc = update s.pc p pc') (hne : s'.pc q ≠ s.pc q) :
  q = p ∧ s'.pc q = pc'
  := by
  have hqp : q = p := by
    by_contra hqp
    apply hne
    rw [hpc, update_of_ne hqp]
  subst hqp
  refine ⟨rfl, ?_⟩
  rw [hpc, update_self]

/-- A process that returns from `kwait`. -/
theorem WaitEffect.returns (h : WaitEffect s a evs s') (hw : Waiting s) {r : ℤ}
    (hq : s'.pc q = .user (some (.wait r))) (hne : s'.pc q ≠ s.pc q) :
  (∃ i status, evs = [.take i (r, status)])
    ∨ r = -1 ∧ evs = [] ∧ ((∀ i, s.parent i ≠ some q) ∨ (s.proc q).killed = true
      ∨ a = .run q false ∧ ∃ addr k havekids, s.pc q = .waitScan addr k havekids ∧ addr ≠ 0)
  := by
  -- most steps lead elsewhere
  have hnot : ∀ (p : Slot) (pc' : Pc), s'.pc = update s.pc p pc' →
      pc' ≠ .user (some (.wait r)) → False := by
    intro p pc' hpc hpc'
    obtain ⟨_, hq'⟩ := moved_of_update hpc hne
    exact hpc' (hq'.symm.trans hq)
  cases h with
  | still s' _ hpc =>
    rw [hpc] at hne
    contradiction
  | doze => contradiction
  | walk p pc' s' _ _ hpc _ _ hwait _ => exact (hnot p pc' hpc (hwait r)).elim
  | wakeInit p status k j s' _ _ _ hpc' | wakeParent p status chan j s' _ _ _ hpc' =>
    exact (hnot p _ hpc' nofun).elim
  | reap p addr i havekids ok =>
    obtain ⟨_, hq'⟩ := moved_of_update rfl hne
    cases hq'.symm.trans hq
    exact Or.inl ⟨i, _, rfl⟩
  | fail p addr _ hwhy =>
    obtain ⟨rfl, hq'⟩ := moved_of_update rfl hne
    cases hq'.symm.trans hq
    refine Or.inr ⟨rfl, rfl, ?_⟩
    rcases hwhy with ⟨k, hpc, hle⟩ | ⟨_, hkilled⟩ | ⟨ha, haddr, i, havekids, hpc, _⟩
    · -- the scan has come to the end and found no child
      left
      intro i hparent
      have hi : i.val < k := lt_of_lt_of_le i.isLt hle
      cases (hw.awaits_at hpc i hi hparent).2
    · exact Or.inr (Or.inl hkilled)
    · exact Or.inr (Or.inr ⟨ha, addr, i, havekids, hpc, haddr⟩)
  | _ => exact (hnot _ _ rfl nofun).elim

/-- What is taken is taken by the parent. -/
theorem WaitEffect.reaps
    (h : WaitEffect s a evs s') {pid status : ℤ} (hmem : .take i (pid, status) ∈ evs) :
  ∃ p ok, a = .run p ok ∧ s.parent i = some p ∧ s'.pc p = .user (some (.wait pid))
  := by
  cases h with
  | die => simp at hmem
  | reap p addr j havekids ok ha _ _ hparent =>
    simp only [List.mem_singleton, DepositEvent.take.injEq, Prod.mk.injEq] at hmem
    obtain ⟨rfl, rfl, _⟩ := hmem
    refine ⟨p, ok, ha, hparent, ?_⟩
    rw [Sys.goto_pc, update_self]
  | _ => cases hmem

/-- What is left is left in `kexit`. -/
theorem WaitEffect.exits
    (h : WaitEffect s a evs s') {pid status : ℤ} (hmem : .put i (pid, status) ∈ evs) :
  pid = (s.proc i).pid ∧ s.pc i = .exitZombie status
  := by
  cases h with
  | die p status' _ hpc =>
    simp only [List.mem_singleton, DepositEvent.put.injEq, Prod.mk.injEq] at hmem
    obtain ⟨rfl, rfl, rfl⟩ := hmem
    exact ⟨rfl, hpc⟩
  | reap => simp at hmem
  | _ => cases hmem

/-- When the status cannot be copied out, the child stays a zombie. -/
theorem Sys.copyout_fails {p i : Slot}
    (h : s.step (.run p false) = some s') (hpc : s.pc p = .waitScan addr i havekids)
    (hparent : s.parent i = some p) (hz : (s.proc i).state = .zombie) (haddr : addr ≠ 0) :
  s'.pc p = .user (some (.wait (-1))) ∧ s'.proc = s.proc
  := by
  unfold Sys.step at h
  split_ifs at h
  simp only [hpc, Sys.advance, i.isLt, dite_true] at h
  split_ifs at h
  have hchild : (s.proc i).parent = some p := hparent
  simp only [Sys.waitAt, hchild, hz, haddr, if_true, ne_eq, not_false_eq_true, and_self] at h
  split_ifs at h
  cases h
  refine ⟨?_, rfl⟩
  rw [Sys.goto_pc, update_self]

/-- The first process forks and waits; the child exits with status `7`. -/
def forkAndWait : List Act :=
  .dispatch 0 :: forkActs 0 1
    ++ .dispatch 1 :: .call 0 (.wait 0) :: List.replicate 68 (.run 0 true)
    ++ .call 1 (.exit 7) :: List.replicate 132 (.run 1 true)
    ++ .dispatch 0 :: List.replicate 3 (.run 0 true)

end Xv6
