import Xv6.Lib.Deposit
import Xv6.Proc.Forest

/-!
# Waiting for children

What the steps do as far as `kexit` and `kwait` are concerned (`WaitEffect`): which of them
leave a zombie or take one, which make a child or put somebody to sleep, and what they do to
the place of the thread that takes them.  Most steps are calm, they make no zombie or child
and put nobody to sleep.
-/

namespace Xv6

open Function

/-! ### What is visible of a step -/

/-- What a zombie leaves: its pid and status. -/
def Proc.remains (pr : Proc) : Option (ℤ × ℤ) :=
  if pr.state = .zombie then some (pr.pid, pr.xstate) else none

namespace Sys

/-- What the zombies leave. -/
def zombies (s : Sys) (i : Slot) : Option (ℤ × ℤ) := (s.proc i).remains

/-- The process sleeps on its own slot, as it does in `kwait`. -/
def Asleep (s : Sys) (q : Slot) : Prop :=
  (s.proc q).state = .sleeping ∧ (s.proc q).chan = some (.proc q)

/-- What the step of a thread at the given place deposits or takes. -/
def depositsAt (s : Sys) (p : Slot) (ok : Bool) : Pc → List (DepositEvent Slot (ℤ × ℤ))
  | .exitZombie status => [.put p ((s.proc p).pid, status)]
  | .waitScan addr k _ =>
    if h : k < NPROC then
      if s.parent ⟨k, h⟩ = some p ∧ (s.proc ⟨k, h⟩).state = .zombie ∧ ¬ (addr ≠ 0 ∧ ok = false) then
        [.take ⟨k, h⟩ ((s.proc ⟨k, h⟩).pid, (s.proc ⟨k, h⟩).xstate)]
      else []
    else []
  | _ => []

/-- What a step deposits or takes. -/
def deposits (s : Sys) : Act → List (DepositEvent Slot (ℤ × ℤ))
  | .run p ok => s.depositsAt p ok (s.pc p)
  | _ => []

end Sys

/-- A place outside of the parts of `kexit` and `kwait` that hold `wait_lock`. -/
def Pc.plain : Pc → Bool
  | reparent .. | reparentWakeup .. | exitWakeup .. | exitZombie _ => false
  | waitScan .. | waitKilled _ | waitSleep _ => false
  | _ => true

/-- The status a thread in `kexit` was called with. -/
def Pc.exiting : Pc → Option ℤ
  | exitWait status | reparent status _ | reparentWakeup status _ _ => some status
  | exitWakeup status _ _ | exitZombie status => some status
  | _ => none

/-- A place that neither `kexit` nor `kwait` has to do with. -/
def Pc.aloof : Pc → Bool
  | .user (some (.wait _)) => false
  | pc => pc.plain && pc.exiting.isNone

/-- What the thread of `p` may rely on at each place where it holds `wait_lock`. -/
def Awaits (s : Sys) (p : Slot) : Pc → Prop
  | .waitScan _ k havekids =>
    ∀ i : Slot, i.val < k → s.parent i = some p → (s.proc i).state ≠ .zombie ∧ havekids = true
  | .waitKilled _ | .waitSleep _ => ∀ i, s.parent i = some p → (s.proc i).state ≠ .zombie
  | .exitWakeup _ chan j =>
    ∀ q, s.parent p = some q → chan = some (.proc q) ∧ (q.val < j → ¬ s.Asleep q)
  | .exitZombie _ => ∀ q, s.parent p = some q → ¬ s.Asleep q
  | _ => True

theorem Sys.zombies_setProc {s s' : Sys} {i : Slot} {pr : Proc} {b : Option (ℤ × ℤ)}
    (hproc : s'.proc = update s.proc i pr) (hb : pr.remains = b) :
  s'.zombies = update s.zombies i b
  := by
  subst hb
  change Proc.remains ∘ s'.proc = _
  rw [hproc, comp_update]
  rfl

theorem Sys.zombies_setProc_of_same {s s' : Sys} {i : Slot} {pr : Proc}
    (hproc : s'.proc = update s.proc i pr) (hpr : pr.remains = (s.proc i).remains) :
  s'.zombies = s.zombies
  := by
  rw [zombies_setProc hproc hpr]
  exact update_eq_self i s.zombies

/-- A step that makes no zombie or child, and puts nobody to sleep. -/
structure Calm (s s' : Sys) : Prop where
  zombies : s'.zombies = s.zombies
  sleeping : ∀ q, (s'.proc q).state = .sleeping →
    (s.proc q).state = .sleeping ∧ (s'.proc q).chan = (s.proc q).chan
  parent : ∀ i q, s'.parent i = some q → s.parent i = some q
  root : s'.initproc = s.initproc

namespace Calm

variable {s s' : Sys} {i q : Slot} {pr : Proc} {chan : Option Chan}

theorem of_proc (hproc : s'.proc = s.proc) (hroot : s'.initproc = s.initproc) : Calm s s' where
  zombies := by
    funext i
    unfold Sys.zombies
    rw [hproc]
  sleeping q hq := by
    rw [hproc] at hq ⊢
    exact ⟨hq, rfl⟩
  parent i q h := by
    unfold Sys.parent at h ⊢
    rwa [hproc] at h
  root := hroot

section

variable (hproc : s'.proc = update s.proc i pr)

include hproc

/-- One process changes. -/
theorem of_setProc (hroot : s'.initproc = s.initproc)
    (hremains : pr.remains = (s.proc i).remains)
    (hsleep : pr.state = .sleeping → (s.proc i).state = .sleeping ∧ pr.chan = (s.proc i).chan)
    (hparent : ∀ q, pr.parent = some q → (s.proc i).parent = some q) :
  Calm s s'
  where
  zombies := Sys.zombies_setProc_of_same hproc hremains
  sleeping q := by
    rw [hproc]
    exact update_cases q hsleep (fun _ hq => ⟨hq, rfl⟩)
  parent j q := by
    unfold Sys.parent
    rw [hproc]
    exact update_cases j (hparent q) (fun _ => id)
  root := hroot

/-- A process that is not a zombie changes, keeps its parent or loses it, and does not sleep
afterwards. -/
theorem of_setState (hroot : s'.initproc = s.initproc) (hstate : (s.proc i).state ≠ .zombie)
    (hstate' : pr.state ≠ .zombie ∧ pr.state ≠ .sleeping)
    (hparent : ∀ q, pr.parent = some q → (s.proc i).parent = some q) :
  Calm s s'
  := by
  apply of_setProc hproc hroot
  · unfold Proc.remains
    rw [if_neg hstate, if_neg hstate'.1]
  · exact fun hs => absurd hs hstate'.2
  · exact hparent

end

theorem of_wakeup (hproc : s'.proc = update s.proc i ((s.proc i).wakeup chan))
    (hroot : s'.initproc = s.initproc) :
  Calm s s'
  := by
  unfold Proc.wakeup at hproc
  split_ifs at hproc with hsleep
  · apply of_setState hproc hroot
    · rw [hsleep.1]
      rintro ⟨⟩
    · simp
    · exact fun _ => id
  · rw [update_eq_self] at hproc
    exact of_proc hproc hroot

theorem of_wakeupAt {s₁ : Sys} {p j : Slot} (h : s.wakeupAt p j chan = some s₁) :
  Calm s s₁ ∧ s₁.pc = s.pc
  := by
  unfold Sys.wakeupAt at h
  split_ifs at h
  · cases h
    exact ⟨of_proc rfl rfl, rfl⟩
  · cases h
    exact ⟨of_wakeup rfl rfl, rfl⟩

theorem of_kill (hproc : s'.proc = update s.proc i (s.proc i).kill)
    (hroot : s'.initproc = s.initproc) :
  Calm s s'
  := by
  by_cases hsleep : (s.proc i).state = .sleeping
  · apply of_setState hproc hroot
    · rw [hsleep]
      rintro ⟨⟩
    · rw [Proc.kill, if_pos hsleep]
      simp
    · exact fun _ => id
  · rw [Proc.kill, if_neg hsleep] at hproc
    apply of_setProc hproc hroot
    · rfl
    · exact fun hs => absurd hs hsleep
    · exact fun _ => id

theorem asleep (h : Calm s s') (hq : s'.Asleep q) : s.Asleep q := by
  obtain ⟨hstate, hchan⟩ := h.sleeping q hq.1
  exact ⟨hstate, hchan.symm.trans hq.2⟩

theorem zombie_iff (h : Calm s s') (i : Slot) :
  (s'.proc i).state = .zombie ↔ (s.proc i).state = .zombie
  := by
  have hi := congrFun h.zombies i
  unfold Sys.zombies Proc.remains at hi
  constructor
  · intro hz
    by_contra hn
    rw [if_pos hz, if_neg hn] at hi
    cases hi
  · intro hz
    by_contra hn
    rw [if_neg hn, if_pos hz] at hi
    cases hi

end Calm

/-- `wakeup` wakes the slot it has come to. -/
theorem Sys.wakeupAt_wakes {s s₁ : Sys} {p j q : Slot} (hrun : (s.proc p).state = .running)
    (h : s.wakeupAt p j (some (.proc q)) = some s₁) (hq : q = j) :
  ¬ s₁.Asleep q
  := by
  subst hq
  unfold Sys.wakeupAt at h
  split_ifs at h with hp
  · cases h
    subst hp
    rintro ⟨hstate, _⟩
    rw [hrun] at hstate
    cases hstate
  · cases h
    rintro ⟨hstate, hchan⟩
    simp only [Sys.setProc, update_self, Proc.wakeup] at hstate hchan
    split_ifs at hstate hchan with hsleep
    exact hsleep ⟨hstate, hchan⟩

/-- What the steps do as far as waiting is concerned, with what they deposit or take. -/
inductive WaitEffect (s : Sys) (a : Act) : List (DepositEvent Slot (ℤ × ℤ)) → Sys → Prop where
  | still (s' : Sys) : Calm s s' → s'.pc = s.pc → WaitEffect s a [] s'
  /-- A process sleeps elsewhere in the kernel. -/
  | doze (p : Slot) (n : ℕ) (r : Option Ret) : (s.proc p).state = .running → s.pc p = .user r →
      WaitEffect s a [] (s.setProc p { s.proc p with chan := some (.other n), state := .sleeping })
  /-- A process moves outside of the critical sections of `kexit` and `kwait`, or into one. -/
  | walk (p : Slot) (pc' : Pc) (s' : Sys) : (s.proc p).state = .running → Calm s s' →
      s'.pc = update s.pc p pc' → (s.pc p).plain = true → (∀ s, Awaits s p pc') →
      (∀ r, pc' ≠ .user (some (.wait r))) →
      (∀ status, pc'.exiting = some status →
        (s.pc p).exiting = some status ∨ a = .call p (.exit status)) → WaitEffect s a [] s'
  | adopt (p np : Slot) (pid : ℤ) : (s.proc p).state = .running → s.pc p = .forkParent np pid →
      s.waitLock = none → WaitEffect s a []
        ((s.setProc np { s.proc np with parent := some p }).goto p (.forkReady np pid))
  | skipChild (p : Slot) (status : ℤ) (k : ℕ) : (s.proc p).state = .running →
      s.pc p = .reparent status k → WaitEffect s a [] (s.goto p (.reparent status (k + 1)))
  | entrust (p : Slot) (status : ℤ) (i : Slot) : (s.proc p).state = .running →
      s.pc p = .reparent status i → s.parent i = some p → WaitEffect s a []
        ((s.setProc i { s.proc i with parent := some s.initproc }).goto p
          (.reparentWakeup status i 0))
  | wakeInit (p : Slot) (status : ℤ) (k j : ℕ) (s' : Sys) : (s.proc p).state = .running →
      s.pc p = .reparentWakeup status k j → Calm s s' →
      s'.pc = update s.pc p (.reparentWakeup status k (j + 1)) →
      (s.initproc.val = j → ¬ s'.Asleep s.initproc) → WaitEffect s a [] s'
  | wokeInit (p : Slot) (status : ℤ) (k j : ℕ) : (s.proc p).state = .running →
      s.pc p = .reparentWakeup status k j → NPROC ≤ j →
      WaitEffect s a [] (s.goto p (.reparent status (k + 1)))
  | callParent (p : Slot) (status : ℤ) (k : ℕ) : (s.proc p).state = .running →
      s.pc p = .reparent status k →
      WaitEffect s a [] (s.goto p (.exitWakeup status ((s.parent p).map .proc) 0))
  | wakeParent (p : Slot) (status : ℤ) (chan : Option Chan) (j : ℕ) (s' : Sys) :
      (s.proc p).state = .running → s.pc p = .exitWakeup status chan j → Calm s s' →
      s'.pc = update s.pc p (.exitWakeup status chan (j + 1)) →
      (∀ q : Slot, q.val = j → chan = some (.proc q) → ¬ s'.Asleep q) → WaitEffect s a [] s'
  | wokeParent (p : Slot) (status : ℤ) (chan : Option Chan) (j : ℕ) :
      (s.proc p).state = .running → s.pc p = .exitWakeup status chan j → NPROC ≤ j →
      WaitEffect s a [] (s.goto p (.exitZombie status))
  | die (p : Slot) (status : ℤ) : (s.proc p).state = .running → s.pc p = .exitZombie status →
      WaitEffect s a [.put p ((s.proc p).pid, status)]
        (((s.setProc p { s.proc p with xstate := status, state := .zombie }).setWait none).goto p
          (.user none))
  | pass (p : Slot) (addr : UInt64) (i : Slot) (havekids havekids' : Bool) :
      (s.proc p).state = .running → s.pc p = .waitScan addr i havekids →
      (s.parent i = some p → (s.proc i).state ≠ .zombie ∧ havekids' = true) →
      (havekids = true → havekids' = true) →
      WaitEffect s a [] (s.goto p (.waitScan addr (i + 1) havekids'))
  | reap (p : Slot) (addr : UInt64) (i : Slot) (havekids ok : Bool) : a = .run p ok →
      (s.proc p).state = .running → s.pc p = .waitScan addr i havekids → s.parent i = some p →
      (s.proc i).state = .zombie →
      WaitEffect s a [.take i ((s.proc i).pid, (s.proc i).xstate)]
        (((s.setProc i (s.proc i).freeproc).setWait none).goto p
          (.user (some (.wait (s.proc i).pid))))
  | scanned (p : Slot) (addr : UInt64) (k : ℕ) : (s.proc p).state = .running →
      s.pc p = .waitScan addr k true → NPROC ≤ k →
      WaitEffect s a [] (s.goto p (.waitKilled addr))
  | alive (p : Slot) (addr : UInt64) : (s.proc p).state = .running →
      s.pc p = .waitKilled addr → WaitEffect s a [] (s.goto p (.waitSleep addr))
  | sleep (p : Slot) (addr : UInt64) : (s.proc p).state = .running → s.pc p = .waitSleep addr →
      WaitEffect s a []
        (((s.setProc p { s.proc p with chan := some (.proc p), state := .sleeping }).setWait
          none).goto p (.waitWait addr))
  /-- `kwait` returns `-1`. -/
  | fail (p : Slot) (addr : UInt64) : (s.proc p).state = .running →
      ((∃ k, s.pc p = .waitScan addr k false ∧ NPROC ≤ k)
        ∨ s.pc p = .waitKilled addr ∧ (s.proc p).killed = true
        ∨ a = .run p false ∧ addr ≠ 0 ∧ ∃ (i : Slot) (havekids : Bool),
            s.pc p = .waitScan addr i havekids ∧ s.parent i = some p
              ∧ (s.proc i).state = .zombie) →
      WaitEffect s a [] ((s.setWait none).goto p (.user (some (.wait (-1)))))

namespace WaitEffect

variable {s s' : Sys} {a : Act} {p np : Slot} {pc pc' : Pc}

/-- A process moves outside of `kexit` and `kwait`. -/
theorem move (hrun : (s.proc p).state = .running) (hpc : s.pc p = pc)
    (hcalm : Calm s s') (hs' : s'.pc = update s.pc p pc') (hplain : pc.plain = true)
    (haloof : pc'.aloof = true) :
  WaitEffect s a [] s'
  := by
  subst hpc
  refine walk p pc' s' hrun hcalm hs' hplain ?_ ?_ ?_
  · intro s
    cases pc' <;> trivial
  · rintro r rfl
    cases haloof
  · intro status hexit
    cases pc' <;> simp_all [Pc.aloof, Pc.exiting]

/-- The table stays as it is. -/
theorem goto (hrun : (s.proc p).state = .running) (hpc : s.pc p = pc)
    (hproc : s'.proc = s.proc) (hroot : s'.initproc = s.initproc)
    (hs' : s'.pc = update s.pc p pc') (hplain : pc.plain = true) (haloof : pc'.aloof = true) :
  WaitEffect s a [] s' :=
  move hrun hpc (Calm.of_proc hproc hroot) hs' hplain haloof

/-- A slot that is no zombie is set up or given up. -/
theorem embryo {pr : Proc} (hrun : (s.proc p).state = .running) (hpc : s.pc p = pc)
    (hproc : s'.proc = update s.proc np pr) (hroot : s'.initproc = s.initproc)
    (hs' : s'.pc = update s.pc p pc') (hstate : (s.proc np).state ≠ .zombie)
    (hstate' : pr.state ≠ .zombie ∧ pr.state ≠ .sleeping)
    (hparent : ∀ q, pr.parent = some q → (s.proc np).parent = some q) (hplain : pc.plain = true)
    (haloof : pc'.aloof = true) :
  WaitEffect s a [] s' :=
  move hrun hpc (Calm.of_setState hproc hroot hstate hstate' hparent) hs' hplain haloof

/-- The next step of `allocproc` or `kfork`, or giving up the slot. -/
theorem orAbandon (ok : Bool) (hrun : (s.proc p).state = .running) (hpc : s.pc p = pc)
    (hstate : (s.proc np).state ≠ .zombie) (hplain : pc.plain = true)
    (haloof : pc'.aloof = true) :
  WaitEffect s a [] (if ok then s.goto p pc' else s.abandon p np)
  := by
  cases ok with
  | true => exact goto hrun hpc rfl rfl rfl hplain haloof
  | false => exact embryo hrun hpc rfl rfl rfl hstate (by simp [Proc.freeproc]) (by rintro _ ⟨⟩) hplain rfl

end WaitEffect

theorem waitAt_waitEffect {s s' : Sys} {p i : Slot} {addr : UInt64} {havekids ok : Bool}
    (hrun : (s.proc p).state = .running) (hpc : s.pc p = .waitScan addr i havekids)
    (h : s.waitAt p i addr havekids ok = some s') :
  WaitEffect s (.run p ok) (s.depositsAt p ok (.waitScan addr i havekids)) s'
  := by
  have hev : s.depositsAt p ok (.waitScan addr i havekids)
      = if s.parent i = some p ∧ (s.proc i).state = .zombie ∧ ¬ (addr ≠ 0 ∧ ok = false) then
          [.take i ((s.proc i).pid, (s.proc i).xstate)] else [] := dif_pos i.isLt
  rw [hev]
  unfold Sys.waitAt at h
  by_cases hparent : (s.proc i).parent = some p
  · rw [if_pos hparent] at h
    split_ifs at h with _ hzombie hcopy
    · cases h
      rw [if_neg fun hn => hn.2.2 hcopy]
      apply WaitEffect.fail p addr hrun
      right
      right
      rw [hcopy.2]
      exact ⟨rfl, hcopy.1, i, havekids, hpc, hparent, hzombie⟩
    · cases h
      rw [if_pos ⟨hparent, hzombie, hcopy⟩]
      exact WaitEffect.reap p addr i havekids ok rfl hrun hpc hparent hzombie
    · cases h
      rw [if_neg fun hn => hzombie hn.2.1]
      exact WaitEffect.pass p addr i havekids true hrun hpc (fun _ => ⟨hzombie, rfl⟩) (fun _ => rfl)
  · rw [if_neg hparent] at h
    cases h
    rw [if_neg fun hn => hparent hn.1]
    exact WaitEffect.pass p addr i havekids havekids hrun hpc (fun hn => absurd hn hparent) id

/-- Entering a system call. -/
theorem enter_waitEffect {s : Sys} {p : Slot} {r : Option Ret}
    (hrun : (s.proc p).state = .running) (hpc : s.pc p = .user r) (c : Syscall) :
  WaitEffect s (.call p c) [] (s.enter p c)
  := by
  cases c with
  | exit status =>
    simp only [Sys.enter]
    split_ifs
    · exact WaitEffect.still _ (Calm.of_proc rfl rfl) rfl
    · refine WaitEffect.walk p (.exitWait status) _ hrun (Calm.of_proc rfl rfl) rfl (by rw [hpc]; rfl)
        (fun _ => trivial) (by simp) ?_
      rintro _ ⟨⟩
      exact Or.inr rfl
  | getprocs maxCount pi =>
    simp only [Sys.enter]
    split_ifs
    all_goals exact WaitEffect.goto hrun hpc rfl rfl rfl rfl rfl
  | _ => exact WaitEffect.goto hrun hpc rfl rfl rfl rfl rfl

/-- The next step of a running thread. -/
theorem advance_waitEffect {s s' : Sys} {p : Slot} {ok : Bool} (hI : Inv s.view s.pc)
    (hrun : (s.proc p).state = .running) (h : s.advance p ok (s.pc p) = some s') :
  WaitEffect s (.run p ok) (s.depositsAt p ok (s.pc p)) s'
  := by
  have hnp : ∀ np, (s.pc p).builds = some np → (s.proc np).state ≠ .zombie := by
    intro np hb hz
    have hdead : s.view.lineage.kind np = .dead := ProcState.kind_eq_dead.mpr hz
    rcases hI.kind_of_builds hb with hkind | ⟨hkind, _⟩
    · cases hkind.symm.trans hdead
    · cases hkind.symm.trans hdead
  cases hpc : s.pc p with simp only [hpc, Sys.advance] at h
  | user r => cases h
  | allocScan k | getprocsScan maxCount k pi copied | getprocsCopyout maxCount k pi copied =>
    split_ifs at h
    all_goals
      cases h
      exact WaitEffect.goto hrun hpc rfl rfl rfl rfl rfl
  | allocPid np =>
    cases h
    refine WaitEffect.embryo hrun hpc rfl rfl rfl (hnp np ?_) (by simp) (fun _ => id) rfl rfl
    rw [hpc]
    rfl
  | allocTrapframe np | allocPagetable np | forkCopy np =>
    cases h
    refine WaitEffect.orAbandon ok hrun hpc (hnp np ?_) rfl rfl
    rw [hpc]
    rfl
  | forkDup np =>
    cases h
    exact WaitEffect.move hrun hpc
      (Calm.of_setProc rfl rfl rfl (fun hs => ⟨hs, rfl⟩) (fun _ => id)) rfl rfl rfl
  | forkParent np pid =>
    split_ifs at h with hw
    cases h
    exact WaitEffect.adopt p np pid hrun hpc hw
  | forkReady np pid =>
    split_ifs at h
    cases h
    refine WaitEffect.embryo hrun hpc rfl rfl rfl (hnp np ?_) (by simp) (fun _ => id) rfl rfl
    rw [hpc]
    rfl
  | exitWait status =>
    split_ifs at h
    cases h
    refine WaitEffect.walk p (.reparent status 0) _ hrun (Calm.of_proc rfl rfl) rfl (by rw [hpc]; rfl)
      (fun _ => trivial) (by simp) ?_
    rw [hpc]
    exact fun _ => Or.inl
  | reparent status k =>
    split_ifs at h with hk hparent
    · cases h
      exact WaitEffect.entrust p status ⟨k, hk⟩ hrun hpc hparent
    · cases h
      exact WaitEffect.skipChild p status k hrun hpc
    · cases h
      exact WaitEffect.callParent p status k hrun hpc
  | reparentWakeup status k j =>
    split_ifs at h with hj
    · obtain ⟨s₁, h₁, rfl⟩ := Option.map_eq_some_iff.mp h
      obtain ⟨hcalm, hpc₁⟩ := Calm.of_wakeupAt h₁
      refine WaitEffect.wakeInit p status k j _ hrun hpc
        { hcalm with } ?_ ?_
      · rw [Sys.goto_pc, hpc₁]
      · intro hinit
        have hslot : s.initproc = ⟨j, hj⟩ := Fin.ext hinit
        have hwoken := Sys.wakeupAt_wakes hrun h₁ hslot
        exact hwoken
    · cases h
      exact WaitEffect.wokeInit p status k j hrun hpc (by omega)
  | exitWakeup status chan j =>
    split_ifs at h with hj
    · obtain ⟨s₁, h₁, rfl⟩ := Option.map_eq_some_iff.mp h
      obtain ⟨hcalm, hpc₁⟩ := Calm.of_wakeupAt h₁
      refine WaitEffect.wakeParent p status chan j _ hrun hpc
        { hcalm with } ?_ ?_
      · rw [Sys.goto_pc, hpc₁]
      · intro q hq hchan
        rw [hchan] at h₁
        have hslot : q = ⟨j, hj⟩ := Fin.ext hq
        have hwoken := Sys.wakeupAt_wakes hrun h₁ hslot
        exact hwoken
    · cases h
      exact WaitEffect.wokeParent p status chan j hrun hpc (by omega)
  | exitZombie status =>
    split_ifs at h
    cases h
    exact WaitEffect.die p status hrun hpc
  | waitWait addr =>
    split_ifs at h
    cases h
    refine WaitEffect.walk p (.waitScan addr 0 false) _ hrun (Calm.of_proc rfl rfl) rfl
      (by rw [hpc]; rfl) ?_ (by simp) (by rintro _ ⟨⟩)
    rintro s i ⟨⟩
  | waitScan addr k havekids =>
    split_ifs at h with hk hkids
    · exact waitAt_waitEffect hrun (i := ⟨k, hk⟩) hpc h
    · cases h
      rw [Sys.depositsAt, dif_neg hk]
      apply WaitEffect.fail p addr hrun
      left
      refine ⟨k, ?_, by omega⟩
      rw [hpc, hkids]
    · cases h
      rw [Sys.depositsAt, dif_neg hk]
      refine WaitEffect.scanned p addr k hrun ?_ (by omega)
      rw [hpc, Bool.eq_true_of_not_eq_false hkids]
  | waitKilled addr =>
    split_ifs at h with _ hkilled
    · cases h
      exact WaitEffect.fail p addr hrun (Or.inr (Or.inl ⟨hpc, hkilled⟩))
    · cases h
      exact WaitEffect.alive p addr hrun hpc
  | waitSleep addr =>
    split_ifs at h
    cases h
    exact WaitEffect.sleep p addr hrun hpc
  | killScan pid k =>
    split_ifs at h
    · cases h
      exact WaitEffect.move hrun hpc (Calm.of_kill rfl rfl) rfl rfl rfl
    all_goals
      cases h
      exact WaitEffect.goto hrun hpc rfl rfl rfl rfl rfl
  | getprocsWait maxCount pi =>
    split_ifs at h
    cases h
    exact WaitEffect.goto hrun hpc rfl rfl rfl rfl rfl

/-- Every step has one of these effects. -/
theorem step_waitEffect {s s' : Sys} {a : Act} (hI : Inv s.view s.pc) (h : s.step a = some s') :
  WaitEffect s a (s.deposits a) s'
  := by
  unfold Sys.step at h
  split_ifs at h
  cases a with simp only at h
  | dispatch p | yield p =>
    split_ifs at h with hp
    cases h
    refine WaitEffect.still _ (Calm.of_setState rfl rfl ?_ (by simp) (fun _ => id)) rfl
    rw [hp.1]
    rintro ⟨⟩
  | call p c =>
    split_ifs at h with hrun
    cases hpc : s.pc p with
    | user r =>
      rw [hpc] at h
      cases h
      exact enter_waitEffect hrun hpc c
    | _ =>
      rw [hpc] at h
      cases h
  | run p ok =>
    split_ifs at h with hrun
    exact advance_waitEffect hI hrun h
  | sleepOn p n =>
    split_ifs at h with hp
    cases hpc : s.pc p with
    | user r =>
      rw [hpc] at h
      cases h
      exact WaitEffect.doze p n r hp.1 hpc
    | _ =>
      rw [hpc] at h
      cases h
  | wakeOn p n q =>
    split_ifs at h
    cases hpc : s.pc p with
    | user r =>
      rw [hpc] at h
      obtain ⟨hcalm, hs'⟩ := Calm.of_wakeupAt h
      exact WaitEffect.still s' hcalm hs'
    | _ =>
      rw [hpc] at h
      cases h
  | rename p name =>
    split_ifs at h
    cases hpc : s.pc p with
    | user r =>
      rw [hpc] at h
      cases h
      exact WaitEffect.still _
        (Calm.of_setProc rfl rfl rfl (fun hs => ⟨hs, rfl⟩) (fun _ => id)) rfl
    | _ =>
      rw [hpc] at h
      cases h

end Xv6
