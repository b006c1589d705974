import Xv6.Pipe.Effect

/-!
# Pipes are byte streams

The bytes that were read from a pipe are the first ones that were written to it, in the order
in which `pi->lock` was held, however often the counters wrap around, and the bytes of every
call of `pipewrite` are the first ones of its buffer.  A process with `pi->lock` knows
something of the pipe from the tests it has made, since nobody else changes the pipe.
-/

namespace Xv6

open RingBuffer Function

/-! ### The lock -/

/-- The process that holds `pi->lock` is the one inside. -/
theorem ThreadEffect.mutex {s s' : PipeSys} {p : Slot} (he : ThreadEffect s p s')
    (h : Guards s.lock PipePc.holds s.pc) :
  Guards s'.lock PipePc.holds s'.pc
  := by
  cases he with
  | call buf n r hpc _ | read n r hpc _ | close writable r hpc _ | store w hpc _ | take r hpc _ =>
    exact h.keep (by rw [hpc]; simp [PipePc.holds])
  | enter pc hlock hpc =>
    rw [hlock] at h
    apply h.acquire
    generalize s.pc p = pc₀ at hpc
    cases hpc <;> trivial
  | shut writable hlock hpc =>
    rw [hlock] at h
    have hsame : (s.shut writable).pc = s.pc := by
      unfold PipeSys.shut
      split_ifs <;> rfl
    simp only [PipeSys.goto, PipeSys.setLock, hsame]
    exact h.acquire trivial
  | move pc hpc | wake j chan pc hpc _ _ | skip chan pc hpc | sleep chan pc hpc =>
    apply h.keep
    generalize s.pc p = pc₀ at hpc
    cases hpc <;> simp [PipePc.holds]
  | leave ret hpc =>
    apply h.release (p := p)
    · generalize s.pc p = pc₀ at hpc
      cases hpc <;> trivial
    · exact id
  | fall pc hpc =>
    generalize hpc₀ : s.pc p = pc₀ at hpc
    apply h.release (p := p)
    · rw [hpc₀]
      cases hpc <;> trivial
    · cases hpc <;> exact id

/-! ### What the holder knows -/

/-- What a process knows of the pipe at the place where it stands. -/
def PipePc.Knows (ring : RingBuffer UInt8) (readopen writeopen : Bool) : PipePc → Prop
  | .writeKilled _ | .writeStore _ => readopen = true
  | .writeFull .. | .writeSleep _ => ring.Full PIPESIZE (2 ^ 32) ∧ readopen = true
  | .readKilled _ | .readSleep _ => ring.Empty ∧ writeopen = true
  | .readCopy r => r.i = 0 → ¬ (ring.Empty ∧ writeopen = true)
  | .readWakeup n ret _ => ret = 0 → 0 < n → ring.Empty ∧ writeopen = false
  | _ => True

/-- What the processes know. -/
def PipeSys.Known (s : PipeSys) : Prop := ∀ p, (s.pc p).Knows s.ring s.readopen s.writeopen

section Known

variable {s s' : PipeSys} {p : Slot} {pc : PipePc}

theorem PipePc.knows_of_not_holds {ring : RingBuffer UInt8} {readopen writeopen : Bool}
    (h : ¬ pc.holds) :
  pc.Knows ring readopen writeopen
  := by
  cases pc <;> first | exact True.intro | exact absurd True.intro h

/-- A process moves, and the pipe is the same. -/
theorem PipeSys.Known.goto (h : s.Known) (hp : pc.Knows s.ring s.readopen s.writeopen) :
  (s.goto p pc).Known
  := by
  apply (Function.forall_update_iff s.pc (p := fun _ k => k.Knows s.ring s.readopen s.writeopen)).mpr
  exact ⟨hp, fun q _ => h q⟩

/-- The process with the lock changes the pipe; nobody else knew anything. -/
theorem PipeSys.known_of_holder (hp : (s'.pc p).Knows s'.ring s'.readopen s'.writeopen)
    (hother : ∀ q, q ≠ p → ¬ (s'.pc q).holds) :
  s'.Known
  := by
  intro q
  by_cases hq : q = p
  · subst hq
    exact hp
  · exact PipePc.knows_of_not_holds (hother q hq)

theorem PipeMoves.knows (h : PipeMoves s p (s.pc p) pc) (hk : s.Known) :
  pc.Knows s.ring s.readopen s.writeopen
  := by
  have hp := hk p
  generalize s.pc p = pc₀ at h hp
  cases h with
  | check w _ hopen => exact hopen
  | finish w => trivial
  | alive w _ => exact hp
  | full w hfull => exact ⟨hfull, hp⟩
  | fault w => trivial
  | drowsy w j _ => exact hp
  | wait n hempty hopen => exact ⟨hempty, hopen⟩
  | start n hnot => exact fun _ => hnot
  | unkilled n => exact hp
  | drained r _ hempty =>
    intro hzero _
    have hnot := hp (by exact_mod_cast hzero)
    refine ⟨hempty, ?_⟩
    cases hw : s.writeopen with
    | false => rfl
    | true => exact absurd ⟨hempty, hw⟩ hnot
  | refused r ret hne => exact fun hzero _ => absurd hzero hne
  | enough r hn =>
    intro hzero hpos
    rw [hzero] at hn
    contradiction

theorem PipeWakes.knows {chan : PipeChan} {j : ℕ} (h : PipeWakes chan j (s.pc p) pc) (hk : s.Known) :
  pc.Knows s.ring s.readopen s.writeopen
  := by
  have hp := hk p
  generalize s.pc p = pc₀ at h hp
  cases h <;> exact hp

theorem ThreadEffect.known (he : ThreadEffect s p s') (hmutex : Guards s.lock PipePc.holds s.pc)
    (h : s.Known) :
  s'.Known
  := by
  have hmutex' := he.mutex hmutex
  -- the process that stands inside after the step is the only one inside
  have hothers : ∀ p, (s'.pc p).holds → ∀ q, q ≠ p → ¬ (s'.pc q).holds := by
    intro p hp q hq hq'
    exact hq (hmutex'.eq hq' hp)
  cases he with
  | call buf n r _ _ | leave ret _ => exact h.goto (p := p) trivial
  | read n r _ _ => exact h.goto trivial
  | close writable r _ _ => exact h.goto trivial
  | enter pc _ hpc | fall pc hpc | sleep chan pc hpc =>
    apply h.goto (p := p)
    generalize s.pc p = pc₀ at hpc
    cases hpc <;> trivial
  | shut writable _ _ =>
    have hself : ((((s.shut writable).setLock (some p)).goto p (.closeWakeup writable 0)).pc p)
        = .closeWakeup writable 0 := PipeSys.goto_self _ _ _
    apply PipeSys.known_of_holder (p := p)
    · rw [hself]
      trivial
    · apply hothers
      rw [hself]
      trivial
  | move pc hpc | skip chan pc hpc => exact h.goto (hpc.knows h)
  | store w hpc hfull =>
    have hself : ((s.push p w).goto p (.writeTest { w with i := w.i + 1, dirty := true })).pc p
        = .writeTest { w with i := w.i + 1, dirty := true } := PipeSys.goto_self _ _ _
    apply PipeSys.known_of_holder (p := p)
    · rw [hself]
      trivial
    · apply hothers
      rw [hself]
      trivial
  | take r hpc hempty =>
    have hself : (s.pop.goto p (.readCopy { r with i := r.i + 1 })).pc p
        = .readCopy { r with i := r.i + 1 } := PipeSys.goto_self _ _ _
    apply PipeSys.known_of_holder (p := p)
    · rw [hself]
      exact fun hzero => absurd hzero (Nat.succ_ne_zero _)
    · apply hothers
      rw [hself]
      trivial
  | wake j chan pc hpc _ _ => exact h.goto (p := p) (hpc.knows h)

end Known

/-! ### The bytes of a call -/

/-- The bytes stored by a call of `pipewrite`. -/
def PipeSys.bytes (s : PipeSys) (p : Slot) (c : ℕ) : List UInt8 :=
  (s.stored.filter (fun e => e.writer = p ∧ e.call = c)).map Stored.byte

/-- The streams of bytes that go through a pipe. -/
structure Streaming (s : PipeSys) : Prop where
  streams : s.ring.Streams PIPESIZE (2 ^ 32) (s.stored.map Stored.byte) s.delivered
  fresh : ∀ e ∈ s.stored, e.call < s.calls e.writer
  order : ∀ p c, ∃ m, s.bytes p c = (List.range m).map (s.buffer p c)
  current : ∀ p w, (s.pc p).writing = some w →
    w.call + 1 = s.calls p ∧ s.bytes p w.call = (List.range w.i).map (s.buffer p w.call)

section Streaming

variable {s s' : PipeSys} {p : Slot} {pc : PipePc}

/-- The process is at most in the call of `pipewrite` in which it was, as far as it was. -/
def SameCall (pc pc' : PipePc) : Prop :=
  pc'.writing = none
    ∨ pc'.writing.map (fun w => (w.call, w.i)) = pc.writing.map (fun w => (w.call, w.i))

theorem PipeMoves.sameCall (h : PipeMoves s p (s.pc p) pc) : SameCall (s.pc p) pc := by
  generalize s.pc p = pc₀ at h
  cases h <;> first | exact Or.inl rfl | exact Or.inr rfl

variable {pc₀ : PipePc} {chan : PipeChan} {w : WriteCall}

theorem PipeWakes.sameCall {j : ℕ} (h : PipeWakes chan j pc₀ pc) : SameCall pc₀ pc := by
  cases h <;> first | exact Or.inl rfl | exact Or.inr rfl

theorem PipeEnters.sameCall (h : PipeEnters pc₀ pc) : SameCall pc₀ pc := by
  cases h <;> first | exact Or.inl rfl | exact Or.inr rfl

theorem PipeFalls.sameCall (h : PipeFalls pc₀ pc) : SameCall pc₀ pc := by
  cases h <;> first | exact Or.inl rfl | exact Or.inr rfl

theorem PipeSleeps.sameCall (h : PipeSleeps chan pc₀ pc) : SameCall pc₀ pc := by
  cases h <;> first | exact Or.inl rfl | exact Or.inr rfl

theorem SameCall.exists (h : SameCall pc₀ pc) (hw : pc.writing = some w) :
  ∃ w₀, pc₀.writing = some w₀ ∧ w.call = w₀.call ∧ w.i = w₀.i
  := by
  rcases h with hnone | hsame
  · rw [hnone] at hw
    cases hw
  · rw [hw, Option.map_some] at hsame
    obtain ⟨w₀, hw₀, hkey⟩ := Option.map_eq_some_iff.mp hsame.symm
    obtain ⟨hcall, hi⟩ := Prod.mk.inj hkey
    exact ⟨w₀, hw₀, hcall.symm, hi.symm⟩

/-- A process moves on in its call, and no byte is moved. -/
theorem Streaming.goto (h : Streaming s) (hsame : SameCall (s.pc p) pc) : Streaming (s.goto p pc) := by
  refine ⟨h.streams, h.fresh, h.order, ?_⟩
  intro q w hw
  by_cases hq : q = p
  · subst hq
    rw [PipeSys.goto_self] at hw
    obtain ⟨w₀, hw₀, hcall, hi⟩ := hsame.exists hw
    rw [hcall, hi]
    exact h.current q w₀ hw₀
  · rw [s.goto_of_ne hq] at hw
    exact h.current q w hw

/-- What happens to the locks, the ends and the other processes does not matter. -/
theorem Streaming.congr (h : Streaming s) (s' : PipeSys) (hring : s'.ring = s.ring)
    (hstored : s'.stored = s.stored) (hdelivered : s'.delivered = s.delivered)
    (hbuffer : s'.buffer = s.buffer) (hcalls : s'.calls = s.calls) (hpc : s'.pc = s.pc) :
  Streaming s'
  := by
  have hbytes : s'.bytes = s.bytes := by
    funext p c
    unfold PipeSys.bytes
    rw [hstored]
  refine ⟨?_, ?_, ?_, ?_⟩
  · rw [hring, hstored, hdelivered]
    exact h.streams
  · rw [hstored, hcalls]
    exact h.fresh
  · rw [hbytes, hbuffer]
    exact h.order
  · rw [hpc, hcalls, hbytes, hbuffer]
    exact h.current

theorem Streaming.bytes_of_le (h : Streaming s) {c : ℕ} (hc : s.calls p ≤ c) : s.bytes p c = [] := by
  unfold PipeSys.bytes
  rw [List.filter_eq_nil_iff.mpr, List.map_nil]
  intro e he hmatch
  obtain ⟨rfl, rfl⟩ := of_decide_eq_true hmatch
  exact absurd (h.fresh e he) (Nat.not_lt_of_le hc)

/-- A new call of `pipewrite`. -/
theorem Streaming.call (h : Streaming s) (buf : ℕ → UInt8) (n : ℤ) :
  Streaming ({ s with
    buffer := update s.buffer p (update (s.buffer p) (s.calls p) buf)
    calls := update s.calls p (s.calls p + 1) }.goto p
      (.writeEnter { call := s.calls p, n, i := 0, dirty := false }))
  := by
  have hnil := h.bytes_of_le (p := p) (Nat.le_refl _)
  -- the buffers of the calls that have stored something are the same
  have hbuffer : ∀ q c, s.bytes q c = [] ∨
      update s.buffer p (update (s.buffer p) (s.calls p) buf) q c = s.buffer q c := by
    intro q c
    by_cases hq : q = p
    · subst hq
      by_cases hc : c = s.calls q
      · subst hc
        exact Or.inl hnil
      · right
        rw [update_self, update_of_ne hc]
    · right
      rw [update_of_ne hq]
  refine ⟨h.streams, ?_, ?_, ?_⟩
  · intro e he
    have hlt := h.fresh e he
    simp only [PipeSys.goto]
    by_cases hp : e.writer = p
    · rw [hp, update_self]
      rw [hp] at hlt
      exact Nat.lt_succ_of_lt hlt
    · rw [update_of_ne hp]
      exact hlt
  · intro q c
    rcases hbuffer q c with hempty | hsame
    · exact ⟨0, hempty⟩
    · obtain ⟨m, hm⟩ := h.order q c
      refine ⟨m, ?_⟩
      simp only [PipeSys.goto, hsame]
      exact hm
  · intro q w hw
    by_cases hq : q = p
    · subst hq
      simp only [PipeSys.goto, update_self] at hw
      cases hw
      refine ⟨?_, hnil⟩
      simp only [PipeSys.goto, update_self]
    · simp only [PipeSys.goto, update_of_ne hq] at hw ⊢
      exact h.current q w hw

theorem PipeSys.bytes_push (w : WriteCall) (q : Slot) (c : ℕ) :
  (s.push p w).bytes q c = if q = p ∧ c = w.call then s.bytes q c ++ [s.buffer p w.call w.i]
    else s.bytes q c
  := by
  unfold bytes push
  rw [List.filter_append, List.map_append]
  split_ifs with hmatch
  · obtain ⟨rfl, rfl⟩ := hmatch
    simp
  · have hnot : ¬ (p = q ∧ w.call = c) := fun heq => hmatch ⟨heq.1.symm, heq.2.symm⟩
    simp [hnot]

/-- A byte is stored. -/
theorem Streaming.store (h : Streaming s) (hpc : s.pc p = .writeStore w)
    (hfull : ¬ s.ring.Full PIPESIZE (2 ^ 32)) :
  Streaming ((s.push p w).goto p (.writeTest { w with i := w.i + 1, dirty := true }))
  := by
  obtain ⟨hcall, hbytes⟩ := h.current p w (by rw [hpc]; rfl)
  have hnext : (s.push p w).bytes p w.call = (List.range (w.i + 1)).map (s.buffer p w.call) := by
    rw [PipeSys.bytes_push, if_pos ⟨rfl, rfl⟩, hbytes, List.range_succ, List.map_append]
    rfl
  refine ⟨?_, ?_, ?_, ?_⟩
  · have hpush := h.streams.push (by decide) (by decide) hfull (s.buffer p w.call w.i)
    simpa [PipeSys.goto, PipeSys.push] using hpush
  · intro e he
    rcases List.mem_append.mp he with he | he
    · exact h.fresh e he
    · obtain rfl := List.mem_singleton.mp he
      exact Nat.lt_of_succ_le (Nat.le_of_eq hcall)
  · intro q c
    by_cases hmatch : q = p ∧ c = w.call
    · obtain ⟨rfl, rfl⟩ := hmatch
      exact ⟨w.i + 1, hnext⟩
    · obtain ⟨m, hm⟩ := h.order q c
      refine ⟨m, ?_⟩
      have hpush := s.bytes_push (p := p) w q c
      rw [if_neg hmatch] at hpush
      exact hpush.trans hm
  · intro q w' hw'
    by_cases hq : q = p
    · subst hq
      rw [PipeSys.goto_self] at hw'
      cases hw'
      exact ⟨hcall, hnext⟩
    · rw [PipeSys.goto_of_ne _ hq] at hw'
      obtain ⟨hcall', hbytes'⟩ := h.current q w' hw'
      refine ⟨hcall', ?_⟩
      have hpush := s.bytes_push (p := p) w q w'.call
      rw [if_neg (fun heq => hq heq.1)] at hpush
      exact hpush.trans hbytes'

/-- A byte is taken out. -/
theorem Streaming.take (h : Streaming s) {r : ReadCall} (hempty : ¬ s.ring.Empty) :
  Streaming (s.pop.goto p (.readCopy r))
  := by
  have hpop : Streaming s.pop :=
    ⟨h.streams.pop (by decide) (by decide) hempty, h.fresh, h.order, h.current⟩
  exact hpop.goto (Or.inl rfl)

theorem ThreadEffect.streaming (he : ThreadEffect s p s') (h : Streaming s) : Streaming s' := by
  cases he with
  | call buf n r _ _ => exact h.call buf n
  | read n r _ _ | close writable r _ _ => exact h.goto (Or.inl rfl)
  | enter pc _ hpc =>
    exact (h.congr (s.setLock (some p)) rfl rfl rfl rfl rfl rfl).goto hpc.sameCall
  | shut writable _ _ =>
    have hshut : Streaming (s.shut writable) := by
      unfold PipeSys.shut
      split_ifs <;> exact h.congr _ rfl rfl rfl rfl rfl rfl
    exact (hshut.congr ((s.shut writable).setLock (some p)) rfl rfl rfl rfl rfl rfl).goto
      (Or.inl rfl)
  | move pc hpc | skip chan pc hpc => exact h.goto hpc.sameCall
  | store w hpc hfull => exact h.store hpc hfull
  | take r _ hempty => exact h.take hempty
  | wake j chan pc hpc _ _ =>
    exact (h.congr (s.setProc j _) rfl rfl rfl rfl rfl rfl).goto hpc.sameCall
  | leave ret _ =>
    exact (h.congr (s.setLock none) rfl rfl rfl rfl rfl rfl).goto (Or.inl rfl)
  | fall pc hpc =>
    exact (h.congr (s.setLock none) rfl rfl rfl rfl rfl rfl).goto hpc.sameCall
  | sleep chan pc hpc =>
    exact (h.congr (s.setProc p _) rfl rfl rfl rfl rfl rfl).goto hpc.sameCall

end Streaming

/-! ### Runs -/

/-- What holds in every state that is reached. -/
structure PipeInvariant (s : PipeSys) : Prop where
  mutex : Guards s.lock PipePc.holds s.pc
  known : s.Known
  streaming : Streaming s

theorem PipeSys.Fresh.invariant {s : PipeSys} (h : s.Fresh) : PipeInvariant s := by
  obtain ⟨_, hidle, hlock, hnread, hnwrite, _, _, hcalls, hstored, hdelivered⟩ := h
  have hout : ∀ p, ¬ (s.pc p).holds ∧ (s.pc p).writing = none := by
    intro p
    obtain ⟨r, hr⟩ := hidle p
    rw [hr]
    exact ⟨id, rfl⟩
  refine ⟨?_, fun p => PipePc.knows_of_not_holds (hout p).1, ?_⟩
  · intro p
    rw [hlock]
    constructor
    · intro heq
      cases heq
    · intro hp
      exact absurd hp (hout p).1
  · refine ⟨?_, ?_, ?_, ?_⟩
    · rw [hstored, hdelivered]
      exact streams_nil _ _ hnread hnwrite
    · rw [hstored]
      rintro e ⟨⟩
    · intro p c
      refine ⟨0, ?_⟩
      unfold PipeSys.bytes
      rw [hstored]
      rfl
    · intro p w hw
      rw [(hout p).2] at hw
      cases hw

theorem pipe_invariant {s : PipeSys} (hs : pipeSystem.Reachable s) : PipeInvariant s := by
  apply hs.invariant (I := PipeInvariant)
  · intro s h
    exact PipeSys.Fresh.invariant h
  · intro s a s' h hstep
    have he := PipeSys.step_effect hstep
    generalize a.mover = mover at he
    cases he with
    | thread p s' _ he =>
      exact ⟨he.mutex h.mutex, he.known h.mutex h.known, he.streaming h.streaming⟩
    | resched q pr _ =>
      exact ⟨h.mutex, h.known, h.streaming.congr _ rfl rfl rfl rfl rfl rfl⟩

/-- Only the process that takes the step moves. -/
theorem ThreadEffect.pc_of_ne {s s' : PipeSys} {p q : Slot} (he : ThreadEffect s p s') (hq : q ≠ p) :
  s'.pc q = s.pc q
  := by
  cases he with
  | shut writable _ _ =>
    rw [PipeSys.goto_of_ne _ hq]
    unfold PipeSys.setLock PipeSys.shut
    split_ifs <;> rfl
  | _ => exact PipeSys.goto_of_ne _ hq _

/-- A process that comes out of the functions of the pipe has left with the lock. -/
theorem ThreadEffect.leaves {s s' : PipeSys} {p : Slot} (he : ThreadEffect s p s') {ret : ℤ}
    (hret : s'.pc p = .idle (some ret)) :
  PipeLeaves s p (s.pc p) ret
  := by
  cases he with
  | enter pc _ hpc | move pc hpc | wake j chan pc hpc _ _ | skip chan pc hpc | fall pc hpc
  | sleep chan pc hpc =>
    rw [PipeSys.goto_self] at hret
    subst hret
    generalize s.pc p = pc₀ at hpc
    cases hpc
  | leave ret' hpc =>
    have hidle : PipePc.idle (some ret') = .idle (some ret) :=
      (PipeSys.goto_self _ _ _).symm.trans hret
    obtain rfl := Option.some.inj (PipePc.idle.inj hidle)
    exact hpc
  | _ =>
    rw [PipeSys.goto_self] at hret
    cases hret

/-- A call of `piperead` returns `0` at the end of its `wakeup` only. -/
theorem PipeLeaves.read_zero {s : PipeSys} {p : Slot} {pc : PipePc} {ret n : ℤ}
    (h : PipeLeaves s p pc ret) (hread : pc.reading = some n) (hret : ret = 0) :
  ∃ j, pc = .readWakeup n 0 j
  := by
  cases h with
  | closed w _ _ | writeKilled w _ | write w j _ | close writable j _ => cases hread
  | readKilled n' => cases hret
  | read n' ret j _ =>
    cases hread
    rw [hret]
    exact ⟨j, rfl⟩

/-- A pipe is a stream: at most `PIPESIZE` bytes are in it; what was delivered is the
beginning of what was stored; the bytes of a call are the beginning of its buffer; and a call
of `piperead` for some bytes that returns `0` has found the write end closed and every byte
delivered. -/
theorem pipe_stream {s : PipeSys} (hs : pipeSystem.Reachable s) :
  (s.ring.nwrite + 2 ^ 32 - s.ring.nread) % 2 ^ 32 ≤ PIPESIZE
    ∧ s.delivered <+: s.stored.map Stored.byte
    ∧ (∀ p c, ∃ m, s.bytes p c = (List.range m).map (s.buffer p c))
    ∧ ∀ a s' p n, pipeSystem.step s a = some s' → (s.pc p).reading = some n → 0 < n →
        s'.pc p = .idle (some 0) → s.writeopen = false ∧ s.delivered.length = s.stored.length
  := by
  have hinv := pipe_invariant hs
  have hstreams := hinv.streaming.streams
  refine ⟨?_, hstreams.initial, hinv.streaming.order, ?_⟩
  · rw [hstreams.count (by decide)]
    have := hstreams.room
    omega
  · intro a s' p n hstep hread hn hret
    have hmoved : s'.pc p ≠ s.pc p := by
      intro hsame
      rw [← hsame, hret] at hread
      cases hread
    have he := PipeSys.step_effect hstep
    generalize a.mover = mover at he
    obtain ⟨j, hpc⟩ : ∃ j, s.pc p = .readWakeup n 0 j := by
      cases he with
      | thread q s' _ he =>
        by_cases hq : p = q
        · subst hq
          exact (he.leaves hret).read_zero hread rfl
        · exact absurd (he.pc_of_ne hq) hmoved
      | resched q pr _ => exact absurd rfl hmoved
    have hknows := hinv.known p
    rw [hpc] at hknows
    obtain ⟨hempty, hopen⟩ := hknows rfl hn
    have hlength := (hstreams.empty_iff (by decide)).mp hempty
    rw [List.length_map] at hlength
    exact ⟨hopen, hlength⟩

/-- A new pipe, and processes that are running. -/
def newPipe : PipeSys where
  proc := fun _ => { state := .running, chan := none, killed := false }
  pc := fun _ => .idle none
  lock := none
  ring := { data := fun _ => 0, nread := 0, nwrite := 0 }
  readopen := true
  writeopen := true
  buffer := fun _ _ _ => 0
  calls := fun _ => 0
  stored := []
  delivered := []

theorem newPipe_fresh : newPipe.Fresh :=
  ⟨fun _ => ⟨rfl, rfl⟩, fun _ => ⟨none, rfl⟩, rfl, rfl, rfl, rfl, rfl, rfl, rfl, rfl⟩

/-- A process writes two bytes, and another one reads the first of them. -/
def writeThenRead : List PipeAct :=
  [.write 0 (fun k => if k = 0 then 7 else 8) 2] ++ List.replicate 73 (.run 0 true)
    ++ [.read 1 1] ++ List.replicate 4 (.run 1 true)

theorem pipe_stream_one_byte :
  ∃ s, pipeSystem.exec newPipe writeThenRead = some s ∧ s.delivered = [7]
    ∧ s.stored.map Stored.byte = [7, 8] ∧ s.delivered <+: s.stored.map Stored.byte
  := by
  have hrun : (pipeSystem.exec newPipe writeThenRead).map
      (fun s => (s.delivered, s.stored.map Stored.byte)) = some ([7], [7, 8]) := by
    decide +kernel
  obtain ⟨s, hs, hbytes⟩ := Option.map_eq_some_iff.mp hrun
  obtain ⟨hdelivered, hstored⟩ := Prod.mk.inj hbytes
  have hreach : pipeSystem.Reachable s := (TransitionSystem.Reachable.init newPipe_fresh).exec hs
  exact ⟨s, hs, hdelivered, hstored, (pipe_stream hreach).2.1⟩

end Xv6
