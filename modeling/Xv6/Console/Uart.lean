import Xv6.Lib.TransitionSystem
import Xv6.Lib.Update

/-!
# Sending bytes to the UART

`uartwrite` sends the bytes of any number of processes, one for each interrupt by which the UART
says that it is ready for another.  A step is what runs between an acquisition of `tx_lock` and its
release, an access to a register without the lock, or a step of the UART.
-/

namespace Xv6

open Function

/-- `tx_busy`, the UART, and the processes with what is left of their calls of `uartwrite`. -/
structure Uart (ι : Type) where
  busy : Bool
  idle : Bool
  irq : Bool
  /-- The calls of `uartintr` before `acquire`. -/
  handlers : ℕ
  rest : ι → List UInt8
  asleep : ι → Bool
  asked : ι → List UInt8
  sent : ι → List UInt8
  /-- `uartputc_sync` has written a byte. -/
  synced : Bool
  /-- A byte was written before the UART was ready for it. -/
  overrun : Bool

inductive UartAct (ι : Type)
  | call (t : ι) (buf : List UInt8)
  | run (t : ι)
  | kill (t : ι)
  /-- `uartputc_sync` writes, maybe not the first to do so since it has seen the UART ready. -/
  | putc
  | finish
  | input
  | ack
  | handle

namespace Uart

variable {ι : Type} [DecidableEq ι] (s : Uart ι)

/-- `WriteReg(THR, c)`. -/
def writeThr : Uart ι := { s with idle := false, overrun := s.overrun || !s.idle }

/-- The loop of `uartwrite`, until it ends or calls `sleep`. -/
def uartwrite (s : Uart ι) (t : ι) : List UInt8 → Uart ι
  | [] => s
  | c :: l =>
    if s.busy then { s with asleep := update s.asleep t true }
    else uartwrite { s.writeThr with
      busy := true
      rest := update s.rest t l
      sent := update s.sent t (s.sent t ++ [c]) } t l

/-- `uartintr` behind `acquire`. -/
def uartintr : Uart ι :=
  if s.idle then { s with busy := false, asleep := fun _ => false } else s

def step : UartAct ι → Option (Uart ι)
  | .call t buf =>
    if s.rest t = [] then
      some { s with rest := update s.rest t buf, asked := update s.asked t (s.asked t ++ buf) }
    else none
  | .run t => if s.asleep t then none else some (s.uartwrite t (s.rest t))
  | .kill t => some { s with asleep := update s.asleep t false }
  | .putc => some { s.writeThr with synced := true }
  | .finish => if s.idle then none else some { s with idle := true, irq := true }
  | .input => some { s with irq := true }
  | .ack => if s.irq then some { s with irq := false, handlers := s.handlers + 1 } else none
  | .handle =>
    if 0 < s.handlers then some { s.uartintr with handlers := s.handlers - 1 } else none

structure Inv : Prop where
  bytes : ∀ t, s.sent t ++ s.rest t = s.asked t
  asleep : ∀ t, s.asleep t = true → s.busy = true
  owed : s.busy = true → s.idle = false ∨ s.irq = true ∨ 0 < s.handlers
  ready : s.synced = false → s.overrun = false ∧ (s.busy = false → s.idle = true)

/-- Behind `uartinit`. -/
def boot : Uart ι :=
  ⟨false, true, false, 0, fun _ => [], fun _ => false, fun _ => [], fun _ => [], false, false⟩

end Uart

variable {ι : Type} [DecidableEq ι] {s s' : Uart ι} {t : ι} {l : List UInt8} {a : UartAct ι}

variable (ι) in
/-- Processes that write, a UART and its interrupts. -/
def uartSystem : TransitionSystem (Uart ι) (UartAct ι) where
  init s := s = Uart.boot
  step s := s.step

theorem Uart.Inv.uartwrite (h : s.Inv) (hl : s.rest t = l) : (s.uartwrite t l).Inv := by
  induction l generalizing s with
  | nil => exact h
  | cons c l ih =>
    rw [Uart.uartwrite]
    split_ifs with hbusy
    · exact { h with asleep := fun _ _ => hbusy }
    · apply ih _ (update_self ..)
      refine ⟨fun t' => ?_, fun _ _ => rfl, fun _ => .inl rfl, fun hsync => ?_⟩
      · by_cases ht : t' = t
        · subst ht
          simpa [writeThr, hl] using h.bytes t'
        · simpa [writeThr, ht] using h.bytes t'
      · obtain ⟨hover, hidle⟩ := h.ready hsync
        simp [writeThr, hover, hidle (by simpa using hbusy)]

theorem Uart.Inv.step (h : s.Inv) (hstep : s.step a = some s') : s'.Inv := by
  cases a with
  | call t buf =>
    obtain ⟨hrest, ⟨⟩⟩ := Option.ite_none_right_eq_some.mp hstep
    refine { h with bytes := fun t' => ?_ }
    by_cases ht : t' = t
    · subst ht
      simp [← h.bytes t', hrest]
    · simpa [ht] using h.bytes t'
  | run t =>
    obtain ⟨-, ⟨⟩⟩ := Option.ite_none_left_eq_some.mp hstep
    exact h.uartwrite rfl
  | kill t =>
    cases hstep
    refine { h with asleep := fun t' => ?_ }
    simp only
    exact update_cases t' (by simp) (fun _ => h.asleep t')
  | putc =>
    cases hstep
    exact { h with owed := fun _ => .inl rfl, ready := by simp }
  | finish =>
    obtain ⟨-, ⟨⟩⟩ := Option.ite_none_left_eq_some.mp hstep
    exact { h with owed := fun _ => .inr (.inl rfl), ready := fun hs => ⟨(h.ready hs).1, fun _ => rfl⟩ }
  | input =>
    cases hstep
    exact { h with owed := fun _ => .inr (.inl rfl) }
  | ack =>
    obtain ⟨-, ⟨⟩⟩ := Option.ite_none_right_eq_some.mp hstep
    exact { h with owed := fun _ => .inr (.inr (Nat.succ_pos _)) }
  | handle =>
    obtain ⟨-, ⟨⟩⟩ := Option.ite_none_right_eq_some.mp hstep
    unfold uartintr
    split_ifs with hidle
    · exact ⟨h.bytes, by simp, by simp, fun hs => ⟨(h.ready hs).1, fun _ => hidle⟩⟩
    · exact { h with owed := fun _ => .inl (by simpa using hidle) }

/-- What a process has asked `uartwrite` to send has been sent, in order and once, or is left; while
a process sleeps, the UART is sending or its interrupt is on the way; and without `uartputc_sync`
no byte is written before the UART is ready for it. -/
theorem uartwrite_in_order (hs : (uartSystem ι).Reachable s) :
  (∀ t, s.sent t ++ s.rest t = s.asked t)
    ∧ (∀ t, s.asleep t = true → s.busy = true ∧ (s.idle = false ∨ s.irq = true ∨ 0 < s.handlers))
    ∧ (s.synced = false → s.overrun = false)
  := by
  have h : s.Inv := by
    apply hs.invariant
    · rintro _ rfl
      exact ⟨fun _ => rfl, by simp [Uart.boot], by simp [Uart.boot], by simp [Uart.boot]⟩
    · exact fun s a s' => Uart.Inv.step
  exact ⟨h.bytes, fun t ht => ⟨h.asleep t ht, h.owed (h.asleep t ht)⟩, fun hsync => (h.ready hsync).1⟩

/-- The second of two processes sleeps until the byte of the first has been sent. -/
theorem uartwrite_in_order_two :
  ∃ s, (uartSystem (Fin 2)).Reachable s ∧ s.asleep 1 = true ∧ s.sent 0 = [72]
    ∧ s.sent 1 ++ s.rest 1 = s.asked 1
  := by
  have hrun : (uartSystem (Fin 2)).exec .boot
      [.call 0 [72], .call 1 [105], .run 0, .run 1] = some _ := rfl
  have hr := (TransitionSystem.Reachable.init rfl).exec hrun
  exact ⟨_, hr, rfl, rfl, (uartwrite_in_order hr).1 1⟩

end Xv6
