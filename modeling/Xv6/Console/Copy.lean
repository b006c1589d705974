import Xv6.Console.System

/-!
# What `consoleread` takes and what it delivers

A call of `consoleread` whose copies to the caller may fail, and which may be killed while it waits.
A byte leaves the buffer before it is copied, so that a byte for a bad address is lost.
-/

namespace Xv6

/-- What a call meets with in the loop that waits for input: it has been killed, or it sleeps and
then finds the buffer as others have left it. -/
inductive Wake where
  | killed
  | woken (c : Cons)

/-- How the loop that waits for input ends. -/
inductive Waited where
  | asleep
  | killed
  | ready (c : Cons) (env : List Wake)

/-- A call of `consoleread`: what it has returned, unless it still sleeps, the bytes that it has
taken from the buffer and those that it has delivered. -/
structure ConsoleCall where
  ret : Option ℤ
  cons : Cons
  removed : List UInt8
  delivered : List UInt8

/-- The call has moved a byte before. -/
def ConsoleCall.moved (b : UInt8) (r : ConsoleCall) : ConsoleCall :=
  { r with removed := b :: r.removed, delivered := b :: r.delivered }

/-- What has left the buffer has been delivered, up to a ^D at the end. -/
def ConsoleCall.Lossless (r : ConsoleCall) : Prop :=
  r.removed = r.delivered ∨ r.removed = r.delivered ++ [ctrl 'D']

namespace Cons

def await : List Wake → Cons → Waited
  | [], c => if c.r = c.w then .asleep else .ready c []
  | .killed :: env, c => if c.r = c.w then .killed else .ready c (.killed :: env)
  | .woken c' :: env, c => if c.r = c.w then await env c' else .ready c (.woken c' :: env)

/-- The loop of `consoleread` with `n` bytes to go of `target`; `ok` says where `either_copyout`
succeeds. -/
def copyLoop (ok : UInt64 → Bool) (target : ℕ) : ℕ → UInt64 → List Wake → Cons → ConsoleCall
  | 0, _, _, c => ⟨some target, c, [], []⟩
  | n + 1, dst, env, c =>
    match c.await env with
    | .asleep => ⟨none, c, [], []⟩
    | .killed => ⟨some (-1), c, [], []⟩
    | .ready c env =>
      let b := c.byte c.r
      let c := c.setR (c.r + 1)
      if b = ctrl 'D' then
        if n + 1 < target then ⟨some (target - (n + 1)), c.setR (c.r - 1), [], []⟩
        else ⟨some (target - (n + 1)), c, [b], []⟩
      else if ok dst then
        if b = newline then ⟨some (target - n), c, [b], [b]⟩
        else (copyLoop ok target n (dst + 1) env c).moved b
      else ⟨some (target - (n + 1)), c, [b], []⟩

/-- `consoleread`. -/
def consoleread (ok : UInt64 → Bool) (dst : UInt64) (n : ℤ) (env : List Wake) (c : Cons) : ConsoleCall :=
  copyLoop ok n.toNat n.toNat dst env c

section Copy

variable {ok : UInt64 → Bool} {target n : ℕ} {dst : UInt64} {env : List Wake} {c : Cons}

/-- Where every copy succeeds, a call is a turn of the reader. -/
theorem readLoop_eq_copyLoop {out : List UInt8} (hok : ∀ a, ok a = true) :
  (c.readLoop target n out).2.2
    = (out ++ (copyLoop ok target n dst [] c).delivered, (copyLoop ok target n dst [] c).cons)
  := by
  induction n generalizing out dst c with
  | zero => rw [readLoop, copyLoop, List.append_nil]
  | succ n ih =>
    rw [readLoop, copyLoop, await]
    by_cases hempty : c.r = c.w
    · rw [if_pos hempty, if_pos hempty, List.append_nil]
    · simp only [if_neg hempty, hok, if_true]
      split_ifs
      · rw [List.append_nil]
      · rw [List.append_nil]
      · rfl
      · rw [ih, List.append_assoc]
        rfl

theorem lossless_moved {b : UInt8} {r : ConsoleCall} : (r.moved b).Lossless ↔ r.Lossless
  := by
  simp [ConsoleCall.Lossless, ConsoleCall.moved]

theorem forall_lt_succ_ok {l : ℕ} :
  (∀ k < l + 1, ok (dst + UInt64.ofNat k) = true)
    ↔ ok dst = true ∧ ∀ k < l, ok (dst + 1 + UInt64.ofNat k) = true
  := by
  have hshift : ∀ k, dst + UInt64.ofNat (k + 1) = dst + 1 + UInt64.ofNat k := by
    intro k
    rw [UInt64.ofNat_add, UInt64.add_comm (UInt64.ofNat k), ← UInt64.add_assoc]
    rfl
  rw [Nat.forall_lt_succ_left]
  simp only [hshift]
  rw [show dst + UInt64.ofNat 0 = dst from UInt64.add_zero dst]

theorem copyLoop_lossless_iff :
  (copyLoop ok target n dst env c).Lossless
    ↔ ∀ k < (copyLoop (fun _ => true) target n dst env c).delivered.length,
        ok (dst + UInt64.ofNat k) = true
  := by
  induction n generalizing dst env c with
  | zero => simp [copyLoop, ConsoleCall.Lossless]
  | succ n ih =>
    rw [copyLoop, copyLoop]
    cases c.await env with
    | asleep | killed => simp [ConsoleCall.Lossless]
    | ready c env =>
      by_cases hend : c.byte c.r = ctrl 'D'
      · by_cases hsome : n + 1 < target
        · simp [hend, hsome, ConsoleCall.Lossless]
        · simp [hend, hsome, ConsoleCall.Lossless]
      · -- a byte for a bad address has left the buffer, and it is not a ^D
        have hbad : ∀ ret c', ¬ (⟨ret, c', [c.byte c.r], []⟩ : ConsoleCall).Lossless := by
          rintro ret c' (h | h)
          · cases h
          · exact hend (List.cons.inj h).1
        simp only [if_neg hend, if_true]
        by_cases hdst : ok dst = true
        · rw [if_pos hdst]
          by_cases hline : c.byte c.r = newline
          · rw [if_pos hline, if_pos hline, List.length_singleton, forall_lt_succ_ok (l := 0)]
            exact iff_of_true (Or.inl rfl) ⟨hdst, fun k hk => absurd hk (Nat.not_lt_zero k)⟩
          · rw [if_neg hline, if_neg hline, lossless_moved, ih, ConsoleCall.moved, List.length_cons,
              forall_lt_succ_ok, and_iff_right hdst]
        · rw [if_neg hdst]
          apply iff_of_false (hbad _ _)
          split_ifs
          · rw [List.length_singleton, forall_lt_succ_ok (l := 0)]
            exact fun h => hdst h.1
          · rw [ConsoleCall.moved, List.length_cons, forall_lt_succ_ok]
            exact fun h => hdst h.1

end Copy

/-- A line has been typed. -/
def typedA : Cons := (Console.boot.cons.consoleintr 97).consoleintr 13

end Cons

end Xv6
