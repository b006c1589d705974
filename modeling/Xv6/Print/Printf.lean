import Xv6.Print.Printint

/-!
# `printf`

The kernel's `printf` looks ahead from a `%` and moves its index inside the body of the loop; the
user's `vprintf` has a state that says whether the last character was a `%`.  They take the same
characters of the format and the same arguments for each conversion, and print the same
characters, but for the case of the hexadecimal digits.
-/

namespace Xv6

/-- An argument: the word in the `va_list`, and the string that it points to if it is a pointer
other than `0`. -/
structure PrintArg where
  word : BitVec 64
  string : Option (List UInt8)

/-- What a character is printed for. -/
inductive Origin
  | text
  | hex
  | chr
  deriving DecidableEq

/-- A character that is passed on to `consputc` or `putc`. -/
structure Printed where
  char : ℕ
  origin : Origin
  deriving DecidableEq

/-- The conversions. -/
inductive Conversion
  | dec (long sign : Bool)
  | hex (long : Bool)
  | ptr
  | chr
  | str
  | percent

/-- The conversion for the characters behind a `%`, and how many characters it takes besides the
first one. -/
def conversion (c0 c1 c2 : UInt8) : Option (Conversion × ℕ) :=
  if c0 = 'd'.toUInt8 then some (.dec false true, 0)
  else if c0 = 'l'.toUInt8 ∧ c1 = 'd'.toUInt8 then some (.dec true true, 1)
  else if c0 = 'l'.toUInt8 ∧ c1 = 'l'.toUInt8 ∧ c2 = 'd'.toUInt8 then some (.dec true true, 2)
  else if c0 = 'u'.toUInt8 then some (.dec false false, 0)
  else if c0 = 'l'.toUInt8 ∧ c1 = 'u'.toUInt8 then some (.dec true false, 1)
  else if c0 = 'l'.toUInt8 ∧ c1 = 'l'.toUInt8 ∧ c2 = 'u'.toUInt8 then some (.dec true false, 2)
  else if c0 = 'x'.toUInt8 then some (.hex false, 0)
  else if c0 = 'l'.toUInt8 ∧ c1 = 'x'.toUInt8 then some (.hex true, 1)
  else if c0 = 'l'.toUInt8 ∧ c1 = 'l'.toUInt8 ∧ c2 = 'x'.toUInt8 then some (.hex true, 2)
  else if c0 = 'p'.toUInt8 then some (.ptr, 0)
  else if c0 = 'c'.toUInt8 then some (.chr, 0)
  else if c0 = 's'.toUInt8 then some (.str, 0)
  else if c0 = '%'.toUInt8 then some (.percent, 0)
  else none

/-- The characters `c0`, `c1` and `c2` from the position `i` on, which are read only up to the end
of the format. -/
def lookAhead (fmt : List UInt8) (i : ℕ) : UInt8 × UInt8 × UInt8 :=
  let c0 := fmt.getD i 0
  let c1 := if c0 ≠ 0 then fmt.getD (i + 1) 0 else 0
  let c2 := if c1 ≠ 0 then fmt.getD (i + 2) 0 else 0
  (c0, c1, c2)

def Printed.text (c : UInt8) : Printed := ⟨c.toNat, .text⟩

/-- The loop of `printptr`. -/
def printptrLoop (digits : List UInt8) : ℕ → BitVec 64 → List UInt8
  | 0, _ => []
  | n + 1, x => digits.getD (x >>> 60).toNat 0 :: printptrLoop digits n (x <<< 4)

def printptrWith (digits : List UInt8) (x : BitVec 64) : List Printed :=
  .text '0'.toUInt8 :: .text 'x'.toUInt8
    :: (printptrLoop digits 16 x).map (fun c => ⟨c.toNat, .hex⟩)

/-- What `printint` prints for a conversion. -/
def printNumber (digits : List UInt8) (xx : BitVec 64) (base : ℕ) (sign : Bool) : Option (List Printed) :=
  (printintWith digits xx base sign).map
    (List.map fun c => ⟨c.toNat, if base = 16 then .hex else .text⟩)

/-- An `int`, a `uint32` or a `uint64` that is passed on as a `long long`. -/
def PrintArg.integer (arg : PrintArg) (long sign : Bool) : BitVec 64 :=
  if long then arg.word
  else if sign then (arg.word.setWidth 32).signExtend 64 else (arg.word.setWidth 32).setWidth 64

/-- What is printed for a conversion, and how many arguments it takes.  The argument of a `%c`
goes through `putc`. -/
def Conversion.print (digits : List UInt8) (putc : BitVec 32 → ℕ) (arg : PrintArg) :
    Conversion → Option (List Printed × ℕ)
  | dec long sign => (printNumber digits (arg.integer long sign) 10 sign).map (·, 1)
  | hex long => (printNumber digits (arg.integer long false) 16 false).map (·, 1)
  | ptr => some (printptrWith digits arg.word, 1)
  | chr => some ([⟨putc (arg.word.setWidth 32), .chr⟩], 1)
  | str =>
    some (((arg.string.getD ("(null)".toList.map Char.toUInt8)).takeWhile (· ≠ 0)).map .text, 1)
  | percent => some ([.text '%'.toUInt8], 0)

theorem lt_length_of_getD {fmt : List UInt8} {i : ℕ} (h : fmt.getD i 0 ≠ 0) : i < fmt.length := by
  by_contra hge
  apply h
  rw [List.getD_eq_getElem?_getD, List.getElem?_eq_none (Nat.le_of_not_lt hge), Option.getD_none]

/-- The loop of the kernel's `printf` from the index `i` on, with the arguments from `j` on. -/
def Kernel.printfFrom (fmt : List UInt8) (args : ℕ → PrintArg) (i j : ℕ) : Option (List Printed) :=
  if hcx : fmt.getD i 0 = 0 then some []
  else if fmt.getD i 0 ≠ '%'.toUInt8 then
    (Kernel.printfFrom fmt args (i + 1) j).map (.text (fmt.getD i 0) :: ·)
  else
    let (c0, c1, c2) := lookAhead fmt (i + 1)
    match conversion c0 c1 c2 with
    | some (conv, k) => do
      let (out, taken) ← conv.print Kernel.digits BitVec.toNat (args j)
      let rest ← Kernel.printfFrom fmt args (i + 1 + k + 1) (j + taken)
      return out ++ rest
    | none =>
      if c0 = 0 then some []
      else
        (Kernel.printfFrom fmt args (i + 1 + 1) j).map ([.text '%'.toUInt8, .text c0] ++ ·)
termination_by fmt.length - i
decreasing_by all_goals have := lt_length_of_getD hcx; omega

def Kernel.printf (fmt : List UInt8) (args : ℕ → PrintArg) : Option (List Printed) :=
  Kernel.printfFrom fmt args 0 0

/-- The loop of the user's `vprintf`.  The state is `'%'` behind a `%`, and `putc` takes a `char`. -/
def Ulib.vprintfFrom (fmt : List UInt8) (args : ℕ → PrintArg) (i : ℕ) (state : UInt8) (j : ℕ) :
    Option (List Printed) :=
  if hc0 : fmt.getD i 0 = 0 then some []
  else if state = 0 then
    if fmt.getD i 0 = '%'.toUInt8 then Ulib.vprintfFrom fmt args (i + 1) '%'.toUInt8 j
    else (Ulib.vprintfFrom fmt args (i + 1) 0 j).map (.text (fmt.getD i 0) :: ·)
  else if state = '%'.toUInt8 then
    let (c0, c1, c2) := lookAhead fmt i
    match conversion c0 c1 c2 with
    | some (conv, k) => do
      let (out, taken) ← conv.print Ulib.digits (fun c => (c.setWidth 8).toNat) (args j)
      let rest ← Ulib.vprintfFrom fmt args (i + k + 1) 0 (j + taken)
      return out ++ rest
    | none => (Ulib.vprintfFrom fmt args (i + 1) 0 j).map ([.text '%'.toUInt8, .text c0] ++ ·)
  else Ulib.vprintfFrom fmt args (i + 1) state j
termination_by fmt.length - i
decreasing_by all_goals have := lt_length_of_getD hc0; omega

def Ulib.vprintf (fmt : List UInt8) (args : ℕ → PrintArg) : Option (List Printed) :=
  Ulib.vprintfFrom fmt args 0 0 0

/-! ### Alike -/

/-- The characters are the same, but for the case of a hexadecimal digit and what `putc` makes of
the argument of a `%c`. -/
def Printed.Akin (k u : Printed) : Prop :=
  u.origin = k.origin ∧ match k.origin with
    | .text => u.char = k.char
    | .hex => u.char = k.char ∨ 'a'.toNat ≤ k.char ∧ k.char ≤ 'f'.toNat ∧ u.char + 32 = k.char
    | .chr => u.char = k.char % 256

/-- Both print, and print alike. -/
def Agree (k u : Option (List Printed)) : Prop :=
  ∃ out out', k = some out ∧ u = some out' ∧ List.Forall₂ Printed.Akin out out'

section Agree

variable {k u : Option (List Printed)} {out out' : List Printed}

theorem Agree.append (h : Agree k u) (hout : List.Forall₂ Printed.Akin out out') :
  Agree (k.map (out ++ ·)) (u.map (out' ++ ·))
  := by
  obtain ⟨rest, rest', rfl, rfl, hrest⟩ := h
  exact ⟨_, _, rfl, rfl, List.rel_append hout hrest⟩

theorem akin_text (l : List UInt8) :
  List.Forall₂ Printed.Akin (l.map .text) (l.map .text)
  := by
  rw [List.forall₂_map_left_iff, List.forall₂_map_right_iff, List.forall₂_same]
  exact fun _ _ => ⟨rfl, rfl⟩

/-- The tables of digits differ in the case only. -/
theorem akin_digit (d : ℕ) :
  Printed.Akin ⟨(Kernel.digits.getD d 0).toNat, .hex⟩ ⟨(Ulib.digits.getD d 0).toNat, .hex⟩
  := by
  refine ⟨rfl, ?_⟩
  by_cases hd : d < 16
  · revert d
    decide
  · have hge : 16 ≤ d := Nat.le_of_not_lt hd
    left
    simp only [List.getD_eq_getElem?_getD]
    rw [List.getElem?_eq_none hge, List.getElem?_eq_none hge]

theorem akin_printptr (n : ℕ) (x : BitVec 64) :
  List.Forall₂ Printed.Akin ((printptrLoop Kernel.digits n x).map (fun c => ⟨c.toNat, .hex⟩))
    ((printptrLoop Ulib.digits n x).map (fun c => ⟨c.toNat, .hex⟩))
  := by
  induction n generalizing x with
  | zero => exact .nil
  | succ n ih => exact .cons (akin_digit _) (ih _)

/-- A decimal digit is the same in both tables. -/
theorem digit_ten {d : ℕ} (hd : d < 10) : Kernel.digits.getD d 0 = Ulib.digits.getD d 0 := by
  revert d
  decide

/-- The same numeral in both tables. -/
theorem akin_numeral (sign : List UInt8) {base : ℕ} {ds : List ℕ} (hbase : base = 10 ∨ base = 16)
    (hds : ∀ d ∈ ds, d < base) :
  List.Forall₂ Printed.Akin
    ((sign ++ (ds.map (Kernel.digits.getD · 0)).reverse).map
      fun c => ⟨c.toNat, if base = 16 then .hex else .text⟩)
    ((sign ++ (ds.map (Ulib.digits.getD · 0)).reverse).map
      fun c => ⟨c.toNat, if base = 16 then .hex else .text⟩)
  := by
  have hsign : ∀ c : UInt8, Printed.Akin ⟨c.toNat, if base = 16 then .hex else .text⟩
      ⟨c.toNat, if base = 16 then .hex else .text⟩ := by
    intro c
    split_ifs
    · exact ⟨rfl, Or.inl rfl⟩
    · exact ⟨rfl, rfl⟩
  have hdigit : ∀ d < base, Printed.Akin
      ⟨(Kernel.digits.getD d 0).toNat, if base = 16 then .hex else .text⟩
      ⟨(Ulib.digits.getD d 0).toNat, if base = 16 then .hex else .text⟩ := by
    intro d hd
    split_ifs with h16
    · exact akin_digit d
    · rw [digit_ten (by omega)]
      exact ⟨rfl, rfl⟩
  simp only [List.map_append, ← List.map_reverse, List.map_map]
  apply List.rel_append
  · rw [List.forall₂_map_left_iff, List.forall₂_map_right_iff, List.forall₂_same]
    exact fun c _ => hsign c
  · rw [List.forall₂_map_left_iff, List.forall₂_map_right_iff, List.forall₂_same]
    exact fun d hd => hdigit d (hds d (List.mem_reverse.mp hd))

theorem akin_printNumber (xx : BitVec 64) (base : ℕ) (sign : Bool) (hbase : base = 10 ∨ base = 16) :
  Agree (printNumber Kernel.digits xx base sign) (printNumber Ulib.digits xx base sign)
  := by
  unfold printNumber
  rw [(printintWith_eq Kernel.digits xx sign hbase).1, (printintWith_eq Ulib.digits xx sign hbase).1]
  exact ⟨_, _, rfl, rfl, akin_numeral _ hbase (fun d hd => lt_of_mem_digitsOf (by omega) hd)⟩

/-- A conversion takes the same arguments. -/
theorem akin_print (conv : Conversion) (arg : PrintArg) :
  ∃ out out' taken, conv.print Kernel.digits BitVec.toNat arg = some (out, taken)
    ∧ conv.print Ulib.digits (fun c => (c.setWidth 8).toNat) arg = some (out', taken)
    ∧ List.Forall₂ Printed.Akin out out'
  := by
  have hnumber : ∀ {xx base sign}, base = 10 ∨ base = 16 → ∃ out out' taken,
      (printNumber Kernel.digits xx base sign).map (·, 1) = some (out, taken)
        ∧ (printNumber Ulib.digits xx base sign).map (·, 1) = some (out', taken)
        ∧ List.Forall₂ Printed.Akin out out' := by
    intro xx base sign hbase
    obtain ⟨out, out', hk, hu, hakin⟩ := akin_printNumber xx base sign hbase
    exact ⟨out, out', 1, by rw [hk]; rfl, by rw [hu]; rfl, hakin⟩
  cases conv with
  | dec long sign => exact hnumber (Or.inl rfl)
  | hex long => exact hnumber (Or.inr rfl)
  | ptr =>
    exact ⟨_, _, _, rfl, rfl, List.rel_append (akin_text ['0'.toUInt8, 'x'.toUInt8]) (akin_printptr 16 _)⟩
  | chr => exact ⟨_, _, _, rfl, rfl, .cons ⟨rfl, BitVec.toNat_setWidth 8 _⟩ .nil⟩
  | str => exact ⟨_, _, _, rfl, rfl, akin_text _⟩
  | percent => exact ⟨_, _, _, rfl, rfl, akin_text ['%'.toUInt8]⟩

/-- The user's loop comes to a `%` in the state `0` and to what follows it in the state `'%'`. -/
theorem agree_from (fmt : List UInt8) (args : ℕ → PrintArg) (i j : ℕ) :
  Agree (Kernel.printfFrom fmt args i j) (Ulib.vprintfFrom fmt args i 0 j)
  := by
  induction hn : fmt.length - i using Nat.strong_induction_on generalizing i j with
  | h n ih =>
    have hrest : ∀ i' j', i < i' → i < fmt.length →
        Agree (Kernel.printfFrom fmt args i' j') (Ulib.vprintfFrom fmt args i' 0 j') :=
      fun i' j' hi hlt => ih (fmt.length - i') (by omega) i' j' rfl
    rw [Kernel.printfFrom, Ulib.vprintfFrom]
    by_cases hcx : fmt.getD i 0 = 0
    · rw [dif_pos hcx, dif_pos hcx]
      exact ⟨_, _, rfl, rfl, .nil⟩
    have hlt := lt_length_of_getD hcx
    rw [dif_neg hcx, dif_neg hcx, if_pos rfl]
    by_cases hpercent : fmt.getD i 0 = '%'.toUInt8
    · rw [if_neg (not_not.mpr hpercent), if_pos hpercent, Ulib.vprintfFrom]
      by_cases hend : fmt.getD (i + 1) 0 = 0
      · -- the format ends behind the `%`
        have hahead : lookAhead fmt (i + 1) = (0, 0, 0) := by
          simp only [lookAhead, hend, ne_eq, not_true_eq_false, if_false]
        rw [dif_pos hend, hahead]
        exact ⟨_, _, rfl, rfl, .nil⟩
      · have hc0 : (lookAhead fmt (i + 1)).1 ≠ 0 := hend
        rw [dif_neg hend, if_neg (by decide), if_pos rfl]
        generalize lookAhead fmt (i + 1) = ahead at hc0 ⊢
        obtain ⟨c0, c1, c2⟩ := ahead
        dsimp only
        cases conversion c0 c1 c2 with
        | some conv =>
          obtain ⟨out, out', taken, hk, hu, hakin⟩ := akin_print conv.1 (args j)
          obtain ⟨rest, rest', hk', hu', hagree⟩ := hrest (i + 1 + conv.2 + 1) (j + taken) (by omega) hlt
          simp only [hk, hu, hk', hu', Option.bind_eq_bind, Option.bind_some]
          exact ⟨_, _, rfl, rfl, List.rel_append hakin hagree⟩
        | none =>
          dsimp only
          rw [if_neg hc0]
          exact (hrest _ _ (by omega) hlt).append (akin_text ['%'.toUInt8, c0])
    · rw [if_pos hpercent, if_neg hpercent]
      exact (hrest _ _ (by omega) hlt).append (akin_text [fmt.getD i 0])

end Agree

/-- The characters are the same, but for the case of a hexadecimal digit. -/
def Printed.Alike (k u : Printed) : Prop :=
  u.char = k.char ∨ k.origin = .hex ∧ 'a'.toNat ≤ k.char ∧ k.char ≤ 'f'.toNat ∧ u.char + 32 = k.char

/-- For every format and all arguments both functions print, and if the arguments of the `%c` are
below 256, they print alike. -/
theorem printf_alike (fmt : List UInt8) (args : ℕ → PrintArg) :
  ∃ out out', Kernel.printf fmt args = some out ∧ Ulib.vprintf fmt args = some out'
    ∧ ((∀ k ∈ out, k.origin = .chr → k.char < 256) → List.Forall₂ Printed.Alike out out')
  := by
  obtain ⟨out, out', hk, hu, hakin⟩ := agree_from fmt args 0 0
  refine ⟨out, out', hk, hu, fun hchr => ?_⟩
  clear hk hu
  induction hakin with
  | nil => exact .nil
  | @cons k u out out' hku _ ih =>
    refine .cons ?_ (ih fun k' hk' => hchr k' (List.mem_cons_of_mem k hk'))
    obtain ⟨-, hchar⟩ := hku
    cases horigin : k.origin with rw [horigin] at hchar
    | text => exact Or.inl hchar
    | hex => exact hchar.imp_right (fun h => ⟨horigin, h⟩)
    | chr => exact Or.inl (hchar.trans (Nat.mod_eq_of_lt (hchr k (List.mem_cons_self ..) horigin)))

end Xv6
