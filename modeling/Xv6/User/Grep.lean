import Mathlib.Data.List.TakeWhile
import Mathlib.Tactic

/-!
# `grep`

The matcher of `grep` has a pattern language with the operators `^`, `.`, `*` and `$`.  A pattern
is read from left to right as a list of items, and the matcher looks for a part of the text that the
items denote.  The main loop collects lines in a buffer of 1024 bytes from the pieces that `read`
delivers.  What it prints depends on the input alone: the matching lines before the first one that
has a NUL or does not fit into the buffer.

Strings are lists of the bytes before their NUL.
-/

namespace Xv6.Grep

/-! ### The matcher -/

@[match_pattern]
abbrev STAR : UInt8 := 42

@[match_pattern]
abbrev DOT : UInt8 := 46

@[match_pattern]
abbrev DOLLAR : UInt8 := 36

@[match_pattern]
abbrev CARET : UInt8 := 94

/-- `matchstar`, for a rest of the pattern that matches where `here` says. -/
def matchstar (here : List UInt8 → Bool) (c : UInt8) : List UInt8 → Bool
  | [] => here []
  | a :: text => here (a :: text) || (a == c || c == DOT) && matchstar here c text

/-- `matchhere`: look for the pattern at the beginning of the text. -/
def matchhere : List UInt8 → List UInt8 → Bool
  | [], _ => true
  | c :: STAR :: re, text => matchstar (matchhere re) c text
  | [DOLLAR], text => text.isEmpty
  | _ :: _, [] => false
  | c :: re, a :: text => (c == DOT || c == a) && matchhere re text

/-- The loop of `match`. -/
def matchFrom (re : List UInt8) : List UInt8 → Bool
  | [] => matchhere re []
  | a :: text => matchhere re (a :: text) || matchFrom re text

/-- `match`: look for the pattern anywhere in the text. -/
def matchText (re text : List UInt8) : Bool :=
  match re with
  | CARET :: re => matchhere re text
  | re => matchFrom re text

/-! ### The pattern language -/

/-- An item of a pattern: a character, any number of a character, or the end of the text. -/
inductive Item where
  | one (c : UInt8)
  | many (c : UInt8)
  | last

def items : List UInt8 → List Item
  | [] => []
  | c :: STAR :: re => .many c :: items re
  | [DOLLAR] => [.last]
  | c :: re => .one c :: items re

/-- A character of the text is one that a character of the pattern stands for. -/
def Fits (c a : UInt8) : Prop := c = DOT ∨ c = a

/-- The items denote `w` where it is followed by `post`. -/
def Denotes : List Item → List UInt8 → List UInt8 → Prop
  | [], w, _ => w = []
  | .one c :: l, w, post => ∃ a v, w = a :: v ∧ Fits c a ∧ Denotes l v post
  | .many c :: l, w, post => ∃ u v, w = u ++ v ∧ (∀ a ∈ u, Fits c a) ∧ Denotes l v post
  | .last :: l, w, post => post = [] ∧ w = [] ∧ Denotes l w post

section Matcher

variable {re text : List UInt8} {c : UInt8}

theorem matchstar_iff {here : List UInt8 → Bool} :
  matchstar here c text = true ↔ ∃ u v, text = u ++ v ∧ (∀ a ∈ u, Fits c a) ∧ here v = true
  := by
  induction text with
  | nil =>
    constructor
    · intro h
      exact ⟨[], [], rfl, by simp, h⟩
    · rintro ⟨u, v, huv, -, h⟩
      obtain ⟨rfl, rfl⟩ := List.append_eq_nil_iff.mp huv.symm
      exact h
  | cons b text ih =>
    have hfits : (b == c || c == DOT) = true ↔ Fits c b := by
      rw [Fits, Bool.or_eq_true, beq_iff_eq, beq_iff_eq, or_comm, eq_comm (a := b)]
    rw [matchstar, Bool.or_eq_true, Bool.and_eq_true, hfits, ih]
    constructor
    · rintro (h | ⟨hb, u, v, rfl, hu, h⟩)
      · exact ⟨[], b :: text, rfl, by simp, h⟩
      · refine ⟨b :: u, v, rfl, ?_, h⟩
        rintro a (_ | ⟨_, ha⟩)
        · exact hb
        · exact hu a ha
    · rintro ⟨u, v, huv, hu, h⟩
      cases u with
      | nil =>
        left
        rw [huv]
        exact h
      | cons b' u =>
        obtain ⟨rfl, rfl⟩ := List.cons.inj huv
        right
        exact ⟨hu b List.mem_cons_self, u, v, rfl, fun a ha => hu a (List.mem_cons_of_mem b ha), h⟩

/-- `matchhere` finds a beginning of the text that the items denote. -/
theorem matchhere_iff : matchhere re text = true ↔ ∃ w post, text = w ++ post ∧ Denotes (items re) w post := by
  induction re using items.induct generalizing text with
  | case1 => simp [matchhere, items, Denotes]
  | case2 c re ih =>
    rw [matchhere, matchstar_iff, items]
    constructor
    · rintro ⟨u, v, rfl, hu, hv⟩
      obtain ⟨w, post, rfl, hw⟩ := ih.mp hv
      exact ⟨u ++ w, post, (List.append_assoc ..).symm, u, w, rfl, hu, hw⟩
    · rintro ⟨_, post, rfl, u, v, rfl, hu, hv⟩
      exact ⟨u, v ++ post, List.append_assoc .., hu, ih.mpr ⟨v, post, rfl, hv⟩⟩
  | case3 =>
    rw [matchhere, items, List.isEmpty_iff]
    constructor
    · rintro rfl
      exact ⟨[], [], rfl, rfl, rfl, rfl⟩
    · rintro ⟨w, post, rfl, rfl, rfl, -⟩
      rfl
  | case4 c re hstar hlast ih =>
    have hitems : items (c :: re) = .one c :: items re := by rw [items] <;> assumption
    rw [hitems]
    cases text with
    | nil =>
      have hhere : matchhere (c :: re) [] = false := by rw [matchhere] <;> assumption
      rw [hhere]
      constructor
      · intro h
        cases h
      · rintro ⟨_, post, hnil, a, v, rfl, -⟩
        cases hnil
    | cons a text =>
      have hhere : matchhere (c :: re) (a :: text) = ((c == DOT || c == a) && matchhere re text) := by
        rw [matchhere] <;> assumption
      rw [hhere, Bool.and_eq_true, Bool.or_eq_true, beq_iff_eq, beq_iff_eq, ih]
      constructor
      · rintro ⟨hc, w, post, rfl, hw⟩
        exact ⟨a :: w, post, rfl, a, w, rfl, hc, hw⟩
      · rintro ⟨_, post, htext, a', v, rfl, hc, hv⟩
        obtain ⟨rfl, rfl⟩ := List.cons.inj htext
        exact ⟨hc, v, post, rfl, hv⟩

theorem matchFrom_iff :
  matchFrom re text = true ↔ ∃ pre w post, text = pre ++ w ++ post ∧ Denotes (items re) w post
  := by
  induction text with
  | nil =>
    rw [matchFrom, matchhere_iff]
    constructor
    · rintro ⟨w, post, h, hw⟩
      exact ⟨[], w, post, h, hw⟩
    · rintro ⟨pre, w, post, h, hw⟩
      obtain ⟨hpre, rfl⟩ := List.append_eq_nil_iff.mp h.symm
      obtain ⟨rfl, rfl⟩ := List.append_eq_nil_iff.mp hpre
      exact ⟨[], [], rfl, hw⟩
  | cons a text ih =>
    rw [matchFrom, Bool.or_eq_true, matchhere_iff, ih]
    constructor
    · rintro (⟨w, post, h, hw⟩ | ⟨pre, w, post, rfl, hw⟩)
      · exact ⟨[], w, post, h, hw⟩
      · exact ⟨a :: pre, w, post, rfl, hw⟩
    · rintro ⟨pre, w, post, h, hw⟩
      cases pre with
      | nil => exact Or.inl ⟨w, post, h, hw⟩
      | cons a' pre =>
        obtain ⟨rfl, rfl⟩ := List.cons.inj h
        exact Or.inr ⟨pre, w, post, rfl, hw⟩

/-- A pattern matches a text that has a part which its items denote, and one with `^` a text that
begins with such a part. -/
theorem match_denotes (re text : List UInt8) :
  matchText re text = true ↔ ∃ pre w post, text = pre ++ w ++ post
    ∧ if re.head? = some CARET then pre = [] ∧ Denotes (items re.tail) w post else Denotes (items re) w post
  := by
  unfold matchText
  split
  · rename_i re
    rw [matchhere_iff]
    constructor
    · rintro ⟨w, post, h, hw⟩
      exact ⟨[], w, post, h, rfl, hw⟩
    · rintro ⟨_, w, post, h, rfl, hw⟩
      exact ⟨w, post, h, hw⟩
  · rename_i hre
    have hhead : re.head? ≠ some CARET := by
      intro h
      obtain ⟨re', rfl⟩ := List.head?_eq_some_iff.mp h
      exact hre re' rfl
    simp only [hhead, if_false]
    exact matchFrom_iff

end Matcher

/-! ### The loop

The buffer is a list, and an access behind its end makes the run fail. -/

abbrev BUFSIZE : ℕ := 1024

abbrev NEWLINE : UInt8 := 10

/-- `strchr`: the distance to the first `c` before the NUL. -/
def strchr (c : UInt8) : List UInt8 → Option (Option ℕ)
  | [] => none
  | a :: s =>
      if a = 0 then some none
      else if a = c then some (some 0)
      else (strchr c s).map (·.map (· + 1))

/-- The bytes before the NUL. -/
def cstr : List UInt8 → Option (List UInt8)
  | [] => none
  | a :: s => if a = 0 then some [] else (cstr s).map (a :: ·)

def store (buf : List UInt8) (i : ℕ) (a : UInt8) : Option (List UInt8) :=
  if i < buf.length then some (buf.set i a) else none

/-- What `read` does to the buffer when it delivers `piece` at `m`. -/
def fill (buf : List UInt8) (m : ℕ) (piece : List UInt8) : Option (List UInt8) :=
  if m + piece.length ≤ buf.length then some (buf.take m ++ piece ++ buf.drop (m + piece.length))
  else none

/-- `memmove(buf, buf + p, n)`. -/
def memmove (buf : List UInt8) (p n : ℕ) : Option (List UInt8) :=
  if p + n ≤ buf.length then some ((buf.drop p).take n ++ buf.drop n) else none

/-- The inner loop of `grep`: consume the complete lines from `p` on. -/
def consume (pattern : List UInt8) :
    ℕ → List UInt8 → ℕ → List UInt8 → Option (List UInt8 × ℕ × List UInt8)
  | 0, _, _, _ => none
  | fuel + 1, buf, p, out => do
      match ← strchr NEWLINE (buf.drop p) with
      | none => some (buf, p, out)
      | some k =>
          let buf ← store buf (p + k) 0
          if matchText pattern (← cstr (buf.drop p)) then
            let buf ← store buf (p + k) NEWLINE
            consume pattern fuel buf (p + k + 1) (out ++ (buf.drop p).take (k + 1))
          else consume pattern fuel buf (p + k + 1) out

/-- The bytes that `read` delivers: at least one, unless none is wanted or none is left. -/
def delivered (piece want : ℕ) (input : List UInt8) : List UInt8 :=
  input.take (min (max piece 1) want)

/-- The loop of `grep`.  `split k` says how much `read` delivers when `k` bytes are left. -/
def grepLoop (pattern : List UInt8) (split : ℕ → ℕ) :
    ℕ → List UInt8 → ℕ → List UInt8 → List UInt8 → Option (List UInt8)
  | 0, _, _, _, _ => none
  | fuel + 1, buf, m, input, out => do
      guard (m + 1 ≤ BUFSIZE)
      let piece := delivered (split input.length) (BUFSIZE - m - 1) input
      if 0 < piece.length then
        let buf ← fill buf m piece
        let m := m + piece.length
        let buf ← store buf m 0
        let (buf, p, out) ← consume pattern (BUFSIZE + 1) buf 0 out
        if 0 < m then
          guard (p ≤ m)
          let buf ← memmove buf p (m - p)
          grepLoop pattern split fuel buf (m - p) (input.drop piece.length) out
        else grepLoop pattern split fuel buf m (input.drop piece.length) out
      else some out

/-- `grep`, with what the buffer was left with before. -/
def grep (pattern : List UInt8) (stale : Fin BUFSIZE → UInt8) (split : ℕ → ℕ) (input : List UInt8) :
    Option (List UInt8) :=
  grepLoop pattern split (input.length + 1) (List.ofFn stale) 0 input []

/-! ### The output -/

/-- A line without NUL that the buffer has room for. -/
def Short (line : List UInt8) : Prop := 0 ∉ line ∧ line.length < 1023

instance (line : List UInt8) : Decidable (Short line) := instDecidableAnd

/-- The matching ones among the complete lines before the first that is not short. -/
def matching (pattern input : List UInt8) : List UInt8 :=
  (((input.splitOn NEWLINE).dropLast.takeWhile (Short ·)).filter (matchText pattern ·)).flatMap
    (· ++ [NEWLINE])

section Loop

variable {pattern line rest data input : List UInt8}

theorem beq_newline (h : NEWLINE ∉ line) (a : UInt8) (ha : a ∈ line) : (a == NEWLINE) = false
  := by
  rw [beq_eq_false_iff_ne]
  rintro rfl
  exact h ha

theorem matching_eq_nil (h : NEWLINE ∉ input) : matching pattern input = []
  := by
  rw [matching, List.splitOn, List.splitOnP_eq_singleton (beq_newline h)]
  rfl

theorem matching_line (h : NEWLINE ∉ line) :
  matching pattern (line ++ NEWLINE :: rest)
    = if Short line then
        (if matchText pattern line then line ++ [NEWLINE] else []) ++ matching pattern rest
      else []
  := by
  have hsplit : (line ++ NEWLINE :: rest).splitOn NEWLINE = line :: rest.splitOn NEWLINE := by
    rw [List.splitOn, List.splitOnP_append_cons_of_forall_mem (beq_newline h) _ (beq_self_eq_true _)]
    rfl
  have hne : rest.splitOn NEWLINE ≠ [] := List.splitOnP_ne_nil _ _
  rw [matching, hsplit, List.dropLast_cons_of_ne_nil hne, List.takeWhile_cons]
  by_cases hshort : Short line
  · by_cases hmatch : matchText pattern line
    · simp [hshort, hmatch, matching]
    · simp [hshort, hmatch, matching]
  · simp [hshort]

/-- No complete line can be taken from the data. -/
def Waiting (data : List UInt8) : Prop := ∀ line rest, data = line ++ NEWLINE :: rest → 0 ∈ line

/-- What is waiting at the end of the input, or fills the buffer, adds nothing to the output. -/
theorem Waiting.matching (h : Waiting data) (hend : input = [] ∨ 1023 ≤ data.length) :
  matching pattern (data ++ input) = []
  := by
  by_cases hnl : NEWLINE ∈ data ++ input
  · obtain ⟨line, rest, hdata, hline⟩ := List.eq_append_cons_of_mem hnl
    rw [hdata, matching_line hline, if_neg]
    rintro ⟨hnul, hlen⟩
    have hsplit : ∃ rest', data = line ++ NEWLINE :: rest' := by
      rcases hend with rfl | hfull
      · rw [List.append_nil] at hdata
        exact ⟨rest, hdata⟩
      · rcases List.append_eq_append_iff.mp hdata with ⟨l, rfl, -⟩ | ⟨l, rfl, hl⟩
        · rw [List.length_append] at hlen
          omega
        · cases l with
          | nil =>
            rw [List.append_nil] at hfull
            omega
          | cons a l =>
            obtain ⟨rfl, -⟩ := List.cons.inj hl
            exact ⟨l, rfl⟩
    obtain ⟨rest', hrest⟩ := hsplit
    exact hnul (h line rest' hrest)
  · exact matching_eq_nil hnl

theorem strchr_cases (data junk : List UInt8) :
  Waiting data ∧ strchr NEWLINE (data ++ 0 :: junk) = some none
    ∨ ∃ line rest, data = line ++ NEWLINE :: rest ∧ 0 ∉ line ∧ NEWLINE ∉ line
      ∧ strchr NEWLINE (data ++ 0 :: junk) = some (some line.length)
  := by
  induction data with
  | nil =>
    left
    refine ⟨?_, rfl⟩
    intro line rest h
    exact absurd h.symm (by simp)
  | cons a data ih =>
    by_cases hnul : a = 0
    · left
      refine ⟨?_, by simp [strchr, hnul]⟩
      intro line rest h
      cases line with
      | nil =>
        obtain ⟨rfl, -⟩ := List.cons.inj h
        cases hnul
      | cons b line =>
        obtain ⟨rfl, -⟩ := List.cons.inj h
        exact hnul ▸ List.mem_cons_self
    · by_cases hnl : a = NEWLINE
      · right
        refine ⟨[], data, by rw [hnl]; rfl, by simp, by simp, ?_⟩
        rw [List.cons_append, strchr, if_neg hnul, if_pos hnl]
        rfl
      · rcases ih with ⟨hwait, hstr⟩ | ⟨line, rest, rfl, hline, hline', hstr⟩
        · left
          refine ⟨?_, by simp [strchr, hnul, hnl, hstr]⟩
          intro line rest h
          cases line with
          | nil =>
            obtain ⟨rfl, -⟩ := List.cons.inj h
            exact absurd rfl hnl
          | cons b line =>
            obtain ⟨rfl, h'⟩ := List.cons.inj h
            exact List.mem_cons_of_mem _ (hwait line rest h')
        · right
          refine ⟨a :: line, rest, rfl, ?_, ?_, ?_⟩
          · simp [Ne.symm hnul, hline]
          · simp [Ne.symm hnl, hline']
          · rw [List.cons_append, strchr, if_neg hnul, if_neg hnl, hstr]
            rfl

theorem cstr_append (h : 0 ∉ line) : cstr (line ++ 0 :: rest) = some line
  := by
  induction line with
  | nil => rfl
  | cons a line ih =>
    rw [List.mem_cons, not_or] at h
    simp [cstr, Ne.symm h.1, ih h.2]

theorem store_append {done : List UInt8} {b a : UInt8} :
  store (done ++ (line ++ b :: rest)) (done.length + line.length) a
    = some (done ++ (line ++ a :: rest))
  := by
  simp [store]

/-- The inner loop stops at data that is waiting and has printed what belongs to the rest. -/
theorem consume_data (pattern : List UInt8) (fuel : ℕ) (junk data done out : List UInt8)
    (hfuel : data.length < fuel) (hfull : data.length ≤ 1023) :
  ∃ done' data' out', done'.length + data'.length = done.length + data.length ∧ Waiting data'
    ∧ consume pattern fuel (done ++ (data ++ 0 :: junk)) done.length out
      = some (done' ++ (data' ++ 0 :: junk), done'.length, out')
    ∧ ∀ input, out' ++ matching pattern (data' ++ input) = out ++ matching pattern (data ++ input)
  := by
  induction fuel generalizing done data out with
  | zero => exact absurd hfuel (Nat.not_lt_zero _)
  | succ fuel ih =>
    rw [consume, List.drop_left]
    rcases strchr_cases data junk with ⟨hwait, hstr⟩ | ⟨line, rest, rfl, hnul, hnl, hstr⟩
    · refine ⟨done, data, out, rfl, hwait, ?_, fun _ => rfl⟩
      rw [hstr]
      rfl
    · rw [List.length_append, List.length_cons] at hfuel hfull
      have hshort : Short line := ⟨hnul, by omega⟩
      -- the line with its newline, or with the NUL that stays when it does not match
      have hnext : ∀ b, done ++ (line ++ b :: (rest ++ 0 :: junk))
          = (done ++ line ++ [b]) ++ (rest ++ 0 :: junk) := by simp
      have hlen : ∀ b, done.length + line.length + 1 = (done ++ line ++ [b]).length := by
        intro b
        simp only [List.length_append, List.length_singleton]
      have htake : (line ++ NEWLINE :: (rest ++ 0 :: junk)).take (line.length + 1)
          = line ++ [NEWLINE] := by simp [List.take_append]
      rw [hstr, List.append_assoc, List.cons_append]
      simp only [Option.bind_eq_bind, Option.bind_some, store_append, List.drop_left,
        cstr_append hnul, htake]
      by_cases hmatch : matchText pattern line
      · rw [if_pos hmatch, hnext, hlen NEWLINE]
        obtain ⟨done', data', out', hsum, hwait, hrun, hout⟩ := ih rest
          (done ++ line ++ [NEWLINE]) (out ++ (line ++ [NEWLINE])) (by omega) (by omega)
        refine ⟨done', data', out', ?_, hwait, hrun, ?_⟩
        · rw [hsum]
          simp only [List.length_append, List.length_cons, List.length_nil]
          omega
        · intro input
          rw [hout, List.append_assoc line, List.cons_append, matching_line hnl, if_pos hshort,
            if_pos hmatch, List.append_assoc]
      · rw [if_neg hmatch, hnext, hlen 0]
        obtain ⟨done', data', out', hsum, hwait, hrun, hout⟩ := ih rest
          (done ++ line ++ [0]) out (by omega) (by omega)
        refine ⟨done', data', out', ?_, hwait, hrun, ?_⟩
        · rw [hsum]
          simp only [List.length_append, List.length_cons, List.length_nil]
          omega
        · intro input
          rw [hout, List.append_assoc line, List.cons_append, matching_line hnl, if_pos hshort,
            if_neg hmatch, List.nil_append]

/-- A run of the loop prints what belongs to the data that is waiting and the rest of the input. -/
theorem grepLoop_data {split : ℕ → ℕ} {fuel : ℕ} {tail out : List UInt8}
    (hfuel : input.length < fuel) (hwait : Waiting data) (hbuf : data.length + tail.length = BUFSIZE)
    (hfull : data.length ≤ 1023) :
  grepLoop pattern split fuel (data ++ tail) data.length input out
    = some (out ++ matching pattern (data ++ input))
  := by
  induction fuel generalizing data tail input out with
  | zero => exact absurd hfuel (Nat.not_lt_zero _)
  | succ fuel ih =>
    rw [grepLoop]
    generalize hpiece : delivered (split input.length) (BUFSIZE - data.length - 1) input = piece
    have htake : piece = input.take piece.length := by
      rw [← hpiece, delivered, List.length_take, List.take_eq_take_min]
    have hlen : piece.length = min (min (max (split input.length) 1) (BUFSIZE - data.length - 1))
        input.length := by rw [← hpiece, delivered, List.length_take]
    have hsize : BUFSIZE = 1024 := rfl
    rw [guard, if_pos (by omega)]
    simp only [Option.pure_def, Option.bind_eq_bind, Option.bind_some]
    by_cases hpos : 0 < piece.length
    · have hinput : piece ++ input.drop piece.length = input := by
        nth_rewrite 1 [htake]
        exact List.take_append_drop _ _
      obtain ⟨a, junk, hjunk⟩ : ∃ a junk, tail.drop piece.length = a :: junk := by
        cases h : tail.drop piece.length with
        | nil =>
          rw [List.drop_eq_nil_iff] at h
          omega
        | cons a junk => exact ⟨a, junk, rfl⟩
      have hfill : fill (data ++ tail) data.length piece = some (data ++ (piece ++ a :: junk)) := by
        rw [fill, if_pos (by rw [List.length_append]; omega), List.take_left, ← hjunk,
          List.drop_length_add_append, List.append_assoc]
      have hroom : (data ++ piece).length ≤ 1023 := by
        rw [List.length_append]
        omega
      obtain ⟨done', data', out', hsum, hwait', hrun, hout⟩ :=
        consume_data pattern (BUFSIZE + 1) junk (data ++ piece) [] out (by omega) hroom
      have hstore : store (data ++ (piece ++ a :: junk)) (data.length + piece.length) 0
          = some ([] ++ (data ++ piece ++ 0 :: junk)) := by
        rw [store_append, List.nil_append, List.append_assoc]
      rw [List.length_nil, Nat.zero_add, List.length_append] at hsum
      have hmove : memmove (done' ++ (data' ++ 0 :: junk)) done'.length data'.length
          = some (data' ++ (done' ++ (data' ++ 0 :: junk)).drop data'.length) := by
        rw [memmove, if_pos (by simp), List.drop_left, List.take_left]
      have hjunk' : tail.length - piece.length = junk.length + 1 := by
        rw [← List.length_drop, hjunk, List.length_cons]
      have hleft : data.length + piece.length - done'.length = data'.length := by omega
      rw [List.length_nil] at hrun
      simp only [hpos, hfill, hstore, hrun, hleft, hmove, Option.bind_some, if_true, guard,
        show done'.length ≤ data.length + piece.length by omega,
        show 0 < data.length + piece.length by omega, Option.pure_def]
      have hfuel' : (input.drop piece.length).length < fuel := by
        rw [List.length_drop]
        omega
      have hbuf' : data'.length + ((done' ++ (data' ++ 0 :: junk)).drop data'.length).length
          = BUFSIZE := by
        simp only [List.length_drop, List.length_append, List.length_cons]
        omega
      rw [ih hfuel' hwait' hbuf' (by omega), hout, List.append_assoc data, hinput]
    · rw [if_neg hpos, hwait.matching]
      · rw [List.append_nil]
      · cases input with
        | nil => exact Or.inl rfl
        | cons a input =>
          right
          rw [List.length_cons] at hlen
          omega

/-- `grep` stays inside its buffer and prints the matching lines before the first that has a NUL or
does not fit, however the input is split. -/
theorem grep_prints (pattern input : List UInt8) (stale : Fin BUFSIZE → UInt8) (split : ℕ → ℕ) :
  grep pattern stale split input = some (matching pattern input)
  := by
  have hwait : Waiting [] := fun _ _ h => absurd h.symm (by simp)
  have hsize : ([] : List UInt8).length + (List.ofFn stale).length = BUFSIZE := by
    rw [List.length_ofFn, List.length_nil, Nat.zero_add]
  rw [grep]
  generalize List.ofFn stale = buf at hsize
  exact grepLoop_data (Nat.lt_succ_self _) hwait hsize (Nat.zero_le _)

end Loop

end Xv6.Grep
