import Mathlib.Tactic

/-!
# The documentation generator

The main loop of `parse_markdown` in `docs/html/build.py`.  Each iteration takes the line at its
index for the start of a block and moves the index behind the block.  A list is handed to
`parse_list`, which has a test of its own for an item: a marker with a single space behind it
passes the test of the main loop only, and the index stays where it is.

What an iteration adds to the page is left open, as the index does not depend on it.
-/

namespace Xv6.Markdown

/-! ### Patterns -/

/-- The parts of a regular expression: a character of a class, one or none of them, any number of
them, or the end of the line. -/
inductive Piece
  | one (p : Char → Bool)
  | opt (p : Char → Bool)
  | many (p : Char → Bool)
  | stop

/-- The rests of a line behind any number of characters of a class. -/
def restsOfMany (p : Char → Bool) : List Char → List (List Char)
  | [] => [[]]
  | c :: l => (c :: l) :: if p c then restsOfMany p l else []

/-- The rests of a line behind what matches the part. -/
def Piece.rests : Piece → List Char → List (List Char)
  | one _, [] => []
  | one p, c :: l => if p c then [l] else []
  | opt _, [] => [[]]
  | opt p, c :: l => (c :: l) :: if p c then [l] else []
  | many p, l => restsOfMany p l
  | stop, l => if l = [] then [[]] else []

/-- `re.match`: the expression matches at the start of the line. -/
def reMatch (pattern : List Piece) (line : List Char) : Bool :=
  pattern.foldl (fun rests piece => rests.flatMap piece.rests) [line] ≠ []

/-- The class `\s`. -/
def isSpace (c : Char) : Bool :=
  c.toNat ∈ [0x20, 0x85, 0xa0, 0x1680, 0x2028, 0x2029, 0x202f, 0x205f, 0x3000]
    ∨ 9 ≤ c.toNat ∧ c.toNat ≤ 13 ∨ 28 ≤ c.toNat ∧ c.toNat ≤ 31
    ∨ 0x2000 ≤ c.toNat ∧ c.toNat ≤ 0x200a

/-- The class `.`. -/
def isDot (c : Char) : Bool := c ≠ '\n'

/-- `str.strip`. -/
def strip (line : List Char) : List Char :=
  ((line.dropWhile isSpace).reverse.dropWhile isSpace).reverse

/-- `^(#{1,6})\s+(.+?)(?:\s*\{#(\S+)\})?\s*$`, without the group that may be left out: what it
could match `.+?` matches, too. -/
def header : List Piece :=
  [.one (· = '#'), .opt (· = '#'), .opt (· = '#'), .opt (· = '#'), .opt (· = '#'), .opt (· = '#'),
    .one isSpace, .many isSpace, .one isDot, .many isDot, .many isSpace, .stop]

/-- `^---+$`. -/
def rule : List Piece := [.one (· = '-'), .one (· = '-'), .one (· = '-'), .many (· = '-'), .stop]

/-- `^[\s|:,-]+$`. -/
def separator : List Piece :=
  let p c := isSpace c || c ∈ ['|', ':', ',', '-']
  [.one p, .many p, .stop]

/-- `^[\s]*[-*+]\s+`. -/
def bullet : List Piece :=
  [.many isSpace, .one (· ∈ ['-', '*', '+']), .one isSpace, .many isSpace]

/-- `^[\s]*\d+\.\s+`, with the class `\d`. -/
def numbered (digit : Char → Bool) : List Piece :=
  [.many isSpace, .one digit, .many digit, .one (· = '.'), .one isSpace, .many isSpace]

/-- The expressions of `parse_list` have a group `(.+)` at the end. -/
def content : List Piece := [.one isDot, .many isDot]

/-! ### Blocks -/

inductive Block
  | header | fence | rule | table | quote | bullets | numbers | empty | paragraph
  deriving DecidableEq

variable (digit : Char → Bool) {σ : Type} (emit : List (List Char) → Block → ℕ → ℕ → σ → σ)
  {lines : List (List Char)}

/-- The tests at the start of an iteration. -/
def dispatch (lines : List (List Char)) (i : ℕ) : Block :=
  let line := lines.getD i []
  if reMatch header line then .header
  else if "```".toList.isPrefixOf line then .fence
  else if reMatch rule (strip line) then .rule
  else if '|' ∈ line ∧ i + 1 < lines.length ∧ reMatch separator (lines.getD (i + 1) []) then .table
  else if "> ".toList.isPrefixOf line then .quote
  else if reMatch bullet line then .bullets
  else if reMatch (numbered digit) line then .numbers
  else if strip line = [] then .empty
  else .paragraph

/-- `while i < n and p(lines[i]): i += 1`. -/
def skip (p : List Char → Bool) (lines : List (List Char)) (i : ℕ) : ℕ :=
  i + ((lines.drop i).takeWhile p).length

theorem le_skip (p : List Char → Bool) (lines : List (List Char)) (i : ℕ) : i ≤ skip p lines i :=
  Nat.le_add_right _ _

theorem lt_skip {p : List Char → Bool} {lines : List (List Char)} {i : ℕ} (hi : i < lines.length)
    (hp : p (lines.getD i []) = true) :
  i < skip p lines i
  := by
  rw [List.getD_eq_getElem?_getD, List.getElem?_eq_getElem hi, Option.getD_some] at hp
  rw [skip, List.drop_eq_getElem_cons hi, List.takeWhile_cons_of_pos hp, List.length_cons]
  omega

/-- `parse_list` takes the line for an item. -/
def isItem (line : List Char) : Bool :=
  reMatch (bullet ++ content) line || reMatch (numbered digit ++ content) line

/-- A line that goes on with the item before it. -/
def continues (line : List Char) : Bool :=
  strip line ≠ [] ∧ ¬ reMatch bullet line ∧ ¬ reMatch (numbered digit) line
    ∧ ¬ "#".toList.isPrefixOf line

/-- The index that `parse_list` returns. -/
def parseList (lines : List (List Char)) (i : ℕ) : ℕ :=
  if h : i < lines.length then
    if isItem digit (lines.getD i []) then
      parseList lines (skip (continues digit) lines (i + 1))
    else i
  else i
termination_by lines.length - i
decreasing_by have := le_skip (continues digit) lines (i + 1); omega

/-- The index after an iteration. -/
def next (lines : List (List Char)) (i : ℕ) : ℕ :=
  match dispatch digit lines i with
  | .header | .rule | .empty | .paragraph => i + 1
  | .fence => skip (fun line => ¬ "```".toList.isPrefixOf line) lines (i + 1) + 1
  | .table => skip (fun line => '|' ∈ line) lines i
  | .quote => skip (fun line => "> ".toList.isPrefixOf line) lines i
  | .bullets | .numbers => parseList digit lines i

/-- The main loop for a number of iterations, with what it has put together so far. -/
def mainLoop (lines : List (List Char)) : ℕ → ℕ → σ → Option σ
  | 0, _, _ => none
  | fuel + 1, i, page =>
    if i < lines.length then
      mainLoop lines fuel (next digit lines i)
        (emit lines (dispatch digit lines i) i (next digit lines i) page)
    else some page

/-- `parse_markdown`, if it ends within a number of iterations. -/
def parseMarkdown (text : List Char) (page : σ) (fuel : ℕ) : Option σ :=
  mainLoop digit emit (text.splitOn '\n') fuel 0 page

/-! ### Progress -/

/-- The line is taken for the start of a list, and `parse_list` does not take it for an item. -/
def Refused (lines : List (List Char)) (i : ℕ) : Prop :=
  (dispatch digit lines i = .bullets ∨ dispatch digit lines i = .numbers)
    ∧ isItem digit (lines.getD i []) = false

instance (lines : List (List Char)) (i : ℕ) : Decidable (Refused digit lines i) :=
  inferInstanceAs (Decidable (_ ∧ _))

section

variable {lines : List (List Char)} {i : ℕ}

variable {digit} in
theorem bar_of_dispatch (h : dispatch digit lines i = .table) : '|' ∈ lines.getD i [] := by
  dsimp only [dispatch] at h
  split_ifs at h with _ _ _ htable
  exact htable.1

variable {digit} in
theorem quote_of_dispatch (h : dispatch digit lines i = .quote) :
  "> ".toList.isPrefixOf (lines.getD i [])
  := by
  dsimp only [dispatch] at h
  split_ifs at h
  assumption

theorem le_parseList (lines : List (List Char)) (i : ℕ) : i ≤ parseList digit lines i := by
  induction hn : lines.length - i using Nat.strong_induction_on generalizing i with
  | h n ih =>
    have hskip := le_skip (continues digit) lines (i + 1)
    rw [parseList]
    split_ifs with hi hitem
    · have := ih _ (by omega) (skip (continues digit) lines (i + 1)) rfl
      omega
    · exact Nat.le_refl i
    · exact Nat.le_refl i

theorem lt_parseList_iff (hi : i < lines.length) :
  i < parseList digit lines i ↔ isItem digit (lines.getD i []) = true
  := by
  have hskip := le_skip (continues digit) lines (i + 1)
  have hle := le_parseList digit lines (skip (continues digit) lines (i + 1))
  rw [parseList, dif_pos hi]
  split_ifs with hitem
  · exact iff_of_true (by omega) hitem
  · exact iff_of_false (Nat.lt_irrefl i) hitem

theorem le_next (lines : List (List Char)) (i : ℕ) : i ≤ next digit lines i := by
  unfold next
  cases dispatch digit lines i with
  | header | rule | empty | paragraph => exact Nat.le_succ i
  | fence => exact ((Nat.le_succ i).trans (le_skip _ lines (i + 1))).trans (Nat.le_succ _)
  | table | quote => exact le_skip _ lines i
  | bullets | numbers => exact le_parseList digit lines i

/-- An iteration moves the index on, unless `parse_list` refuses the line. -/
theorem lt_next_iff (hi : i < lines.length) : i < next digit lines i ↔ ¬ Refused digit lines i := by
  have hlist := lt_parseList_iff digit hi
  unfold next Refused
  cases hblock : dispatch digit lines i with
  | header | rule | empty | paragraph => simp
  | fence =>
    have := le_skip (fun line => ¬ "```".toList.isPrefixOf line) lines (i + 1)
    simp only [reduceCtorEq, or_self, false_and, not_false_eq_true, iff_true]
    omega
  | table => simpa using lt_skip hi (by simpa using bar_of_dispatch hblock)
  | quote => simpa using lt_skip hi (by simpa using quote_of_dispatch hblock)
  | bullets | numbers => simp [hlist]

end

/-- A loop that ends has met no line that `parse_list` refuses: it would not have left it. -/
theorem not_refused_of_mainLoop (fuel : ℕ) {i : ℕ} {page page' : σ}
    (h : mainLoop digit emit lines fuel i page = some page') (k : ℕ)
    (hk : (next digit lines)^[k] i < lines.length) :
  ¬ Refused digit lines ((next digit lines)^[k] i)
  := by
  induction fuel generalizing i k page with
  | zero => simp [mainLoop] at h
  | succ fuel ih =>
    have hi : i < lines.length :=
      (Function.id_le_iterate_of_id_le (le_next digit lines) k i).trans_lt hk
    rw [mainLoop, if_pos hi] at h
    cases k with
    | zero =>
      intro hrefused
      have hstay : next digit lines i = i :=
        Nat.le_antisymm (not_lt.mp fun hlt => (lt_next_iff digit hi).mp hlt hrefused)
          (le_next digit lines i)
      rw [hstay] at h
      exact ih h 0 hk hrefused
    | succ k => exact ih h k hk

theorem mainLoop_ends (i : ℕ) (page : σ) (h : ∀ k, (next digit lines)^[k] i < lines.length →
      ¬ Refused digit lines ((next digit lines)^[k] i)) :
  ∃ fuel page', mainLoop digit emit lines fuel i page = some page'
  := by
  induction hn : lines.length - i using Nat.strong_induction_on generalizing i page with
  | h n ih =>
    by_cases hi : i < lines.length
    · have hlt := (lt_next_iff digit hi).mpr (h 0 hi)
      obtain ⟨fuel, page', hend⟩ := ih _ (by omega) (next digit lines i)
        (emit lines (dispatch digit lines i) i (next digit lines i) page) (fun k => h (k + 1)) rfl
      exact ⟨fuel + 1, page', by rw [mainLoop, if_pos hi, hend]⟩
    · exact ⟨1, page, by rw [mainLoop, if_neg hi]⟩

/-- An iteration moves the index on exactly on the lines that `parse_list` does not refuse, and
`parse_markdown` ends exactly if its loop comes to no other line. -/
theorem parseMarkdown_ends_iff (text : List Char) (page : σ) :
  let lines := text.splitOn '\n'
  (∀ i < lines.length, i < next digit lines i ↔ ¬ Refused digit lines i)
    ∧ ((∃ fuel page', parseMarkdown digit emit text page fuel = some page')
      ↔ ∀ k, (next digit lines)^[k] 0 < lines.length →
        ¬ Refused digit lines ((next digit lines)^[k] 0))
  := by
  refine ⟨fun i hi => lt_next_iff digit hi, ?_, mainLoop_ends digit emit 0 page⟩
  rintro ⟨fuel, page', h⟩
  exact not_refused_of_mainLoop digit emit fuel h

/-- A page with a header, a list and a paragraph ends. -/
theorem parseMarkdown_ends_list :
  ∃ fuel page', parseMarkdown Char.isDigit (fun _ block _ _ page => page ++ [block])
    "# a\n- b\n  c\n1. d\n\ne".toList [] fuel = some page'
  := by
  have h : ∀ i < ("# a\n- b\n  c\n1. d\n\ne".toList.splitOn '\n').length,
    ¬ Refused Char.isDigit ("# a\n- b\n  c\n1. d\n\ne".toList.splitOn '\n') i := by decide
  exact (parseMarkdown_ends_iff _ _ _ _).2.mpr fun k hk => h _ hk

/-- A marker and a space, with nothing behind them: the loop stays at the line. -/
theorem parseMarkdown_spins :
  ¬ 0 < next Char.isDigit ("- ".toList.splitOn '\n') 0
    ∧ ¬ ∃ fuel page', parseMarkdown Char.isDigit (fun _ block _ _ page => page ++ [block])
      "- ".toList [] fuel = some page'
  := by
  have hrefused : Refused Char.isDigit ("- ".toList.splitOn '\n') 0 := by decide
  have hlines : 0 < ("- ".toList.splitOn '\n').length := by decide
  refine ⟨fun h => (lt_next_iff _ hlines).mp h hrefused, ?_⟩
  rintro ⟨fuel, page', h⟩
  exact not_refused_of_mainLoop _ _ fuel h 0 hlines hrefused

end Xv6.Markdown
