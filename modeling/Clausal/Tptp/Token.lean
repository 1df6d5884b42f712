/-!
# Tokens of the TPTP first-order language

A text is split into words, quoted words, numerals and marks.  Blanks and comments may stand
between tokens: `%` comments run to the end of the line, and comments between `/*` and `*/` end at
the first `*/`.

At each place the longest mark is taken.  Two marks depend on what they touch: `).` is one mark
when nothing stands between its characters, and an opening parenthesis remembers whether it
directly follows the token before it.

## Main definitions

- `Token`, `Token.scan`
-/

namespace Clausal.Tptp

/-! ## Section 1: Tokens -/

/-- The binary connectives that do not associate. -/
inductive Connective where
  | iff
  | imp
  | revImp
  | xor
  | nor
  | nand
  deriving DecidableEq, Repr, Inhabited

/-- Tokens of a text. -/
inductive Token where
  /-- A word that starts with a lower-case letter. -/
  | lower (s : String)
  /-- A word that starts with an upper-case letter. -/
  | upper (s : String)
  /-- A word between single quotes, without the quotes. -/
  | quoted (s : String)
  /-- A sequence of decimal digits. -/
  | digits (s : String)
  /-- An opening parenthesis; `glued` if it directly follows the token before it. -/
  | lparen (glued : Bool)
  | rparen
  /-- A closing parenthesis directly followed by a full stop. -/
  | rparenDot
  | lbrack
  | rbrack
  | comma
  | colon
  | tilde
  | bar
  | ampersand
  | bang
  | question
  | equal
  | unequal
  | connective (c : Connective)
  deriving DecidableEq, Repr, Inhabited

/-! ## Section 2: Character classes -/

/-- Blanks between tokens. -/
def isBlank (c : Char) : Bool :=
  c = ' ' || c = '\t' || c = '\x0c' || c = '\r' || c = '\n'

/-- Characters of a word after the first. -/
def isWordChar (c : Char) : Bool :=
  c.isLower || c.isUpper || c.isDigit || c = '_'

/-- Characters between single quotes: printable ASCII except the quote itself. -/
def isQuotable (c : Char) : Bool :=
  (' ' ≤ c && c ≤ '&') || ('(' ≤ c && c ≤ '~')

/-! ## Section 3: Scanning -/

/-- What follows the end of a block comment. -/
def skipBlock : List Char → Option (List Char)
  | [] => none
  | '*' :: '/' :: cs => some cs
  | _ :: cs => skipBlock cs

theorem length_skipBlock {cs rest : List Char} (h : skipBlock cs = some rest) :
    rest.length ≤ cs.length := by
  fun_induction skipBlock cs with
  | case1 => simp at h
  | case2 cs =>
    obtain rfl : cs = rest := by simpa using h
    simp only [List.length_cons]
    omega
  | case3 c cs _ ih =>
    have := ih h
    simp only [List.length_cons]
    omega

/-- The longest mark at the start of a text, and what follows it. -/
def mark? (glued : Bool) : List Char → Option (Token × List Char)
  | '<' :: '=' :: '>' :: cs => some (.connective .iff, cs)
  | '<' :: '~' :: '>' :: cs => some (.connective .xor, cs)
  | '<' :: '=' :: cs => some (.connective .revImp, cs)
  | '=' :: '>' :: cs => some (.connective .imp, cs)
  | '~' :: '|' :: cs => some (.connective .nor, cs)
  | '~' :: '&' :: cs => some (.connective .nand, cs)
  | '!' :: '=' :: cs => some (.unequal, cs)
  | ')' :: '.' :: cs => some (.rparenDot, cs)
  | '(' :: cs => some (.lparen glued, cs)
  | ')' :: cs => some (.rparen, cs)
  | '[' :: cs => some (.lbrack, cs)
  | ']' :: cs => some (.rbrack, cs)
  | ',' :: cs => some (.comma, cs)
  | ':' :: cs => some (.colon, cs)
  | '~' :: cs => some (.tilde, cs)
  | '|' :: cs => some (.bar, cs)
  | '&' :: cs => some (.ampersand, cs)
  | '!' :: cs => some (.bang, cs)
  | '?' :: cs => some (.question, cs)
  | '=' :: cs => some (.equal, cs)
  | _ => none

theorem length_mark? {glued : Bool} {cs rest : List Char} {t : Token}
    (h : mark? glued cs = some (t, rest)) : rest.length < cs.length := by
  fun_cases mark? glued cs <;> simp_all only [mark?, Option.some.injEq, Prod.mk.injEq, reduceCtorEq]
  all_goals
    obtain ⟨-, rfl⟩ := h
    simp only [List.length_cons]
    omega

/-- The tokens of a text, or nothing if some part of it is no token.  `glued` tells whether a
    token ends directly before the text. -/
def scanFrom (glued : Bool) (text : List Char) : Option (List Token) :=
  match text with
  | [] => some []
  | c :: cs =>
    if isBlank c then scanFrom false cs
    else if c = '%' then scanFrom false (cs.dropWhile (· ≠ '\n'))
    else if c.isLower then
      (scanFrom true (cs.dropWhile isWordChar)).map
        (.lower (String.ofList (c :: cs.takeWhile isWordChar)) :: ·)
    else if c.isUpper then
      (scanFrom true (cs.dropWhile isWordChar)).map
        (.upper (String.ofList (c :: cs.takeWhile isWordChar)) :: ·)
    else if c.isDigit then
      (scanFrom true (cs.dropWhile Char.isDigit)).map
        (.digits (String.ofList (c :: cs.takeWhile Char.isDigit)) :: ·)
    else if c = '/' then
      match cs with
      | '*' :: cs =>
        match _h : skipBlock cs with
        | none => none
        | some rest => scanFrom false rest
      | _ => none
    else if c = '\x27' then
      match cs.takeWhile isQuotable, _h : cs.dropWhile isQuotable with
      | q :: qs, '\x27' :: rest => (scanFrom true rest).map (.quoted (String.ofList (q :: qs)) :: ·)
      | _, _ => none
    else
      match _h : mark? glued (c :: cs) with
      | none => none
      | some (t, rest) => (scanFrom true rest).map (t :: ·)
termination_by text.length
decreasing_by
  · simp
  · have := (List.dropWhile_sublist (· ≠ '\n') (l := cs)).length_le
    simp only [List.length_cons]
    omega
  · have := (List.dropWhile_sublist isWordChar (l := cs)).length_le
    simp only [List.length_cons]
    omega
  · have := (List.dropWhile_sublist isWordChar (l := cs)).length_le
    simp only [List.length_cons]
    omega
  · have := (List.dropWhile_sublist Char.isDigit (l := cs)).length_le
    simp only [List.length_cons]
    omega
  · have := length_skipBlock _h
    simp only [List.length_cons]
    omega
  · have := (List.dropWhile_sublist isQuotable (l := cs)).length_le
    simp only [_h, List.length_cons] at this ⊢
    omega
  · exact length_mark? _h

/-- The tokens of a text, or nothing if some part of it is no token. -/
def scan (text : String) : Option (List Token) :=
  scanFrom false text.toList

end Clausal.Tptp
