import Clausal.Settings.Value

/-!
# Plain values from texts

A text is read as a truth value, null, an integer, a decimal fraction or a quoted text if it looks
like one, and as itself otherwise.  Integers may be written in decimal, in octal after `0`, in
hexadecimal after `0x` and in binary after `0b`, with underscores between the digits.  Numbers in
base sixty have colons between their digits.

## Main definitions

- `TextError`, `Setting.ofText`
-/

namespace Clausal

/-! ## Section 1: Errors -/

/-- Why a text gives no plain value. -/
inductive TextError where
  /-- It has a character that is not allowed anywhere. -/
  | character
  /-- A tab stands outside of quotes, a quote is not closed or an escape does not exist. -/
  | token
  /-- Something follows a closing quote. -/
  | trailing
  /-- A number has no digits, or a character has no such number. -/
  | number
  /-- It is a sign that stands for no value. -/
  | noValue
  deriving DecidableEq, Repr, Inhabited

/-- Whether a text may have a character: not if it is a control character other than a tab or a
    line break. -/
def isTextChar (c : Char) : Bool :=
  c ∈ ['\t', '\n', '\r', '\x85'] || (' ' ≤ c && c ≤ '~')
    || ('\xa0' ≤ c && c ≠ '\ufffe' && c ≠ '\uffff')

/-! ## Section 2: Numbers -/

/-- The value of a digit, hexadecimal ones included. -/
def digitValue? (c : Char) : Option Nat :=
  if c.isDigit then some (c.toNat - '0'.toNat)
  else if 'a' ≤ c && c ≤ 'f' then some (c.toNat - 'a'.toNat + 10)
  else if 'A' ≤ c && c ≤ 'F' then some (c.toNat - 'A'.toNat + 10)
  else none

/-- The number that digits of a base spell; underscores do not count. -/
def digitsValue? (base : Nat) (cs : List Char) : Option Nat :=
  (cs.filter (· ≠ '_')).foldlM (fun n c => do
    let d ← digitValue? c
    if d < base then some (n * base + d) else none) 0

/-- Whether digits stand for less than sixty: one digit, or two of which the first is below six. -/
def isSixtieth : List Char → Bool
  | [c] => c.isDigit
  | [t, c] => '0' ≤ t && t ≤ '5' && c.isDigit
  | _ => false

/-- The number that decimal digits spell, in base sixty if there are colons between them. -/
def readSixties? (cs : List Char) : Option Nat :=
  match (String.ofList cs).splitOn ":" |>.map String.toList with
  | (c :: cs) :: parts => do
    let n ← digitsValue? 10 (c :: cs)
    if c.isDigit && parts.all isSixtieth then
      some (parts.foldl (fun n p => n * 60 + decimalValue p) n)
    else none
  | _ => none

/-- The natural number that a text spells. -/
def readNat? : List Char → Option Nat
  | ['0'] => some 0
  | '0' :: 'b' :: c :: cs => digitsValue? 2 (c :: cs)
  | '0' :: 'x' :: c :: cs => digitsValue? 16 (c :: cs)
  | '0' :: c :: cs => digitsValue? 8 (c :: cs)
  | cs => readSixties? cs

/-- Whether a text starts like a number in hexadecimal or binary and has only underscores where
    the digits should be. -/
def lacksDigits (cs : List Char) : Bool :=
  match (splitSign cs).2 with
  | '0' :: 'b' :: c :: cs | '0' :: 'x' :: c :: cs => (c :: cs).all (· = '_')
  | _ => false

/-- The integer that a text spells. -/
def readInt? (cs : List Char) : Option Int :=
  let (negative, cs) := splitSign cs
  (readNat? cs).map fun n => if negative then -(n : Int) else n

/-- The exponent after a fraction: nothing, or `e`, a sign and digits. -/
def readPower? (cs : List Char) : Option Int :=
  if cs.isEmpty || (cs.drop 1).head? = some '+' || (cs.drop 1).head? = some '-' then
    Decimal.readExponent? cs
  else none

/-- The decimal fraction that a text spells: digits, a point, more digits and an exponent.  A
    number in base sixty has no exponent.  Without digits in front of the point there is no sign
    and a digit after the point. -/
def readDecimal? (cs : List Char) : Option Decimal := do
  let (negative, body) := splitSign cs
  let whole := body.takeWhile (· ≠ '.')
  let rest ← (body.dropWhile (· ≠ '.')).tail?
  let isPart (c : Char) : Bool := c.isDigit || c = '_'
  let fraction := (rest.takeWhile isPart).filter (· ≠ '_')
  let power ← readPower? (rest.dropWhile isPart)
  let startsWithDigit := (rest.head?.map Char.isDigit).getD false
  let n ←
    if whole.isEmpty then (if body = cs && startsWithDigit then some 0 else none)
    else readSixties? whole
  let coefficient := n * Nat.pow 10 fraction.length + decimalValue fraction
  if whole.contains ':' && !(rest.all isPart) then none
  else some ⟨negative, coefficient, power - fraction.length⟩

/-! ## Section 3: Quoted texts -/

/-- The text up to a closing single quote, where a doubled quote stands for one, and the rest. -/
def unquoteSingle : List Char → Except TextError (List Char × List Char)
  | '\x27' :: '\x27' :: cs => (unquoteSingle cs).map fun r => ('\x27' :: r.1, r.2)
  | '\x27' :: cs => .ok ([], cs)
  | c :: cs => (unquoteSingle cs).map fun r => (c :: r.1, r.2)
  | [] => .error .token

/-- The characters that a backslash and another character stand for. -/
def namedEscapes : List (Char × Char) :=
  [('0', '\x00'), ('a', '\x07'), ('b', '\x08'), ('t', '\t'), ('\t', '\t'), ('n', '\n'),
    ('v', '\x0b'), ('f', '\x0c'), ('r', '\r'), ('e', '\x1b'), (' ', ' '), ('"', '"'), ('/', '/'),
    ('\\', '\\'), ('N', '\x85'), ('_', '\xa0'), ('L', '\u2028'), ('P', '\u2029')]

/-- How many hexadecimal digits follow a backslash and a character. -/
def hexEscapes : List (Char × Nat) :=
  [('x', 2), ('u', 4), ('U', 8)]

/-- What comes next in a text between double quotes: a character, what a backslash escapes, or a
    number of hexadecimal digits after those that spell `value`. -/
inductive QuotePlace where
  | plain
  | escape
  | hex (left value : Nat)

/-- The text up to a closing double quote, where a backslash escapes characters, and the rest. -/
def unquoteDouble : QuotePlace → List Char → Except TextError (List Char × List Char)
  | _, [] => .error .token
  | .plain, c :: cs =>
    if c = '"' then .ok ([], cs)
    else if c = '\\' then unquoteDouble .escape cs
    else (unquoteDouble .plain cs).map fun r => (c :: r.1, r.2)
  | .escape, c :: cs =>
    match namedEscapes.lookup c, hexEscapes.lookup c with
    | some d, _ => (unquoteDouble .plain cs).map fun r => (d :: r.1, r.2)
    | none, some n => unquoteDouble (.hex n 0) cs
    | none, none => .error .token
  | .hex left value, c :: cs =>
    match digitValue? c with
    | none => .error .token
    | some d =>
      let value := 16 * value + d
      if left > 1 then unquoteDouble (.hex (left - 1) value) cs
      else if value ≥ 0x110000 then .error .number
      else (unquoteDouble .plain cs).map fun r => (Char.ofNat value :: r.1, r.2)

/-- The quoted text that a text spells, if it starts with a quote.  Only blanks may follow. -/
def readQuoted? (cs : List Char) : Option (Except TextError String) :=
  let read := match cs with
    | '\x27' :: cs => some (unquoteSingle cs)
    | '"' :: cs => some (unquoteDouble .plain cs)
    | _ => none
  read.map fun r => do
    let (q, rest) ← r
    match rest.dropWhile (· = ' ') with
    | [] => .ok (String.ofList q)
    | '\t' :: _ => .error .token
    | _ => .error .trailing

/-! ## Section 4: Lines -/

/-- The characters without blanks around them. -/
def trimBlanks (cs : List Char) : List Char :=
  ((cs.dropWhile (· = ' ')).reverse.dropWhile (· = ' ')).reverse

/-- The lines of a text. -/
def textLines (s : String) : List (List Char) :=
  let s := (s.replace "\r\n" "\n").map fun c => if c = '\r' || c = '\x85' then '\n' else c
  (s.splitOn "\n").map String.toList

/-- Fold lines into one: a line break becomes a blank, and several ones in turn become one fewer.
    Blanks at the ends of lines go. -/
def foldLines (s : String) : List Char :=
  let join (l : List Char) (after : Nat × List Char) : Nat × List Char :=
    match trimBlanks l, after with
    | [], (n, cs) => (n + 1, cs)
    | l, (_, []) => (0, l)
    | l, (0, cs) => (0, l ++ ' ' :: cs)
    | l, (n, cs) => (0, l ++ List.replicate n '\n' ++ cs)
  ((textLines s).foldr join (0, [])).2

/-! ## Section 5: Plain values -/

/-- Texts that stand for true. -/
def trueTexts : List String :=
  ["true", "True", "TRUE", "yes", "Yes", "YES", "on", "On", "ON"]

/-- Texts that stand for false. -/
def falseTexts : List String :=
  ["false", "False", "FALSE", "no", "No", "NO", "off", "Off", "OFF"]

/-- Texts that stand for null. -/
def nullTexts : List String :=
  ["", "~", "null", "Null", "NULL"]

/-- Texts that stand for no value. -/
def voidTexts : List String :=
  ["=", "<<"]

/-- The plain value that the characters of one line spell. -/
def Setting.ofLine (cs : List Char) : Except TextError Setting :=
  let s := String.ofList cs
  if cs.contains '\t' then .error .token
  else if s ∈ nullTexts then .ok .null
  else if s ∈ trueTexts then .ok (.bool true)
  else if s ∈ falseTexts then .ok (.bool false)
  else if s ∈ voidTexts then .error .noValue
  else if lacksDigits cs then .error .number
  else
    match readInt? cs, readDecimal? cs with
    | some n, _ => .ok (.int n)
    | none, some d => .ok (.decimal d)
    | none, none => .ok (.text s)

/-- The plain value that a text spells. -/
def Setting.ofText (s : String) : Except TextError Setting :=
  if s.toList.all isTextChar then
    let line := foldLines s
    match readQuoted? line with
    | some q => q.map .text
    | none => ofLine line
  else .error .character

end Clausal
