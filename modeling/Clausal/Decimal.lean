/-!
# Decimal fractions

A decimal fraction is a coefficient times a power of ten.  It stands for the binary number of 53
digits that is nearest to it, of two equally near ones the one with an even mantissa, so two
fractions are the same number if they have the same nearest binary number.

## Main definitions

- `Decimal`, `Decimal.ofChars?`
- `Decimal.binary`: the nearest binary number
- `Decimal.shortest`, `Decimal.text`: the fraction with the fewest digits that is the same number
- `Decimal.toInt?`: the integer that a fraction stands for
-/

namespace Clausal

/-- A decimal fraction: a sign, a coefficient and the power of ten that it is multiplied by. -/
structure Decimal where
  negative : Bool
  coefficient : Nat
  exponent : Int
  deriving DecidableEq, Repr, Inhabited

/-- A sign in front of a text, and the rest. -/
def splitSign : List Char → Bool × List Char
  | '-' :: cs => (true, cs)
  | '+' :: cs => (false, cs)
  | cs => (false, cs)

/-- The number that decimal digits spell. -/
def decimalValue (cs : List Char) : Nat :=
  cs.foldl (fun n c => n * 10 + (c.toNat - '0'.toNat)) 0

namespace Decimal

/-! ## Section 1: Reading -/

/-- The exponent that a text spells: nothing, or `e` and an integer. -/
def readExponent? : List Char → Option Int
  | [] => some 0
  | c :: cs =>
    let (negative, ds) := splitSign cs
    if (c = 'e' || c = 'E') && !ds.isEmpty && ds.all Char.isDigit then
      some (if negative then -(decimalValue ds : Int) else decimalValue ds)
    else none

/-- The fraction that a text spells: a sign, digits with or without a point among them, and an
    exponent.  The sign and the exponent may be missing. -/
def ofChars? (cs : List Char) : Option Decimal :=
  let (negative, cs) := splitSign cs
  let whole := cs.takeWhile Char.isDigit
  let rest := cs.dropWhile Char.isDigit
  let (fraction, rest) := match rest with
    | '.' :: rest => (rest.takeWhile Char.isDigit, rest.dropWhile Char.isDigit)
    | rest => ([], rest)
  if whole.isEmpty && fraction.isEmpty then none
  else
    (readExponent? rest).map fun e =>
      ⟨negative, decimalValue (whole ++ fraction), e - fraction.length⟩

/-! ## Section 2: The nearest binary number -/

/-- The quotient of two numbers, rounded to the nearest integer, from the middle to the even
    one. -/
def roundDiv (n k : Nat) : Nat :=
  let q := n / k
  let twice := 2 * (n % k)
  if twice > k || (twice = k && q % 2 = 1) then q + 1 else q

/-- A quotient multiplied by a power of two, as a quotient. -/
def scaled (n k : Nat) (e : Int) : Nat × Nat :=
  (n * Nat.pow 2 e.toNat, k * Nat.pow 2 (-e).toNat)

/-- The number of digits before the point, negative if zeros follow it. -/
def point (d : Decimal) : Int :=
  (Nat.toDigits 10 d.coefficient).length + d.exponent

/-- The mantissa, which has at most 53 binary digits, and the exponent of the nearest binary
    number; the sign is left out.  No exponent is below `-1074`, so tiny numbers become zero, and
    numbers beyond all exponents become `2 ^ 1024`. -/
def binary (d : Decimal) : Nat × Int :=
  if d.coefficient = 0 || d.point < -330 then (0, -1074)
  else if d.point > 310 then (1, 1024)
  else
    let n := d.coefficient * Nat.pow 10 d.exponent.toNat
    let k := Nat.pow 10 (-d.exponent).toNat
    let guess : Int := n.log2 - k.log2
    let (n', k') := scaled n k (-guess)
    let e := max ((if k' ≤ n' then guess else guess - 1) - 52) (-1074)
    let (n, k) := scaled n k (-e)
    let m := roundDiv n k
    if m = Nat.pow 2 53 then (Nat.pow 2 52, e + 1) else (m, e)

/-- Whether a fraction stands for zero. -/
def isZero (d : Decimal) : Bool :=
  d.binary.1 = 0

/-- The integer that a fraction stands for, if it does. -/
def toInt? (d : Decimal) : Option Int :=
  let (m, e) := d.binary
  let unit := Nat.pow 2 (-e).toNat
  if e > 971 || m % unit ≠ 0 then none
  else
    let n : Int := (m * Nat.pow 2 e.toNat / unit : Nat)
    some (if d.negative then -n else n)

/-! ## Section 3: Writing -/

/-- The two fractions with the given exponent between which a quotient lies, the nearer one
    first. -/
def neighbours (negative : Bool) (n k : Nat) (exponent : Int) : List Decimal :=
  let n := n * Nat.pow 10 (-exponent).toNat
  let k := k * Nat.pow 10 exponent.toNat
  let near := roundDiv n k
  let other := if near = n / k then near + 1 else n / k
  [⟨negative, near, exponent⟩, ⟨negative, other, exponent⟩]

/-- The fraction with the fewest digits that has the same nearest binary number, and of several
    ones the nearest to that number.  Seventeen digits always do. -/
def shortest (d : Decimal) : Decimal :=
  let (m, e) := d.binary
  if m = 0 then ⟨d.negative, 0, 0⟩
  else if e > 971 then d
  else
    let (n, k) := scaled m 1 e
    let all := (List.range 17).flatMap fun i : Nat => neighbours d.negative n k (d.point - 1 - i)
    (all.find? fun c => c.binary = (m, e)).getD d

/-- Digits with a point after the given number of them, and at least one digit on both sides. -/
def positional (ds : List Char) (point : Int) : List Char :=
  if point ≤ 0 then ['0', '.'] ++ List.replicate (-point).toNat '0' ++ ds
  else if point ≥ ds.length then
    ds ++ List.replicate (point - ds.length).toNat '0' ++ ['.', '0']
  else ds.take point.toNat ++ '.' :: ds.drop point.toNat

/-- Digits with a point after the first one, and an exponent of at least two digits. -/
def scientific (ds : List Char) (point : Int) : List Char :=
  let e := point - 1
  let power := Nat.toDigits 10 e.natAbs
  ds.take 1 ++ (if ds.length ≤ 1 then [] else '.' :: ds.drop 1)
    ++ ['e', if e < 0 then '-' else '+'] ++ (if power.length < 2 then '0' :: power else power)

/-- The text of a fraction, with as few digits as tell its number.  The point stands among the
    digits if the number is not below `0.0001` and has at most sixteen digits before the point. -/
def text (d : Decimal) : String :=
  let d := d.shortest
  let all := Nat.toDigits 10 d.coefficient
  let ds := (all.reverse.dropWhile (· = '0')).reverse
  let body :=
    if ds.isEmpty then ['0', '.', '0']
    else if -4 < d.point && d.point ≤ 16 then positional ds d.point
    else scientific ds d.point
  String.ofList (if d.negative then '-' :: body else body)

end Decimal

end Clausal
