import Clausal.Decimal
import Clausal.Ident
import Clausal.Text.Quoted

/-!
# Scalars

A scalar is an identifier or a plain value that stands in the place of one.  Truth values are the
same as the numbers one and zero, and a decimal fraction is the same as the integer that it stands
for.

## Main definitions

- `Scalar`, `Scalar.text`, `Scalar.quoted`
- `Scalar.key`: equal keys mean the same scalar
-/

namespace Clausal

/-- An identifier, a truth value or a decimal fraction. -/
inductive Scalar where
  | ident (i : Ident)
  | bool (b : Bool)
  | decimal (d : Decimal)
  deriving DecidableEq, Repr, Inhabited

/-- What tells scalars apart: an identifier, or the sign, mantissa and exponent of a binary
    number. -/
inductive ScalarKey where
  | ident (i : Ident)
  | binary (negative : Bool) (mantissa : Nat) (exponent : Int)
  deriving DecidableEq, Repr, Inhabited

namespace Scalar

/-- The plain text of a scalar. -/
def text : Scalar → String
  | .ident i => i.text
  | .bool true => "True"
  | .bool false => "False"
  | .decimal d => d.text

/-- The plain text of a scalar, in quotes if the scalar is a text itself. -/
def quoted : Scalar → String
  | .ident (.name s) => quoteText s
  | s => s.text

/-- What tells a scalar apart from others. -/
def key : Scalar → ScalarKey
  | .ident i => .ident i
  | .bool b => .ident (.num b.toInt)
  | .decimal d =>
    match d.toInt? with
    | some n => .ident (.num n)
    | none => .binary d.negative d.binary.1 d.binary.2

/-- Whether two scalars are the same. -/
def same (a b : Scalar) : Bool :=
  a.key = b.key

instance : BEq Scalar := ⟨same⟩

end Scalar

end Clausal
