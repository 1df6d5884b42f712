/-!
# Identifiers

Every variable, constant, function and predicate symbol is named by an identifier.  Users name
symbols by texts, integers or the null name; normalisation introduces *fresh* names, which are
told apart by a serial number, so that the fresh names of two runs never collide even when they
stand for the same user name.

## Main definitions

- `Ident`: identifiers, with decidable equality
- `Ident.text`: the plain text of an identifier
- `Ident.listedBefore`: the order of identifiers in listings
-/

namespace Clausal

/-- Name of a symbol.

    The two kinds of fresh names carry a `serial`, which alone tells them apart: a supply of
    names hands out each serial once, together with one value of the other fields.  `origin` is
    the place of the formula the name was introduced for in the record that the supply keeps. -/
inductive Ident where
  /-- The null name. -/
  | null
  /-- An integer used as a name. -/
  | num (n : Int)
  /-- A text used as a name. -/
  | name (s : String)
  /-- The name of the equality relation. -/
  | equality
  /-- A variable introduced when formulas are standardised apart; `of` is what it stands for. -/
  | standard (serial : Nat) (of : Ident) (origin : Option Nat)
  /-- A Skolem symbol; `of` names the existential variable it replaces. -/
  | skolem (serial : Nat) (of : Ident) (origin : Option Nat)
  deriving DecidableEq, Repr, Inhabited

namespace Ident

/-- The plain text of an identifier.  A standardised variable is written like the name it stands
    for, a Skolem symbol is marked by `sk_`. -/
def text : Ident → String
  | null => "None"
  | num n => toString n
  | name s => s
  | equality => "="
  | standard _ of _ => of.text
  | skolem _ of _ => "sk_" ++ of.text

/-- Whether an identifier comes before another in a listing: null, numbers, texts, equality, then
    standardised variables by the places of their serials, and Skolem symbols. -/
def listedBefore (place : Nat → Nat) : Ident → Ident → Bool
  | num m, num n => m < n
  | name s, name t => s < t
  | standard m _ _, standard n _ _ => place m < place n
  | skolem m _ _, skolem n _ _ => m < n
  | i, j => i.ctorIdx < j.ctorIdx

end Ident

end Clausal
