import Clausal.Distinct
import Clausal.Part

/-!
# Elements of terms

Term indexes see a term as the sequence of its symbols, read from the outside in and from left to
right.  Variables are numbered by first appearance, so terms that are equal up to renaming of
variables have the same sequence.

## Main definitions

- `Element`, `Element.arity`
- `Term.elements`
-/

namespace Clausal

/-- A symbol of a term. -/
inductive Element where
  | function (f : Ident) (arity : Nat)
  | constant (c : Ident)
  | variable (ordinal : Nat)
  deriving DecidableEq, Repr, Inhabited

namespace Element

/-- The number of terms that follow as arguments. -/
def arity : Element → Nat
  | .function _ n => n
  | .constant _ => 0
  | .variable _ => 0

/-- The outermost symbol of a term, a variable numbered by its place in the list. -/
def ofTerm (xs : List Ident) : Term → Element
  | .var x => .variable (xs.idxOf x)
  | .const c => .constant c
  | .app f args => .function f args.length

end Element

/-- The symbols of a term from the outside in and from left to right. -/
def Term.elements (t : Term) : List Element :=
  t.subterms.map (Element.ofTerm (dedup t.vars))

/-- The first term that a sequence of symbols spells, and what follows it; the first argument is
    the number of terms still open. -/
def splitTerms : Nat → List Element → List Element × List Element
  | 0, es => ([], es)
  | _ + 1, [] => ([], [])
  | n + 1, e :: es =>
    let (taken, rest) := splitTerms (n + e.arity) es
    (e :: taken, rest)

end Clausal
