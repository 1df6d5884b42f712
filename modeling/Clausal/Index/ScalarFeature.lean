import Clausal.Index.Feature
import Clausal.Scalar

/-!
# Features of symbols that are written as scalars

Truth values and decimal fractions may stand in the place of identifiers.  A clause does not tell
them from the numbers that they are the same as, so its *spelling* lists the scalars that it was
written with.  Features are the same if their symbols are, but they are ordered as they are written:
the order tells apart what is the same.

## Main definitions

- `Scalar.compare`: the order of scalars as they are written
- `ScalarFeature`, `ScalarFeature.compare`
- `FeatureScheme.spelled`: the scheme of a clause with a spelling
-/

namespace Clausal

namespace Scalar

/-- The place of a scalar's kind in the order of scalars: truth values and fractions come before
    numbers. -/
def rank : Scalar → Nat
  | .bool _ => 4
  | .decimal _ => 5
  | .ident i => if i.rank < 4 then i.rank else i.rank + 2

/-- Scalars are ordered by kind and then by their texts, identifiers as they always are. -/
def compare : Scalar → Scalar → Ordering
  | .ident i, .ident j => i.compare j
  | a, b => (Ord.compare a.rank b.rank).then (Ord.compare a.text b.text)

end Scalar

/-- A symbol as it is written within the literals of one sign. -/
structure ScalarFeature where
  symbol : Scalar
  positive : Bool
  deriving BEq, Repr, Inhabited

namespace ScalarFeature

/-- Features are ordered by symbol, the negative one first. -/
def compare (f g : ScalarFeature) : Ordering :=
  (f.symbol.compare g.symbol).then (Ord.compare f.positive g.positive)

/-- A feature with its symbol as the spelling has it. -/
def ofFeature (spelling : List Scalar) (f : Feature) : ScalarFeature where
  symbol := (spelling.find? (· == .ident f.symbol)).getD (.ident f.symbol)
  positive := f.positive

end ScalarFeature

/-- The vectors of a scheme with the symbols as the spelling has them. -/
def FeatureScheme.spelled (s : FeatureScheme Feature) (spelling : List Scalar) :
    FeatureScheme ScalarFeature where
  vector c := (s.vector c).map (Prod.map (.ofFeature spelling) id)
  compare := ScalarFeature.compare

end Clausal
