import Clausal.Clause
import Clausal.Part

/-!
# Features of clauses

A feature vector gives a clause a magnitude for each of several features.  The two kinds of vectors
in this file are made so that a clause that subsumes another has no greater magnitude for any
feature, for occurrence counts provided that the substitution merges no literals.

## Main definitions

- `Ident.compare`: a total order of identifiers
- `Feature`, `Feature.compare`
- `Clause.occurrences`, `Clause.symbolDepths`
- `FeatureScheme`: a choice of vectors together with an order of the features
-/

namespace Clausal

/-! ## Section 1: The order of identifiers -/

namespace Ident

/-- The place of an identifier's kind in the order of identifiers. -/
def rank : Ident → Nat
  | .null => 0
  | .skolem _ _ _ => 1
  | .standard _ _ _ => 2
  | .equality => 3
  | .num _ => 4
  | .name _ => 5

/-- The serial of a fresh name, and zero for others. -/
def serial : Ident → Nat
  | .skolem n _ _ => n
  | .standard n _ _ => n
  | _ => 0

/-- An identifier spelled in numbers, no two identifiers alike. -/
def code : Ident → List Int
  | .null => [0]
  | .skolem n of origin => 1 :: n :: origin.elim 0 (Int.ofNat · + 1) :: of.code
  | .standard n of origin => 2 :: n :: origin.elim 0 (Int.ofNat · + 1) :: of.code
  | .equality => [3]
  | .num n => [4, n]
  | .name s => 5 :: s.toList.map (Int.ofNat ·.toNat)

/-- Identifiers are ordered by kind, then by their texts, and fresh names then by their serials; the
    code tells apart what is left. -/
def compare (i j : Ident) : Ordering :=
  (Ord.compare i.rank j.rank).then
    ((Ord.compare i.text j.text).then
      ((Ord.compare i.serial j.serial).then (Ord.compare i.code j.code)))

end Ident

/-! ## Section 2: Features -/

/-- A symbol within the literals of one sign. -/
structure Feature where
  symbol : Ident
  positive : Bool
  deriving DecidableEq, Repr, Inhabited

namespace Feature

/-- Features are ordered by symbol, the negative one first. -/
def compare (f g : Feature) : Ordering :=
  (f.symbol.compare g.symbol).then (Ord.compare f.positive g.positive)

end Feature

/-- Add to the magnitude of a feature, or raise it, as the function says; a new feature starts at
    zero and goes to the end. -/
def adjust {φ : Type} [DecidableEq φ] (f : φ) (g : Nat → Nat) : List (φ × Nat) → List (φ × Nat)
  | [] => [(f, g 0)]
  | (f', n) :: v => if f' = f then (f', g n) :: v else (f', n) :: adjust f g v

namespace Term

/-- The constant or function symbol of a term that is no variable. -/
def symbol? : Term → Option Ident
  | .var _ => none
  | .const c => some c
  | .app f _ => some f

end Term

namespace Literal

/-- All occurrences of symbols in a literal, the predicate symbol included. -/
def symbols (l : Literal) : List Ident :=
  l.atom.symbol :: (l.atom.args.flatMap Term.subterms).filterMap Term.symbol?

end Literal

namespace Clause

/-- How often each symbol occurs in the literals of each sign.  The null name also counts the
    literals themselves. -/
def occurrences (c : Clause) : List (Feature × Nat) :=
  (c.literals.flatMap fun l => (Ident.null :: l.symbols).map fun s => Feature.mk s l.positive).foldl
    (fun v f => adjust f (· + 1) v) []

end Clause

mutual

/-- The symbols of a term, each with the depth at which it occurs; `d` is that of the term. -/
def Term.symbolDepths (d : Nat) : Term → List (Ident × Nat)
  | .var _ => []
  | .const c => [(c, d)]
  | .app f args => (f, d) :: Term.symbolDepthsList (d + 1) args

/-- The symbols of several terms at the same depth. -/
def Term.symbolDepthsList (d : Nat) : List Term → List (Ident × Nat)
  | [] => []
  | t :: ts => Term.symbolDepths d t ++ Term.symbolDepthsList d ts

end

namespace Clause

/-- The greatest depth at which each symbol occurs in the literals of each sign; predicate symbols
    are at depth one. -/
def symbolDepths (c : Clause) : List (Feature × Nat) :=
  (c.literals.flatMap fun l =>
    ((l.atom.symbol, 1) :: Term.symbolDepthsList 2 l.atom.args).map fun s =>
      (Feature.mk s.1 l.positive, s.2)).foldl
    (fun v f => adjust f.1 (max f.2) v) []

end Clause

/-! ## Section 3: Schemes -/

/-- A choice of feature vectors and an order of their features. -/
structure FeatureScheme (φ : Type) where
  vector : Clause → List (φ × Nat)
  compare : φ → φ → Ordering

namespace FeatureScheme

variable {φ : Type}

/-- The vector of a clause without zero magnitudes, in the order of features. -/
def sorted (s : FeatureScheme φ) (c : Clause) : List (φ × Nat) :=
  ((s.vector c).filter (·.2 ≠ 0)).mergeSort fun a b => (s.compare a.1 b.1).isLE

/-- The scheme of occurrence counts. -/
def occurrences : FeatureScheme Feature :=
  ⟨Clause.occurrences, Feature.compare⟩

/-- The scheme of symbol depths. -/
def symbolDepths : FeatureScheme Feature :=
  ⟨Clause.symbolDepths, Feature.compare⟩

end FeatureScheme

end Clausal
