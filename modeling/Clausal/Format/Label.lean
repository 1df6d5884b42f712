import Clausal.Scalar

/-!
# Labels

Names that have no useful text of their own get readable labels.  Labels are given within a *scope*:
in one scope an identifier, or a scalar in its place, always gets the same label, and different
identifiers of a kind never share one.

## Main definitions

- `Labeller`: a way of giving labels
- `LabelScope`, `LabelScope.label`: the labels given so far, and the next one
- `defaultLabeller`
-/

namespace Clausal

/-! ## Section 1: Labellers and scopes -/

/-- A way of giving labels. -/
inductive Labeller where
  /-- The plain text of the identifier. -/
  | plain
  /-- The labels of a list, one after the other. -/
  | labelSet (labels : List String)
  /-- The plain text with the first unused number as a subscript. -/
  | subscript
  /-- A labeller for each of texts, integers, standardised variables and Skolem symbols. -/
  | byKind (text num standard skolem : Labeller)
  deriving Repr, Inhabited

/-- Labels given so far. -/
inductive LabelScope where
  | plain
  /-- `left` are the unused ones of `total` labels. -/
  | labelSet (left : List String) (total : Nat) (given : List (ScalarKey × String))
  | subscript (given : List (ScalarKey × String))
  | byKind (text num standard skolem : LabelScope)
  deriving Repr, Inhabited

/-- A scope without labels. -/
def Labeller.scope : Labeller → LabelScope
  | .plain => .plain
  | .labelSet labels => .labelSet labels labels.length []
  | .subscript => .subscript []
  | .byKind text num standard skolem => .byKind text.scope num.scope standard.scope skolem.scope

/-- Why there is no label: all of a given number of labels are used. -/
inductive LabelError where
  | exhausted (total : Nat)
  deriving DecidableEq, Repr, Inhabited

/-- The message of an error. -/
def LabelError.message : LabelError → String
  | .exhausted total => "Label set is exhausted after " ++ toString total ++ " labels"

/-! ## Section 2: Subscripts -/

/-- The subscript form of a decimal digit. -/
def subscriptDigit (c : Char) : Char :=
  if c.isDigit then Char.ofNat ('₀'.toNat + (c.toNat - '0'.toNat)) else c

/-- A number in subscript digits. -/
def subscriptText (n : Nat) : String :=
  String.ofList ((Nat.toDigits 10 n).map subscriptDigit)

/-- The first number from `k` on whose subscript makes an unused label, looking at most at as many
    numbers as the first argument says before the last. -/
def firstSubscript (used : List String) (base : String) : Nat → Nat → Nat
  | 0, k => k
  | n + 1, k =>
    if used.contains (base ++ subscriptText k) then firstSubscript used base n (k + 1) else k

/-! ## Section 3: Giving labels -/

namespace LabelScope

/-- The label of a scalar, and the scope after it was given. -/
def label (i : Scalar) : LabelScope → Except LabelError String × LabelScope
  | .plain => (.ok i.text, .plain)
  | .labelSet left total given =>
    match given.lookup i.key, left with
    | some l, _ => (.ok l, .labelSet left total given)
    | none, [] => (.error (.exhausted total), .labelSet left total given)
    | none, l :: left => (.ok l, .labelSet left total ((i.key, l) :: given))
  | .subscript given =>
    match given.lookup i.key with
    | some l => (.ok l, .subscript given)
    | none =>
      let used := given.map Prod.snd
      let l := i.text ++ subscriptText (firstSubscript used i.text used.length 1)
      (.ok l, .subscript ((i.key, l) :: given))
  | .byKind text num standard skolem =>
    match i with
    | .ident (.name _) =>
      let (l, text) := text.label i
      (l, .byKind text num standard skolem)
    | .ident (.num _) =>
      let (l, num) := num.label i
      (l, .byKind text num standard skolem)
    | .ident (.standard _ _ _) =>
      let (l, standard) := standard.label i
      (l, .byKind text num standard skolem)
    | .ident (.skolem _ _ _) =>
      let (l, skolem) := skolem.label i
      (l, .byKind text num standard skolem)
    | _ => (.ok i.text, .byKind text num standard skolem)

end LabelScope

/-- Subscripted names for standardised variables, the given labels for Skolem symbols, and plain
    texts for all others. -/
def defaultLabeller (skolemLabels : List String) : Labeller :=
  .byKind .plain .plain .subscript (.labelSet skolemLabels)

end Clausal
