import Clausal.Index.Discrimination
import Clausal.Matching
import Clausal.Ordinal

/-!
# Path trees

A path tree stores values under terms in ordinal form.  Every argument position has its own
branching by the symbol found there, and the keys are kept at their leaf symbols, so each position
is looked up independently of the others: candidates from different positions are intersected, and
whether repeated variables stand for equal terms is checked on the candidates that are left.

## Main definitions

- `Position`, `Positions`: the branching at one and at several argument positions
- `PathTree`, `add`, `get?`, `instances`, `generalisations`
-/

namespace Clausal

mutual

/-- The symbols found at an argument position.  For each there are the keys that end there and the
    positions of its arguments. -/
inductive Position where
  | nil
  | cons (symbol : Element) (keys : List Term) (args : Positions) (rest : Position)

/-- Several argument positions. -/
inductive Positions where
  | nil
  | cons (head : Position) (tail : Positions)

end

/-- The outermost symbol of a term in ordinal form. -/
def Term.ordinalElement : Term → Element
  | .var (.num n) => .variable n.toNat
  | .var _ => .variable 0
  | .const c => .constant c
  | .app f args => .function f args.length

namespace Positions

/-- As many positions without symbols. -/
def replicate : Nat → Positions
  | 0 => .nil
  | n + 1 => .cons .nil (replicate n)

end Positions

namespace Position

/-- Change what is found with a symbol; a new symbol goes to the end. -/
def alter (symbol : Element) (f : List Term × Positions → List Term × Positions) :
    Position → Position
  | .nil =>
    let (keys, args) := f ([], .replicate symbol.arity)
    .cons symbol keys args .nil
  | .cons s keys args rest =>
    if s = symbol then
      let (keys, args) := f (keys, args)
      .cons s keys args rest
    else .cons s keys args (rest.alter symbol f)

/-- What is found with a symbol. -/
def find? (symbol : Element) : Position → Option (List Term × Positions)
  | .nil => none
  | .cons s keys args rest => if s = symbol then some (keys, args) else rest.find? symbol

end Position

/-- The union of two lists of keys. -/
def unionKeys (ks ls : List Term) : List Term :=
  ks ++ ls.filter fun l => !ks.contains l

/-- The keys that two lists share. -/
def interKeys (ks ls : List Term) : List Term :=
  ks.filter ls.contains

mutual

/-- Keep a key at the leaf symbols of a term. -/
def Position.insert (key : Term) : Term → Position → Position
  | .app f (a :: as), p =>
    p.alter (.function f (as.length + 1)) fun (keys, args) =>
      (keys, Positions.insert key (a :: as) args)
  | t, p => p.alter t.ordinalElement fun (keys, args) => (unionKeys keys [key], args)

/-- Keep a key at the leaf symbols of several terms. -/
def Positions.insert (key : Term) : List Term → Positions → Positions
  | t :: ts, .cons p ps => .cons (Position.insert key t p) (Positions.insert key ts ps)
  | _, ps => ps

end

mutual

/-- All keys kept at a position or below it. -/
def Position.keys : Position → List Term
  | .nil => []
  | .cons _ ks args rest => unionKeys (unionKeys ks args.keys) rest.keys

/-- All keys kept at several positions or below them. -/
def Positions.keys : Positions → List Term
  | .nil => []
  | .cons p ps => unionKeys p.keys ps.keys

end

mutual

/-- The keys that have the leaf symbols of a term at their places; with `wild`, a variable of the
    term accepts anything. -/
def Position.candidates (wild : Bool) : Term → Position → List Term
  | .var x, p =>
    if wild then p.keys
    else
      match p.find? (Term.var x).ordinalElement with
      | none => []
      | some (keys, _) => keys
  | .const c, p =>
    match p.find? (.constant c) with
    | none => []
    | some (keys, _) => keys
  | .app f [], p =>
    match p.find? (.function f 0) with
    | none => []
    | some (keys, _) => keys
  | .app f (a :: as), p =>
    match p.find? (.function f (as.length + 1)) with
    | none => []
    | some (_, args) => (Positions.candidates wild (a :: as) args).getD []

/-- The keys that have the leaf symbols of several terms at their places; nothing without terms. -/
def Positions.candidates (wild : Bool) : List Term → Positions → Option (List Term)
  | t :: ts, .cons p ps =>
    let ks := Position.candidates wild t p
    match Positions.candidates wild ts ps with
    | none => some ks
    | some ls => some (interKeys ks ls)
  | _, _ => none

end

mutual

/-- The keys that have, at each place on the way to the leaf symbols of a term, the symbol of the
    term or a variable. -/
def Position.generals : Position → Term → List Term
  | .nil, _ => []
  | .cons s ks args rest, t =>
    let here : List Term :=
      match s, t with
      | .variable _, _ => ks
      | s, .app f (a :: as) =>
        if s = .function f (as.length + 1) then (Positions.generals args (a :: as)).getD [] else []
      | s, t => if s = t.ordinalElement then ks else []
    unionKeys here (rest.generals t)

/-- The same for several terms; nothing without terms. -/
def Positions.generals : Positions → List Term → Option (List Term)
  | .cons p ps, t :: ts =>
    let ks := Position.generals p t
    match Positions.generals ps ts with
    | none => some ks
    | some ls => some (interKeys ks ls)
  | _, _ => none

end

/-- Values stored under terms, with a position for looking the terms up. -/
structure PathTree (α : Type) where
  root : Position
  values : List (Term × α)

namespace PathTree

variable {α : Type}

/-- The tree without values. -/
def empty : PathTree α :=
  ⟨.nil, []⟩

/-- The number of values. -/
def size (p : PathTree α) : Nat :=
  p.values.length

/-- Store a value under a term.  No two terms may be equal up to renaming of variables. -/
def add (p : PathTree α) (t : Term) (a : α) : Except IndexError (PathTree α) :=
  let key := t.ordinalise
  if (p.values.lookup key).isSome then .error .present
  else .ok ⟨p.root.insert key key, p.values ++ [(key, a)]⟩

/-- Whether a value is stored under a term, up to renaming of variables. -/
def contains (p : PathTree α) (t : Term) : Bool :=
  (p.root.candidates false t.ordinalise).contains t.ordinalise

/-- The value stored under a term, up to renaming of variables. -/
def get? (p : PathTree α) (t : Term) : Option α :=
  if p.contains t then p.values.lookup t.ordinalise else none

/-- The values of all stored instances of a term. -/
def instances (p : PathTree α) (t : Term) : List α :=
  let query := t.ordinalise
  ((p.root.candidates true query).filter fun key => key.isInstanceOf query).filterMap
    fun key => p.values.lookup key

/-- The values of all stored generalisations of a term. -/
def generalisations (p : PathTree α) (t : Term) : List α :=
  let query := t.ordinalise
  ((p.root.generals query).filter fun key => query.isInstanceOf key).filterMap
    fun key => p.values.lookup key

end PathTree

end Clausal
