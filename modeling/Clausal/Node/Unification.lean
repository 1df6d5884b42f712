import Clausal.Matching
import Clausal.Node.Bindings
import Clausal.Unification

/-!
# Unification and matching of nodes

Terms, atoms and literals are unified and matched with each other.  Bindings that are a substitution
are extended as substitutions are.  Other bindings are looked through as they are, and then values
that are no terms may come up on the way.

## Main definitions

- `Bindings.unify`, `Bindings.match?`, `Bindings.reaches`
-/

namespace Clausal

/-! ## Section 1: Unification -/

/-- Extend bindings, unless that fails or two nodes turn out not to unify. -/
abbrev BindingStep : Type :=
  Bindings → Node → Node → Except NodeError (Option Bindings)

/-- Extend bindings by means of `step` for the terms of two lists in pairs. -/
def unifyNodeArgs (step : BindingStep) :
    Bindings → List Term → List Term → Except NodeError (Option Bindings)
  | b, s :: ss, t :: ts => do
    match ← step b (.term s) (.term t) with
    | none => return none
    | some b => unifyNodeArgs step b ss ts
  | b, _, _ => .ok (some b)

/-- Extend bindings by means of `step` for two atoms.  If the first is an equation, the sides of the
    second are tried in the given order and then the other way round. -/
def unifyNodeAtoms (step : BindingStep) (b : Bindings) (s t : Atom) :
    Except NodeError (Option Bindings) := do
  if s.symbol ≠ t.symbol || s.args.length ≠ t.args.length then return none
  match ← unifyNodeArgs step b s.args t.args with
  | some b => return some b
  | none => if s.isEq then unifyNodeArgs step b s.args t.args.reverse else return none

namespace Bindings

/-- Bind an unbound variable to the value of a node, which should be a term in which the variable
    does not occur. -/
def bindValue (b : Bindings) (x : Ident) (n : Node) : Except NodeError (Option Bindings) := do
  match ← b.substitute n with
  | .term t =>
    if t = .var x then return some b
    if t.occurs x then return none
    return some (b.insert (.term (.var x)) (.term t))
  | _ => throw .unsupported

/-- Extend bindings for a variable and another node by means of `step`. -/
def unifyVariable (step : BindingStep) (b : Bindings) (x : Ident) (n : Node) :
    Except NodeError (Option Bindings) :=
  if n == .term (.var x) then .ok (some b)
  else
    match b.find? (.term (.var x)), n with
    | some v, _ => step b v n
    | none, .term (.var y) =>
      match b.find? (.term (.var y)) with
      | some v => step b (.term (.var x)) v
      | none => b.bindValue x n
    | none, _ => b.bindValue x n

/-- Extend bindings so that they make two nodes equal, looking at nodes and values to the depth
    given by the first argument. -/
def unifyFor : Nat → BindingStep
  | 0, _, _, _ => .ok none
  | n + 1, b, s, t =>
    match s, t with
    | .literal l, .literal m =>
      if l.positive = m.positive then unifyNodeAtoms (unifyFor n) b l.atom m.atom else .ok none
    | .literal _, _ | _, .literal _ => .ok none
    | .formula (.atom p), .formula (.atom q) => unifyNodeAtoms (unifyFor n) b p q
    | .formula (.atom _), _ | _, .formula (.atom _) => .ok none
    | .term (.var x), t => unifyVariable (unifyFor n) b x t
    | s, .term (.var y) => unifyVariable (unifyFor n) b y s
    | .term (.const c), .term (.const d) => .ok (if c = d then some b else none)
    | .term (.app f ss), .term (.app g ts) =>
      if f = g ∧ ss.length = ts.length then unifyNodeArgs (unifyFor n) b ss ts else .ok none
    | _, _ => .ok none

/-- A depth that suffices to unify two nodes: as many steps along variables as there may be, for
    each symbol in their texts. -/
def unifyDepth (b : Bindings) (s t : Node) : Nat :=
  let n := b.size + b.text.length + s.text.length + t.text.length + 2
  n * n

/-- Extend bindings so that they make two nodes equal: terms, atoms or literals. -/
def unify (b : Bindings) (s t : Node) : Except NodeError (Option Bindings) :=
  match b.plain?, s, t with
  | some σ, .literal l, .literal m => .ok ((l.unify σ m).map ofSubstitution)
  | some σ, .formula (.atom p), .formula (.atom q) => .ok ((p.unify σ q).map ofSubstitution)
  | some σ, .term s, .term t => .ok ((s.unify σ t).map ofSubstitution)
  | _, s, t => unifyFor (b.unifyDepth s t) b s t

/-! ## Section 2: Matching -/

/-- Bind an unbound variable to a node; a bound one must have that very value. -/
def matchVariable (b : Bindings) (x : Ident) (n : Node) : Option Bindings :=
  match b.find? (.term (.var x)) with
  | some v => if v == n then some b else none
  | none => some (b.insert (.term (.var x)) n)

end Bindings

mutual

/-- Extend bindings so that the generalisation becomes the given term. -/
def Term.matchNode? (b : Bindings) : Term → Term → Option Bindings
  | .var x, t => b.matchVariable x (.term t)
  | .const c, t => if t = .const c then some b else none
  | .app f ss, .app g ts =>
    if f = g ∧ ss.length = ts.length then Term.matchNodes? b ss ts else none
  | .app _ _, _ => none

/-- Extend bindings so that the generalisations become the given terms, in pairs. -/
def Term.matchNodes? (b : Bindings) : List Term → List Term → Option Bindings
  | s :: ss, t :: ts =>
    match Term.matchNode? b s t with
    | none => none
    | some b => Term.matchNodes? b ss ts
  | [], _ => some b
  | _ :: _, [] => some b

end

/-- Extend bindings so that the generalisation becomes the given atom. -/
def Atom.matchNode? (b : Bindings) (p q : Atom) : Option Bindings :=
  if p.symbol = q.symbol ∧ p.args.length = q.args.length then
    match Term.matchNodes? b p.args q.args with
    | some b => some b
    | none => if p.isEq then Term.matchNodes? b p.args q.args.reverse else none
  else none

namespace Bindings

/-- Extend bindings so that the first node becomes the second.  An unbound variable becomes a node
    of any kind but a literal or an atom. -/
def match? (b : Bindings) (s t : Node) : Option Bindings :=
  match b.plain?, s, t with
  | some σ, .literal l, .literal m => (l.match? σ m).map ofSubstitution
  | some σ, .formula (.atom p), .formula (.atom q) => (p.match? σ q).map ofSubstitution
  | some σ, .term s, .term t => (s.match? σ t).map ofSubstitution
  | none, .literal l, .literal m =>
    if l.positive = m.positive then l.atom.matchNode? b m.atom else none
  | none, .formula (.atom p), .formula (.atom q) => p.matchNode? b q
  | none, .term s, .term t => s.matchNode? b t
  | _, .literal _, _ | _, _, .literal _ => none
  | _, .formula (.atom _), _ | _, _, .formula (.atom _) => none
  | _, .term (.var x), t => b.matchVariable x t
  | _, _, _ => none

/-! ## Section 3: The occurs check -/

mutual

/-- Whether a variable is met in a node when bindings are followed, at most `n` of them one after
    the other.  Of several arguments the last comes first. -/
def reachesFor (b : Bindings) (x : Node) : Nat → Node → Except NodeError Bool
  | 0, _ => .ok false
  | n + 1, .term t => reachesTerm b x n t
  | n + 1, .formula (.atom a) => reachesTerms b x n a.args
  | _ + 1, _ => .error .unsupported
  termination_by n _ => (n, 0)

/-- The same for a term. -/
def reachesTerm (b : Bindings) (x : Node) (n : Nat) : Term → Except NodeError Bool
  | .var y =>
    if x == .term (.var y) then .ok true
    else
      match b.find? (.term (.var y)) with
      | none => .ok false
      | some v => reachesFor b x n v
  | .const _ => .ok false
  | .app _ args => reachesTerms b x n args
  termination_by t => (n, sizeOf t + 1)

/-- The same for several terms. -/
def reachesTerms (b : Bindings) (x : Node) (n : Nat) : List Term → Except NodeError Bool
  | [] => .ok false
  | t :: ts => do
    if ← reachesTerms b x n ts then return true
    reachesTerm b x n t
  termination_by ts => (n, sizeOf ts + 1)

end

/-- Whether a node is met as a variable in another one when bindings are followed. -/
def reaches (b : Bindings) (x n : Node) : Except NodeError Bool :=
  match b.plain?, x, n with
  | some σ, .term (.var x), .term t => .ok (σ.reaches x t)
  | some σ, .term (.var x), .formula (.atom a) => .ok (a.reaches σ x)
  | _, _, _ => b.reachesFor x (b.size + 1) n

end Bindings

end Clausal
