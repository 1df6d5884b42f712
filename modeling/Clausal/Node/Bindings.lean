import Clausal.Association
import Clausal.Node.Build
import Clausal.Substitution

/-!
# Bindings of nodes

Bindings of nodes to nodes, in the order in which the bound nodes were first bound.  As a rule the
bound nodes are variables and their values terms, and then the bindings are a substitution.  A
variable that is bound to a node of another kind gives rise to an error as soon as the value does
not fit into its place.

## Main definitions

- `Bindings`, `Bindings.ofList`, `Bindings.find?`, `Bindings.insert`, `Bindings.bind`
- `Bindings.plain?`: the substitution that bindings are
- `Bindings.substitute`, `Bindings.apply`: nodes with variables replaced
- `Bindings.compose`, `Bindings.restrict`
-/

namespace Clausal

/-! ## Section 1: Bindings -/

/-- Bindings of pairwise different nodes, in the order in which they were made. -/
structure Bindings where
  entries : List (Node × Node) := []
  deriving Inhabited

/-- The complaint that a node is bound already. -/
structure BoundError where
  key : Node
  value : Node

/-- The message of the complaint. -/
def BoundError.message (e : BoundError) : String :=
  e.key.bareText ++ " is already bound to " ++ e.value.bareText

namespace Bindings

/-- The number of bindings. -/
def size (b : Bindings) : Nat :=
  b.entries.length

/-- The bound nodes, in order. -/
def keys (b : Bindings) : List Node :=
  b.entries.map Prod.fst

/-- The node that a node is bound to, not followed further. -/
def find? (b : Bindings) (k : Node) : Option Node :=
  findKey k b.entries

/-- Whether a node is bound. -/
def isBound (b : Bindings) (k : Node) : Bool :=
  (b.find? k).isSome

/-- Bind a node.  A new one goes to the end; a bound one keeps its place and loses its earlier
    value. -/
def insert (b : Bindings) (k v : Node) : Bindings :=
  ⟨insertKey k v b.entries⟩

/-- Bind a node that is not bound. -/
def bind (b : Bindings) (k v : Node) : Except BoundError Bindings :=
  match b.find? k with
  | none => .ok (b.insert k v)
  | some u => .error ⟨k, u⟩

/-- Take over all of the given bindings, one after the other. -/
def update (b : Bindings) (es : List (Node × Node)) : Bindings :=
  es.foldl (fun b e => b.insert e.1 e.2) b

/-- The bindings made by the given ones, one after the other. -/
def ofList (es : List (Node × Node)) : Bindings :=
  update {} es

/-- The bindings without that of a variable. -/
def erase (b : Bindings) (x : Ident) : Bindings :=
  ⟨b.entries.filter fun e => !(e.1 == .term (.var x))⟩

/-- Equality of bindings: the same ones in any order. -/
def same (a b : Bindings) : Bool :=
  a.size = b.size && a.entries.all fun e =>
    match b.find? e.1 with
    | none => false
    | some v => v == e.2

instance : BEq Bindings := ⟨same⟩

/-- The plain text of bindings: `{X -> a, Y -> f(X)}`. -/
def text (b : Bindings) : String :=
  let entry (e : Node × Node) : String := e.1.bareText ++ " -> " ++ e.2.bareText
  "\x7b" ++ ", ".intercalate (b.entries.map entry) ++ "\x7d"

/-- The bindings of a substitution. -/
def ofSubstitution (σ : Substitution) : Bindings :=
  ⟨σ.bindings.map fun b => (.term (.var b.1), .term b.2)⟩

/-- The substitution that bindings are, if they bind variables to terms only. -/
def plain? (b : Bindings) : Option Substitution :=
  let pair? (e : Node × Node) : Option (Ident × Term) :=
    match e with
    | (.term (.var x), .term t) => some (x, t)
    | _ => none
  (b.entries.mapM pair?).map .ofList

end Bindings

/-! ## Section 2: Nodes for variables -/

mutual

/-- Put nodes in place of the variables of a term.  Only terms fit below a function symbol. -/
def Term.rebuild (look : Ident → Except NodeError Node) : Term → Except NodeError Node
  | .var x => look x
  | .const c => .ok (.term (.const c))
  | .app f args => do Node.function f (← Term.rebuildList look args)

/-- Put nodes in place of the variables of several terms. -/
def Term.rebuildList (look : Ident → Except NodeError Node) :
    List Term → Except NodeError (List Node)
  | [] => .ok []
  | t :: ts => do
    let n ← Term.rebuild look t
    return n :: (← Term.rebuildList look ts)

end

/-- Put nodes in place of the variables of an atom. -/
def Atom.rebuild (look : Ident → Except NodeError Node) : Atom → Except NodeError Atom
  | .pred p args => do
    let ns ← Term.rebuildList look args
    return .pred p (← ns.mapM Node.asTerm)
  | .eq l r => do
    let l ← Term.rebuild look l
    let r ← Term.rebuild look r
    return .eq (← l.asTerm) (← r.asTerm)

/-- Put nodes in place of the variables of a formula.  A quantifier hides the binding of its own
    variable. -/
def Formula.rebuild (look : Bindings → Ident → Except NodeError Node) (b : Bindings) :
    Formula → Except NodeError Formula
  | .atom a => return .atom (← a.rebuild (look b))
  | .not f => return .not (← f.rebuild look b)
  | .and f g => return .and (← f.rebuild look b) (← g.rebuild look b)
  | .or f g => return .or (← f.rebuild look b) (← g.rebuild look b)
  | .imp f g => return .imp (← f.rebuild look b) (← g.rebuild look b)
  | .iff f g => return .iff (← f.rebuild look b) (← g.rebuild look b)
  | .all x f => return .all x (← f.rebuild look (b.erase x))
  | .ex x f => return .ex x (← f.rebuild look (b.erase x))

namespace Bindings

/-! ## Section 3: Application -/

/-- Follow bindings in a node, at most `n` of them one after the other.  A variable that is bound to
    nothing, to null or to itself stays. -/
def follow : Nat → Bindings → Node → Except NodeError Node
  | 0, _, node => .ok node
  | n + 1, b, node =>
    let look (b : Bindings) (x : Ident) : Except NodeError Node :=
      match b.find? (.term (.var x)) with
      | none | some (.scalar (.ident .null)) => .ok (.term (.var x))
      | some v => if v == .term (.var x) then .ok v else follow n b v
    match node with
    | .term t => t.rebuild (look b)
    | .formula f => return .formula (← f.rebuild look b)
    | .literal l => return .literal { l with atom := ← l.atom.rebuild (look b) }
    | _ => .error .unsupported

/-- The literal in which variables are replaced by their values. -/
def followLiteral (b : Bindings) (l : Literal) : Except NodeError Literal := do
  (← b.follow (b.size + 1) (.literal l)).asLiteral

/-- Replace the variables of a term, formula, literal or clause by their values. -/
def substitute (b : Bindings) (n : Node) : Except NodeError Node :=
  match b.plain?, n with
  | some σ, .term t => .ok (.term (σ.apply t))
  | some σ, .formula f => .ok (.formula (σ.applyFormula f))
  | some σ, .literal l => .ok (.literal (σ.applyLiteral l))
  | some σ, .clause c => .ok (.clause (c.subst σ.value))
  | none, .clause c => return .clause (.ofList (← c.literals.mapM b.followLiteral) c.form)
  | _, n => b.follow (b.size + 1) n

/-- Apply bindings to a node.  No bindings leave nodes of any kind as they are. -/
def apply (b : Bindings) (n : Node) : Except NodeError Node :=
  if b.size = 0 then .ok n else b.substitute n

/-! ## Section 4: Composition and restriction -/

/-- The bindings that apply `a` first and `b` after it. -/
def compose (a b : Bindings) : Except NodeError Bindings :=
  match a.plain?, b.plain? with
  | some σ, some τ => .ok (ofSubstitution (σ.compose τ))
  | _, _ => do
    let es ← a.entries.mapM fun e => return (e.1, ← b.apply e.2)
    return update ⟨es⟩ (b.entries.filter fun e => !a.isBound e.1)

/-- The values of the given nodes, those that are bound, in the order given. -/
def restrict (b : Bindings) (ns : List Node) : Except NodeError Bindings :=
  match b.plain? with
  | some σ => .ok (ofSubstitution (σ.restrict (ns.filterMap fun n => n.asVariable.toOption)))
  | none => do
    return ofList (← (ns.filter b.isBound).mapM fun n => return (n, ← b.apply n))

end Bindings

end Clausal
