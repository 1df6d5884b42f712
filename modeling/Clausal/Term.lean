import Clausal.Ident

/-!
# Terms

A term is a variable, a constant, or a function symbol applied to a list of terms.  Constants and
applications without arguments are different terms, and arities are not fixed.

Functions on terms come in pairs, one for terms and one for argument lists, so that all recursion
is structural.

## Main definitions

- `Term`: terms, with decidable equality
- `Term.subst`: simultaneous replacement of variables by terms
- `Term.vars`, `Term.occurs`: the variables of a term
- `Term.depth`, `Term.symbols`: two measures of a term
- `Term.text`: the plain text of a term
-/

namespace Clausal

/-! ## Section 1: The type of terms -/

/-- First-order terms. -/
inductive Term where
  | var (x : Ident)
  | const (c : Ident)
  | app (f : Ident) (args : List Term)
  deriving Repr, Inhabited

namespace Term

/-- Induction on terms with one hypothesis for each argument. -/
@[elab_as_elim]
theorem induction {P : Term → Prop} (var : ∀ x, P (.var x)) (const : ∀ c, P (.const c))
    (app : ∀ f args, (∀ a ∈ args, P a) → P (.app f args)) (t : Term) : P t :=
  @Term.rec P (fun ts => ∀ a ∈ ts, P a) var const app
    (fun _ h => nomatch h)
    (fun _ _ head tail a h => by
      cases h with
      | head => exact head
      | tail _ h => exact tail a h)
    t

mutual

/-- Equality of terms, with its proof. -/
def decEq : (s t : Term) → Decidable (s = t)
  | .var x, .var y =>
    if h : x = y then isTrue (h ▸ rfl) else isFalse fun e => h (Term.var.inj e)
  | .const c, .const d =>
    if h : c = d then isTrue (h ▸ rfl) else isFalse fun e => h (Term.const.inj e)
  | .app f as, .app g bs =>
    if h : f = g then
      match decEqList as bs with
      | isTrue h' => isTrue (h ▸ h' ▸ rfl)
      | isFalse h' => isFalse fun e => h' (Term.app.inj e).2
    else isFalse fun e => h (Term.app.inj e).1
  | .var _, .const _ | .var _, .app _ _ | .const _, .var _ | .const _, .app _ _
  | .app _ _, .var _ | .app _ _, .const _ => isFalse fun e => nomatch e

/-- Equality of argument lists, with its proof. -/
def decEqList : (as bs : List Term) → Decidable (as = bs)
  | [], [] => isTrue rfl
  | [], _ :: _ | _ :: _, [] => isFalse fun e => nomatch e
  | a :: as, b :: bs =>
    match decEq a b with
    | isTrue h =>
      match decEqList as bs with
      | isTrue h' => isTrue (h ▸ h' ▸ rfl)
      | isFalse h' => isFalse fun e => h' (List.cons.inj e).2
    | isFalse h => isFalse fun e => h (List.cons.inj e).1

end

instance : DecidableEq Term := decEq

/-- Whether a term is a variable. -/
def isVar : Term → Bool
  | .var _ => true
  | _ => false

/-! ## Section 2: Substitution -/

mutual

/-- Replace every variable `x` by `θ x`, all at once. -/
def subst (θ : Ident → Term) : Term → Term
  | .var x => θ x
  | .const c => .const c
  | .app f args => .app f (substList θ args)

/-- Replace variables in each of several terms. -/
def substList (θ : Ident → Term) : List Term → List Term
  | [] => []
  | t :: ts => subst θ t :: substList θ ts

end

theorem substList_eq_map (θ : Ident → Term) (ts : List Term) :
    substList θ ts = ts.map (subst θ) := by
  induction ts with
  | nil => rfl
  | cons t ts ih => simp [substList, ih]

/-! ## Section 3: Variables and measures -/

mutual

/-- The variables of a term from left to right, with repetitions. -/
def vars : Term → List Ident
  | .var x => [x]
  | .const _ => []
  | .app _ args => varsList args

/-- The variables of several terms. -/
def varsList : List Term → List Ident
  | [] => []
  | t :: ts => vars t ++ varsList ts

end

/-- Whether the variable `x` occurs in a term. -/
def occurs (x : Ident) (t : Term) : Bool :=
  t.vars.contains x

/-- Whether a term has no variables. -/
def isGround (t : Term) : Bool :=
  t.vars.isEmpty

mutual

/-- How deeply applications are nested; an application without arguments counts nothing. -/
def depth : Term → Nat
  | .var _ => 0
  | .const _ => 0
  | .app _ args => depthList args

/-- One more than the greatest depth of the given arguments, or zero if there are none. -/
def depthList : List Term → Nat
  | [] => 0
  | t :: ts => max (depth t + 1) (depthList ts)

end

mutual

/-- The number of occurrences of constants and function symbols. -/
def symbols : Term → Nat
  | .var _ => 0
  | .const _ => 1
  | .app _ args => symbolsList args + 1

/-- The number of symbol occurrences in several terms. -/
def symbolsList : List Term → Nat
  | [] => 0
  | t :: ts => symbols t + symbolsList ts

end

/-! ## Section 4: Plain text -/

mutual

/-- The plain text of a term: `f(a, X)`, and `f()` without arguments. -/
def text : Term → String
  | .var x => x.text
  | .const c => c.text
  | .app f args => f.text ++ "(" ++ ", ".intercalate (textList args) ++ ")"

/-- The plain texts of several terms. -/
def textList : List Term → List String
  | [] => []
  | t :: ts => text t :: textList ts

end

end Term

end Clausal
