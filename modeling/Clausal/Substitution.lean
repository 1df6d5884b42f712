import Clausal.Formula

/-!
# Substitutions

A substitution is a finite list of bindings of variables to terms, in the order in which the
variables were first bound.  Its bindings may mention each other's variables: applying a
substitution follows chains of bindings, so binding `X` to `Y` and `Y` to `a` yields `a` for `X`.

Following a chain of bindings without a cycle visits each bound variable at most once, so the
number of bindings bounds how far a chain has to be followed.

## Main definitions

- `Substitution`, `Substitution.find?`, `Substitution.insert`
- `Substitution.apply`: the term that results from following all bindings
- `Substitution.compose`, `Substitution.restrict`
- `Substitution.applyFormula`: application below quantifiers
-/

namespace Clausal

/-! ## Section 1: Bindings -/

/-- Bindings of pairwise distinct variables, in the order in which they were made. -/
structure Substitution where
  bindings : List (Ident × Term)
  nodup : (bindings.map Prod.fst).Nodup

namespace Substitution

/-- The substitution without bindings. -/
def empty : Substitution :=
  ⟨[], List.nodup_nil⟩

instance : Inhabited Substitution := ⟨empty⟩

/-- The number of bindings. -/
def size (σ : Substitution) : Nat :=
  σ.bindings.length

/-- The bound variables, in order. -/
def domain (σ : Substitution) : List Ident :=
  σ.bindings.map Prod.fst

/-- The term that a variable is bound to, not followed further. -/
def find? (σ : Substitution) (x : Ident) : Option Term :=
  σ.bindings.lookup x

/-- Whether a variable is bound. -/
def isBound (σ : Substitution) (x : Ident) : Bool :=
  (σ.find? x).isSome

/-- Put new terms in place of the bound ones. -/
def mapTerms (g : Ident → Term → Term) (σ : Substitution) : Substitution where
  bindings := σ.bindings.map fun b => (b.1, g b.1 b.2)
  nodup := by
    have h : (σ.bindings.map fun b => (b.1, g b.1 b.2)).map Prod.fst = σ.bindings.map Prod.fst := by
      simp [Function.comp_def]
    exact h ▸ σ.nodup

/-- Bind `x` to `t`.  A new variable goes to the end; a bound one keeps its place and loses its
    earlier term. -/
def insert (σ : Substitution) (x : Ident) (t : Term) : Substitution :=
  if h : x ∈ σ.bindings.map Prod.fst then
    σ.mapTerms fun y u => if y = x then t else u
  else
    { bindings := σ.bindings ++ [(x, t)]
      nodup := by
        rw [List.map_append, List.nodup_append]
        refine ⟨σ.nodup, by simp, ?_⟩
        intro a ha b hb
        have hb : b = x := by simpa using hb
        exact fun e => h (hb ▸ e ▸ ha) }

/-- The substitution made by the given bindings, one after the other. -/
def ofList (bs : List (Ident × Term)) : Substitution :=
  bs.foldl (fun ρ b => ρ.insert b.1 b.2) empty

/-- The substitution without the binding of `x`. -/
def erase (σ : Substitution) (x : Ident) : Substitution where
  bindings := σ.bindings.filter (·.1 ≠ x)
  nodup := by
    have h : List.Sublist ((σ.bindings.filter (·.1 ≠ x)).map Prod.fst) (σ.bindings.map Prod.fst) :=
      List.filter_sublist.map _
    exact h.nodup σ.nodup

/-- Equality of substitutions: the same bindings in any order. -/
def same (σ τ : Substitution) : Bool :=
  σ.size = τ.size && σ.bindings.all fun b => τ.find? b.1 = some b.2

instance : BEq Substitution := ⟨same⟩

/-! ## Section 2: Application -/

/-- Follow bindings in a term, at most `n` of them one after the other. -/
def follow (σ : Substitution) : Nat → Term → Term
  | 0, t => t
  | n + 1, t => t.subst fun x =>
      match σ.find? x with
      | none => .var x
      | some u => σ.follow n u

/-- The value of a variable under a substitution. -/
def value (σ : Substitution) (x : Ident) : Term :=
  σ.follow σ.size (.var x)

/-- Apply a substitution to a term, following chains of bindings. -/
def apply (σ : Substitution) (t : Term) : Term :=
  t.subst σ.value

/-- Apply a substitution to an atom. -/
def applyAtom (σ : Substitution) (a : Atom) : Atom :=
  a.subst σ.value

/-- Apply a substitution to a literal. -/
def applyLiteral (σ : Substitution) (l : Literal) : Literal :=
  l.subst σ.value

/-- Apply a substitution to a formula.  A quantifier hides the binding of its own variable; bound
    variables are not renamed. -/
def applyFormula (σ : Substitution) : Formula → Formula
  | .atom a => .atom (σ.applyAtom a)
  | .not f => .not (σ.applyFormula f)
  | .and f g => .and (σ.applyFormula f) (σ.applyFormula g)
  | .or f g => .or (σ.applyFormula f) (σ.applyFormula g)
  | .imp f g => .imp (σ.applyFormula f) (σ.applyFormula g)
  | .iff f g => .iff (σ.applyFormula f) (σ.applyFormula g)
  | .all x f => .all x ((σ.erase x).applyFormula f)
  | .ex x f => .ex x ((σ.erase x).applyFormula f)

/-! ## Section 3: Composition and restriction -/

/-- The substitution that applies `σ` first and `τ` after it. -/
def compose (σ τ : Substitution) : Substitution :=
  let σ' := σ.mapTerms fun _ t => τ.apply t
  τ.bindings.foldl (fun ρ b => if ρ.isBound b.1 then ρ else ρ.insert b.1 b.2) σ'

/-- The values of the given variables, those that are bound, in the order given. -/
def restrict (σ : Substitution) (xs : List Ident) : Substitution :=
  xs.foldl (fun ρ x => if σ.isBound x then ρ.insert x (σ.value x) else ρ) empty

/-- The number of constant and function symbols in all bindings. -/
def symbols (σ : Substitution) : Nat :=
  Term.symbolsList (σ.bindings.map Prod.snd)

/-- The plain text of a substitution: `{X -> a, Y -> f(X)}`. -/
def text (σ : Substitution) : String :=
  "\x7b" ++ ", ".intercalate (σ.bindings.map fun b => b.1.text ++ " -> " ++ b.2.text) ++ "\x7d"

end Substitution

end Clausal
