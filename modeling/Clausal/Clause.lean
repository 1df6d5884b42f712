import Clausal.Distinct
import Clausal.Formula

/-!
# Clauses

A clause is a disjunction of literals without repetitions.  The order of the literals is kept for
display, but `==` on clauses compares sets of literals.  A clause with exactly one positive literal
is *definite* and can be read as a rule, from the negative literals to the positive one.

## Main definitions

- `Clause`, `Clause.ofList`, `Clause.subst`
- `DefiniteClause`, with `head` and `body`
- `Cnf`: conjunctions of clauses
-/

namespace Clausal

/-! ## Section 1: Clauses -/

/-- How a clause is to be shown: as a disjunction of literals, or as a rule.  The form has no
    bearing on equality or inference. -/
inductive ClauseForm where
  | disjunction
  | rule
  deriving DecidableEq, Repr, Inhabited

/-- A disjunction of pairwise different literals. -/
structure Clause where
  literals : List Literal
  form : ClauseForm
  distinct : Distinct literals

namespace Clause

/-- The clause of the given literals; repetitions are dropped. -/
def ofList (ls : List Literal) (form : ClauseForm := .disjunction) : Clause :=
  ⟨dedup ls, form, pairwise_dedup ls⟩

/-- The clause without literals. -/
def empty : Clause :=
  ofList []

instance : Inhabited Clause := ⟨empty⟩

/-- Whether a literal is among those of a clause. -/
def contains (c : Clause) (l : Literal) : Bool :=
  c.literals.contains l

/-- Equality of clauses as sets of literals. -/
def same (c d : Clause) : Bool :=
  c.literals.all d.contains && d.literals.all c.contains

instance : BEq Clause := ⟨same⟩

/-- The number of literals. -/
def size (c : Clause) : Nat :=
  c.literals.length

/-- Whether a clause has no literals. -/
def isEmpty (c : Clause) : Bool :=
  c.literals.isEmpty

/-- Whether a clause has exactly one literal. -/
def isUnit (c : Clause) : Bool :=
  c.size = 1

/-- The positive literals, in order. -/
def positives (c : Clause) : List Literal :=
  c.literals.filter (·.positive)

/-- The negative literals, in order. -/
def negatives (c : Clause) : List Literal :=
  c.literals.filter (!·.positive)

/-- Whether a clause has at most one positive literal. -/
def isHorn (c : Clause) : Bool :=
  c.positives.length ≤ 1

/-- Whether a clause has exactly one positive literal. -/
def isDefinite (c : Clause) : Bool :=
  c.positives.length = 1

/-- Whether a clause has no positive literal. -/
def isGoal (c : Clause) : Bool :=
  c.positives.length = 0

/-- The variables of a clause in order of first appearance. -/
def vars (c : Clause) : List Ident :=
  dedup (c.literals.flatMap Literal.vars)

/-- The greatest depth of a literal, or zero. -/
def depth (c : Clause) : Nat :=
  c.literals.foldl (fun n l => max n l.depth) 0

/-- Replace every variable `x` by `θ x`, all at once; literals that become equal are merged. -/
def subst (θ : Ident → Term) (c : Clause) : Clause :=
  ofList (c.literals.map (Literal.subst θ)) c.form

/-- The plain text of a clause: literals joined by ` | `, and `[]` for the empty clause. -/
def text (c : Clause) : String :=
  if c.isEmpty then "[]" else " | ".intercalate (c.literals.map Literal.text)

end Clause

/-! ## Section 2: Definite clauses -/

/-- A clause with exactly one positive literal. -/
structure DefiniteClause where
  clause : Clause
  definite : clause.isDefinite = true

/-- The complaint about a clause without exactly one positive literal. -/
structure NotDefinite where
  clause : Clause
  deriving Inhabited

/-- The message of the complaint. -/
def NotDefinite.message (e : NotDefinite) : String :=
  "Expected definite clause, got " ++ e.clause.text

namespace DefiniteClause

/-- A definite clause, shown as a rule from now on. -/
def ofClause? (c : Clause) : Option DefiniteClause :=
  if h : c.isDefinite = true then some ⟨{ c with form := .rule }, h⟩ else none

/-- The clause that states an atom. -/
def ofAtom (a : Atom) : DefiniteClause :=
  ⟨Clause.ofList [⟨true, a⟩] .rule, rfl⟩

/-- The atom of the positive literal. -/
def head (d : DefiniteClause) : Atom :=
  (d.clause.positives.head (by
    have h := d.definite
    intro e
    simp [Clause.isDefinite, e] at h)).atom

/-- The atoms of the negative literals, in order. -/
def body (d : DefiniteClause) : List Atom :=
  d.clause.negatives.map Literal.atom

/-- Whether a definite clause has no negative literals. -/
def isFact (d : DefiniteClause) : Bool :=
  d.body.isEmpty

instance : BEq DefiniteClause := ⟨fun c d => c.clause == d.clause⟩

end DefiniteClause

private theorem positive_of_beq (l m : Literal) (h : (l == m) = true) :
    l.positive = m.positive := by
  have : (l.atom == m.atom && l.positive = m.positive) = true := h
  simp at this
  exact this.2

theorem Clause.positives_subst (θ : Ident → Term) (c : Clause) :
    (c.subst θ).positives = dedup (c.positives.map (Literal.subst θ)) := by
  simp only [Clause.positives, Clause.subst, Clause.ofList]
  rw [filter_dedup positive_of_beq, List.filter_map]
  rfl

theorem Clause.isDefinite_subst (θ : Ident → Term) {c : Clause} (h : c.isDefinite = true) :
    (c.subst θ).isDefinite = true := by
  simp only [Clause.isDefinite, decide_eq_true_eq, List.length_eq_one_iff] at h
  obtain ⟨l, hl⟩ := h
  simp [Clause.isDefinite, Clause.positives_subst, hl, dedup]

namespace DefiniteClause

/-- Replace every variable `x` by `θ x`, all at once. -/
def subst (θ : Ident → Term) (d : DefiniteClause) : DefiniteClause :=
  ⟨d.clause.subst θ, Clause.isDefinite_subst θ d.definite⟩

end DefiniteClause

/-! ## Section 3: Clause sets -/

/-- A conjunction of pairwise different clauses. -/
structure Cnf where
  clauses : List Clause
  distinct : Distinct clauses

namespace Cnf

/-- The conjunction of the given clauses; repetitions are dropped. -/
def ofList (cs : List Clause) : Cnf :=
  ⟨dedup cs, pairwise_dedup cs⟩

instance : Inhabited Cnf := ⟨ofList []⟩

/-- Equality as sets of clauses. -/
def same (c d : Cnf) : Bool :=
  c.clauses.all d.clauses.contains && d.clauses.all c.clauses.contains

instance : BEq Cnf := ⟨same⟩

/-- The plain text: `(C) & (D)`, and nothing at all without clauses. -/
def text (c : Cnf) : String :=
  " & ".intercalate (c.clauses.map fun d => "(" ++ d.text ++ ")")

end Cnf

end Clausal
