import Clausal.Proofs.Normal.Cnf

/-!
# Normal forms with tables of scopes

Standardising apart and Skolemising can be done with a table of what the variables in scope stand
for.  A quantifier makes an entry for its variable, and when its scope ends the entry is deleted, or
the entry that it replaced is put back.  An entry that is deleted has to be there: in a formula in
which an existential quantifier stands in the scope of another one for the same variable, the inner
one deletes what the outer one is going to delete.

On the way to clauses this does not happen.  Standardising apart puts every entry back as it was,
and after it no scope hides another one.  Equivalences are doubled later on, but no copy gets into
the scope of another one.

## Main definitions

- `ScopeTable`: what the variables in scope stand for
- `Formula.standardiseScoped`, `Formula.skolemiseScoped`: the two passes with tables
- `Formula.toCnfScoped?`: normal forms in which everything that may be missing is looked for

## Main statements

- `Formula.standardiseScoped_eq`, `Formula.skolemiseScoped_eq`
- `Formula.toCnfScoped?_eq`: nothing is missing, and the result is that of `Formula.toCnf`
-/

namespace Clausal

/-! ## Section 1: Tables -/

/-- What the variables in scope stand for. -/
@[ext]
structure ScopeTable (α : Type) where
  find? : Ident → Option α

namespace ScopeTable

variable {α : Type}

/-- The table without entries. -/
def empty : ScopeTable α :=
  ⟨fun _ => none⟩

/-- Make an entry, in place of the one that is there. -/
def set (σ : ScopeTable α) (x : Ident) (a : α) : ScopeTable α :=
  ⟨fun y => if y = x then some a else σ.find? y⟩

/-- Delete an entry, which has to be there. -/
def delete? (σ : ScopeTable α) (x : Ident) : Option (ScopeTable α) :=
  if (σ.find? x).isSome then some ⟨fun y => if y = x then none else σ.find? y⟩ else none

/-- Put back the entry that was there before, or delete the present one if there was none. -/
def restore? (σ : ScopeTable α) (x : Ident) : Option α → Option (ScopeTable α)
  | none => σ.delete? x
  | some a => some (σ.set x a)

/-- What a variable stands for, if variables without an entry stand for what `make` says. -/
def lookup (make : Ident → α) (σ : ScopeTable α) (x : Ident) : α :=
  (σ.find? x).getD (make x)

/-- Make entries for those of the variables `xs` that have none. -/
def enter (make : Ident → α) (xs : List Ident) (σ : ScopeTable α) : ScopeTable α :=
  ⟨fun x => if x ∈ xs then some (σ.lookup make x) else σ.find? x⟩

variable {make : Ident → α} {σ : ScopeTable α} {x : Ident} {a : α} {xs ys : List Ident}

private theorem find?_set (y : Ident) : (σ.set x a).find? y = if y = x then some a else σ.find? y :=
  rfl

@[simp]
theorem lookup_enter : (σ.enter make xs).lookup make = σ.lookup make := by
  funext y
  by_cases hy : y ∈ xs <;> simp [lookup, enter, hy]

private theorem enter_enter : (σ.enter make xs).enter make ys = σ.enter make (xs ++ ys) := by
  ext y : 2
  by_cases hx : y ∈ xs <;> by_cases hy : y ∈ ys <;> simp [lookup, enter, hx, hy]

/-- After a scope has ended, its variable stands for what it stood for before. -/
theorem restore?_enter_set : ((σ.set x a).enter make xs).restore? x (σ.find? x) =
    some (σ.enter make (xs.filter (· ≠ x))) := by
  cases hx : σ.find? x with
  | none =>
    have hsome : (((σ.set x a).enter make xs).find? x).isSome := by
      by_cases hmem : x ∈ xs <;> simp [enter, set, hmem]
    rw [restore?, delete?, if_pos hsome, Option.some.injEq]
    ext y : 2
    by_cases hyx : y = x <;> simp [enter, set, lookup, hyx, hx]
  | some b =>
    rw [restore?, Option.some.injEq]
    ext y : 2
    by_cases hyx : y = x <;> simp [enter, set, lookup, hyx, hx]

/-- An entry that was made where there was none is deleted without a trace. -/
theorem delete?_set (hx : σ.find? x = none) : (σ.set x a).delete? x = some σ := by
  have hsome : ((σ.set x a).find? x).isSome := by simp [set]
  rw [delete?, if_pos hsome, Option.some.injEq]
  ext y : 2
  by_cases hyx : y = x <;> simp [set, hyx, hx]

end ScopeTable

/-! ## Section 2: Standardising apart -/

/-- A way through a formula that hands out serials and keeps a table; it ends early if an entry of
    the table is missing. -/
abbrev ScopePass (α : Type) : Type :=
  Nat → ScopeTable α → Option (Formula × Nat × ScopeTable α)

/-- The way through two parts of a formula, from left to right. -/
def ScopePass.inTurn {α : Type} (connect : Formula → Formula → Formula)
    (first second : ScopePass α) : ScopePass α := fun n σ => do
  let (f, n, σ) ← first n σ
  let (g, n, σ) ← second n σ
  return (connect f g, n, σ)

theorem ScopePass.inTurn_eq {α : Type} {connect : Formula → Formula → Formula}
    {first second : ScopePass α} {n m k : Nat} {σ τ υ : ScopeTable α} {f g : Formula}
    (hfirst : first n σ = some (f, m, τ)) (hsecond : second m τ = some (g, k, υ)) :
    inTurn connect first second n σ = some (connect f g, k, υ) := by
  simp [inTurn, hfirst, hsecond]

namespace Formula

/-- Give the quantifiers of a formula fresh variables, with a table of the variables in scope.  A
    variable without an entry is free: from then on it stands for what `free` says. -/
def standardiseScoped (origin : Option Nat) (free : Ident → Ident) : Formula → ScopePass Ident
  | .atom a => fun n σ =>
    some (.atom (a.subst fun x => .var (σ.lookup free x)), n, σ.enter free a.vars)
  | .not f => fun n σ => do
    let (g, n, σ) ← f.standardiseScoped origin free n σ
    return (.not g, n, σ)
  | .and f g => .inTurn .and (f.standardiseScoped origin free) (g.standardiseScoped origin free)
  | .or f g => .inTurn .or (f.standardiseScoped origin free) (g.standardiseScoped origin free)
  | .imp f g => .inTurn .imp (f.standardiseScoped origin free) (g.standardiseScoped origin free)
  | .iff f g => .inTurn .iff (f.standardiseScoped origin free) (g.standardiseScoped origin free)
  | .all x f => fun n σ => do
    let (g, m, τ) ← f.standardiseScoped origin free (n + 1) (σ.set x (.standard n x origin))
    return (.all (.standard n x origin) g, m, ← τ.restore? x (σ.find? x))
  | .ex x f => fun n σ => do
    let (g, m, τ) ← f.standardiseScoped origin free (n + 1) (σ.set x (.standard n x origin))
    return (.ex (.standard n x origin) g, m, ← τ.restore? x (σ.find? x))

/-- No entry is missing.  The table is afterwards as it was before, with entries for the free
    variables. -/
theorem standardiseScoped_eq (origin : Option Nat) (free : Ident → Ident) (f : Formula) (n : Nat)
    (σ : ScopeTable Ident) : f.standardiseScoped origin free n σ =
      some (f.standardiseFrom origin n (σ.lookup free), n + f.quantifiers,
        σ.enter free f.freeVars) := by
  -- a quantifier gives its variable a new meaning
  have lookup_set (σ : ScopeTable Ident) (x y : Ident) :
      (σ.set x y).lookup free = rebind (σ.lookup free) x y := by
    funext z
    by_cases hz : z = x <;> simp [ScopeTable.lookup, ScopeTable.set, rebind, hz]
  induction f generalizing n σ with
  | atom a => rfl
  | not f ih => simp [standardiseScoped, ih, standardiseFrom, quantifiers, freeVars]
  | and f g ihf ihg | or f g ihf ihg | imp f g ihf ihg | iff f g ihf ihg =>
    rw [standardiseScoped, ScopePass.inTurn_eq (ihf n σ) (ihg _ _), ScopeTable.enter_enter,
      ScopeTable.lookup_enter, standardiseFrom, quantifiers, freeVars, Nat.add_assoc]
  | all x f ih | ex x f ih =>
    simp only [standardiseScoped, ih, Option.bind_eq_bind, Option.bind_some, lookup_set,
      ScopeTable.restore?_enter_set, standardiseFrom, quantifiers, freeVars]
    rw [Nat.add_right_comm, Nat.add_assoc]
    rfl

/-! ## Section 3: Skolemising -/

/-- Replace existential quantifiers by Skolem symbols, with a table of what the variables stand for.
    `us` are the universally quantified variables in scope. -/
def skolemiseScoped (origin : Option Nat) : Formula → List Term → ScopePass Term
  | .atom a, _ => fun n σ => some (.atom (a.subst (σ.lookup .var)), n, σ)
  | .not f, us => fun n σ => do
    let (g, n, σ) ← f.skolemiseScoped origin us n σ
    return (.not g, n, σ)
  | .and f g, us => .inTurn .and (f.skolemiseScoped origin us) (g.skolemiseScoped origin us)
  | .or f g, us => .inTurn .or (f.skolemiseScoped origin us) (g.skolemiseScoped origin us)
  | .imp f g, us => .inTurn .imp (f.skolemiseScoped origin us) (g.skolemiseScoped origin us)
  | .iff f g, us => .inTurn .iff (f.skolemiseScoped origin us) (g.skolemiseScoped origin us)
  | .all x f, us => fun n σ => do
    let (g, n, σ) ← f.skolemiseScoped origin (us ++ [.var x]) n σ
    return (.all x g, n, σ)
  | .ex x f, us => fun n σ => do
    let (g, n, σ) ← f.skolemiseScoped origin us (n + 1) (σ.set x (.app (.skolem n x origin) us))
    return (g, n, ← σ.delete? x)

/-- No entry is missing if no existential quantifier stands in the scope of another one for the same
    variable, and the table is afterwards as it was before. -/
theorem skolemiseScoped_eq (origin : Option Nat) {f : Formula} (hf : f.nestsExistential = false)
    (us : List Term) (n : Nat) {σ : ScopeTable Term}
    (hσ : ∀ x, f.bindsExistentially x = true → σ.find? x = none) :
    f.skolemiseScoped origin us n σ =
      some (f.skolemiseFrom origin n us (σ.lookup .var), n + f.existentials, σ) := by
  induction f generalizing us n σ with
  | atom a => rfl
  | not f ih => simp [skolemiseScoped, ih hf us n hσ, skolemiseFrom, existentials]
  | and f g ihf ihg | or f g ihf ihg | imp f g ihf ihg | iff f g ihf ihg =>
    obtain ⟨hf, hg⟩ := Bool.or_eq_false_iff.mp hf
    have hleft := ihf hf us n fun x hx => hσ x (Bool.or_eq_true_iff.mpr (Or.inl hx))
    have hright := ihg hg us (n + f.existentials) fun x hx =>
      hσ x (Bool.or_eq_true_iff.mpr (Or.inr hx))
    rw [skolemiseScoped, ScopePass.inTurn_eq hleft hright, skolemiseFrom, existentials,
      Nat.add_assoc]
  | all x f ih => simp [skolemiseScoped, ih hf _ n hσ, skolemiseFrom, existentials]
  | ex x f ih =>
    obtain ⟨hx, hf⟩ := Bool.or_eq_false_iff.mp hf
    have hnone : σ.find? x = none := hσ x (by simp [bindsExistentially])
    -- the entry of `x` is in nobody's way, since `x` is not bound again
    have hset : ∀ y, f.bindsExistentially y = true →
        (σ.set x (.app (.skolem n x origin) us)).find? y = none := by
      intro y hy
      have hyx : y ≠ x := by
        rintro rfl
        rw [hx] at hy
        cases hy
      rw [ScopeTable.find?_set, if_neg hyx]
      exact hσ y (by simp [bindsExistentially, hy])
    have hlookup : (σ.set x (.app (.skolem n x origin) us)).lookup .var =
        fun y => if y = x then .app (.skolem n x origin) us else σ.lookup .var y := by
      funext y
      by_cases hyx : y = x <;> simp [ScopeTable.lookup, ScopeTable.set, hyx]
    simp only [skolemiseScoped, ih hf us (n + 1) hset, hlookup, Option.bind_eq_bind,
      Option.bind_some, ScopeTable.delete?_set hnone, skolemiseFrom, existentials]
    rw [Nat.add_right_comm, Nat.add_assoc]
    rfl

/-- The inner of two quantifiers for one variable deletes the entry of both. -/
example : (Formula.ex (.num 0) (.ex (.num 0) (.atom (.pred (.num 1) [])))).skolemiseScoped none [] 0
    .empty = none := rfl

/-! ## Section 4: All stages -/

/-- Where no scope hides another one, existential quantifiers do not either. -/
theorem WellScoped.existential {B : List Ident} {f : Formula} (hf : f.WellScoped B) :
    f.nestsExistential = false ∧ ∀ x ∈ B, f.bindsExistentially x = false := by
  induction f generalizing B with
  | atom a => exact ⟨rfl, fun _ _ => rfl⟩
  | not f ih => exact ih hf
  | and f g ihf ihg | or f g ihf ihg | imp f g ihf ihg | iff f g ihf ihg =>
    obtain ⟨hfn, hfb⟩ := ihf hf.1
    obtain ⟨hgn, hgb⟩ := ihg hf.2
    exact ⟨Bool.or_eq_false_iff.mpr ⟨hfn, hgn⟩,
      fun x hx => Bool.or_eq_false_iff.mpr ⟨hfb x hx, hgb x hx⟩⟩
  | all y f ih =>
    obtain ⟨hn, hb⟩ := ih hf.2
    exact ⟨hn, fun x hx => hb x (List.mem_cons_of_mem _ hx)⟩
  | ex y f ih =>
    obtain ⟨hn, hb⟩ := ih hf.2
    refine ⟨Bool.or_eq_false_iff.mpr ⟨hb y List.mem_cons_self, hn⟩, fun x hx => ?_⟩
    have hyx : y ≠ x := fun h => hf.1 (h ▸ hx)
    exact Bool.or_eq_false_iff.mpr ⟨decide_eq_false hyx, hb x (List.mem_cons_of_mem _ hx)⟩

/-- All disjuncts of a conjunction of disjunctions of literals are literals. -/
theorem clauses?_eq_ok {f : Formula} (hf : f.IsConjunction) : f.clauses? = .ok f.clauses := by
  have hnone : (f.conjuncts.flatMap disjuncts).find? (fun d => (Literal.ofFormula? d).isNone) =
      none := by
    refine List.find?_eq_none.mpr fun d hd => ?_
    obtain ⟨c, hc, hd⟩ := List.mem_flatMap.mp hd
    obtain ⟨l, hl⟩ :=
      isSome_ofFormula?_of_mem_disjuncts (isDisjunction_of_mem_conjuncts hf hc) hd
    simp [hl]
  rw [clauses?, hnone]

/-- The clauses of a formula, made with tables; there are none if an entry that is to be deleted is
    missing, or if a disjunct is no literal. -/
def toCnfScoped? (s : Names) (f : Formula) : Option (Cnf × Names) := do
  let origin := some s.sources.size
  let xs := dedup f.freeVars
  let free := standardFree origin s.next xs
  let (standard, n, _) ← f.standardiseScoped origin free (s.next + xs.length) .empty
  let (skolemised, n, _) ← standard.eliminate.nnf.skolemiseScoped origin
    ((xs.map free).map .var) n .empty
  let clauses ← skolemised.dropUniversals.distribute.clauses?.toOption
  return (Cnf.ofList clauses, { s.record (.formula f) with next := n })

/-- Nothing is missing on the way to clauses. -/
theorem toCnfScoped?_eq (s : Names) (f : Formula) : f.toCnfScoped? s = some (f.toCnf s) := by
  have hs : (f.standardForm s).1.result.Separated (f.standardForm s).1.free :=
    separated_standardise
  obtain ⟨hnests, -⟩ := (hs.wellScoped.eliminate.nnfAs true).existential
  let free := standardFree (some s.sources.size) s.next (dedup f.freeVars)
  have hstandard : f.standardiseScoped (some s.sources.size) free
      (s.next + (dedup f.freeVars).length) .empty = some ((f.standardForm s).1.result,
        (f.standardForm s).2.next, ScopeTable.empty.enter free f.freeVars) := by
    rw [standardiseScoped_eq, next_standardForm, Nat.add_assoc]
    rfl
  have hskolem := skolemiseScoped_eq (some s.sources.size) hnests
    (((dedup f.freeVars).map free).map .var) (f.standardForm s).2.next (σ := .empty) fun _ _ => rfl
  have hclauses : (f.matrix s).distribute.clauses? = .ok (f.matrix s).distribute.clauses :=
    clauses?_eq_ok (isConjunction_distribute (isMatrix_matrixAs _ _ _ _ _ _))
  unfold toCnfScoped?
  simp only [free, hstandard, nnf, hskolem, Option.bind_eq_bind, Option.bind_some]
  exact congrArg (fun r : Except Formula (List Clause) =>
    r.toOption.bind fun cs => some (Cnf.ofList cs, (f.toCnf s).2)) hclauses

end Formula

end Clausal
