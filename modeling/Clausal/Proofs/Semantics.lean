import Clausal.Clause
import Clausal.Normal.Standard
import Clausal.Proofs.Distinct
import Clausal.Proofs.Term
import Mathlib.Data.Set.Defs
import Mathlib.Logic.Function.Basic

/-!
# Interpretations

What formulas and clauses mean.  An interpretation gives values to constants, function and predicate
symbols of every arity over a domain, and reads equations by a binary relation that need not be
identity.  `==` identifies an equation with its mirror image, so most statements about clauses ask
for a symmetric relation.

A formula with free variables is read as universally closed when it is stated, and as existentially
closed when it is asked: `Models` is the one, `∃ v, Holds v f` the other.

## Main definitions

- `Interpretation`, `Interpretation.Holds`, `Interpretation.HoldsClause`
- `Interpretation.Models`, `Interpretation.ModelsClause`: truth under every valuation
- `Interpretation.SameExcept`: two interpretations that differ on some function symbols only
- `termModel`: the interpretation by terms in which given atoms are true

## Main statements

- `Interpretation.eval_subst`, `Interpretation.holdsLiteral_subst`: the substitution lemma
- `Interpretation.holds_congr`: truth depends on the free variables only
- `Interpretation.holdsClause_of_beq`: equal clauses are true together
-/

namespace Clausal

universe u

/-! ## Section 1: Truth -/

/-- A domain with values for all symbols and a reading of equations. -/
structure Interpretation (D : Type u) where
  const : Ident → D
  func : Ident → List D → D
  pred : Ident → List D → Prop
  eq : D → D → Prop

namespace Interpretation

variable {D : Type u} (I : Interpretation D)

mutual

/-- The value of a term. -/
def eval (v : Ident → D) : Term → D
  | .var x => v x
  | .const c => I.const c
  | .app f args => I.func f (evalList v args)

/-- The values of several terms. -/
def evalList (v : Ident → D) : List Term → List D
  | [] => []
  | t :: ts => eval v t :: evalList v ts

end

/-- The truth of an atom. -/
def HoldsAtom (v : Ident → D) : Atom → Prop
  | .pred p ts => I.pred p (ts.map (I.eval v))
  | .eq l r => I.eq (I.eval v l) (I.eval v r)

/-- The truth of a literal: its sign tells whether the atom is true. -/
def HoldsLiteral (v : Ident → D) (l : Literal) : Prop :=
  I.HoldsAtom v l.atom ↔ l.positive = true

/-- Some of the given literals is true. -/
def HoldsSome (v : Ident → D) (ls : List Literal) : Prop :=
  ∃ l ∈ ls, I.HoldsLiteral v l

/-- The truth of a clause. -/
def HoldsClause (v : Ident → D) (c : Clause) : Prop :=
  I.HoldsSome v c.literals

/-- The truth of a formula. -/
def Holds (v : Ident → D) : Formula → Prop
  | .atom a => I.HoldsAtom v a
  | .not f => ¬ Holds v f
  | .and f g => Holds v f ∧ Holds v g
  | .or f g => Holds v f ∨ Holds v g
  | .imp f g => Holds v f → Holds v g
  | .iff f g => (Holds v f ↔ Holds v g)
  | .all x f => ∀ d, Holds (Function.update v x d) f
  | .ex x f => ∃ d, Holds (Function.update v x d) f

/-- Equations are read without direction. -/
def SymmetricEq : Prop :=
  ∀ ⦃a b⦄, I.eq a b → I.eq b a

/-- The universal closure of a formula is true. -/
def Models (f : Formula) : Prop :=
  ∀ v, I.Holds v f

/-- The universal closure of a clause is true. -/
def ModelsClause (c : Clause) : Prop :=
  ∀ v, I.HoldsClause v c

/-! ## Section 2: Substitution and coincidence -/

private theorem evalList_eq_map (v : Ident → D) (ts : List Term) :
    I.evalList v ts = ts.map (I.eval v) := by
  induction ts with
  | nil => rfl
  | cons t ts ih => simp [evalList, ih]

@[simp]
theorem eval_var (v : Ident → D) (x : Ident) : I.eval v (.var x) = v x := rfl

@[simp]
theorem eval_app (v : Ident → D) (f : Ident) (ts : List Term) :
    I.eval v (.app f ts) = I.func f (ts.map (I.eval v)) := by
  simp [eval, evalList_eq_map]

theorem eval_congr {v w : Ident → D} {t : Term} (h : ∀ x ∈ t.vars, v x = w x) :
    I.eval v t = I.eval w t := by
  induction t using Term.induction with
  | var x => exact h x (by simp [Term.vars])
  | const c => rfl
  | app f ts ih =>
    rw [eval_app, eval_app]
    congr 1
    refine List.map_congr_left fun a ha => ih a ha fun x hx => ?_
    exact h x (by simpa using ⟨a, ha, hx⟩)

/-- The value of an instance of a term. -/
theorem eval_subst (v : Ident → D) (θ : Ident → Term) (t : Term) :
    I.eval v (t.subst θ) = I.eval (fun x => I.eval v (θ x)) t := by
  induction t using Term.induction with
  | var x => rfl
  | const c => rfl
  | app f ts ih =>
    simp only [Term.subst_app, eval_app, List.map_map]
    congr 1
    exact List.map_congr_left ih

theorem holdsAtom_congr {v w : Ident → D} {a : Atom} (h : ∀ x ∈ a.vars, v x = w x) :
    I.HoldsAtom v a ↔ I.HoldsAtom w a := by
  have hargs : ∀ t ∈ a.args, I.eval v t = I.eval w t := fun t ht =>
    I.eval_congr fun x hx => h x (List.mem_flatMap.mpr ⟨t, ht, hx⟩)
  cases a with
  | pred p ts =>
    have hts : ts.map (I.eval v) = ts.map (I.eval w) := List.map_congr_left hargs
    simp only [HoldsAtom, hts]
  | eq l r =>
    simp only [HoldsAtom, hargs l (by simp [Atom.args]), hargs r (by simp [Atom.args])]

theorem holdsAtom_subst (v : Ident → D) (θ : Ident → Term) (a : Atom) :
    I.HoldsAtom v (a.subst θ) ↔ I.HoldsAtom (fun x => I.eval v (θ x)) a := by
  cases a with
  | pred p ts =>
    simp only [Atom.subst, HoldsAtom, List.map_map, Function.comp_def, eval_subst]
  | eq l r => simp only [Atom.subst, HoldsAtom, eval_subst]

theorem holdsLiteral_subst (v : Ident → D) (θ : Ident → Term) (l : Literal) :
    I.HoldsLiteral v (l.subst θ) ↔ I.HoldsLiteral (fun x => I.eval v (θ x)) l := by
  simp only [HoldsLiteral, Literal.atom_subst, Literal.positive_subst, holdsAtom_subst]

theorem holdsLiteral_negate (v : Ident → D) (l : Literal) :
    I.HoldsLiteral v l.negate ↔ ¬ I.HoldsLiteral v l := by
  cases h : l.positive <;> simp [HoldsLiteral, Literal.negate, h]

/-- An instance of several literals has a true one if the literals always have. -/
theorem holdsSome_map_subst (v : Ident → D) (θ : Ident → Term) (ls : List Literal) :
    I.HoldsSome v (ls.map (Literal.subst θ)) ↔ I.HoldsSome (fun x => I.eval v (θ x)) ls := by
  simp [HoldsSome, holdsLiteral_subst]

/-- The truth of a formula depends on the values of its free variables only. -/
theorem holds_congr {v w : Ident → D} {f : Formula} (h : ∀ x ∈ f.freeVars, v x = w x) :
    I.Holds v f ↔ I.Holds w f := by
  induction f generalizing v w with
  | atom a => exact I.holdsAtom_congr h
  | not f ih => exact not_congr (ih h)
  | and f g ihf ihg =>
    exact and_congr (ihf fun x hx => h x (List.mem_append_left _ hx))
      (ihg fun x hx => h x (List.mem_append_right _ hx))
  | or f g ihf ihg =>
    exact or_congr (ihf fun x hx => h x (List.mem_append_left _ hx))
      (ihg fun x hx => h x (List.mem_append_right _ hx))
  | imp f g ihf ihg =>
    exact imp_congr (ihf fun x hx => h x (List.mem_append_left _ hx))
      (ihg fun x hx => h x (List.mem_append_right _ hx))
  | iff f g ihf ihg =>
    exact iff_congr (ihf fun x hx => h x (List.mem_append_left _ hx))
      (ihg fun x hx => h x (List.mem_append_right _ hx))
  | all y f ih =>
    refine forall_congr' fun d => ih fun x hx => ?_
    by_cases hxy : x = y
    · simp [hxy]
    · simpa [hxy] using h x (by simpa [Formula.freeVars] using ⟨hx, hxy⟩)
  | ex y f ih =>
    refine exists_congr fun d => ih fun x hx => ?_
    by_cases hxy : x = y
    · simp [hxy]
    · simpa [hxy] using h x (by simpa [Formula.freeVars] using ⟨hx, hxy⟩)

end Interpretation

/-! ## Section 3: Equations without direction -/

namespace Interpretation

variable {D : Type u} {I : Interpretation D}

theorem holdsAtom_of_beq (hI : I.SymmetricEq) (v : Ident → D) {a b : Atom} (h : (a == b) = true) :
    I.HoldsAtom v a ↔ I.HoldsAtom v b := by
  rcases Atom.beq_iff.mp h with rfl | ⟨l, r, rfl, rfl⟩
  · exact Iff.rfl
  · exact ⟨fun h => hI h, fun h => hI h⟩

theorem holdsLiteral_of_beq (hI : I.SymmetricEq) (v : Ident → D) {l m : Literal}
    (h : (l == m) = true) : I.HoldsLiteral v l ↔ I.HoldsLiteral v m := by
  obtain ⟨ha, hp⟩ := Literal.beq_iff.mp h
  simp only [HoldsLiteral, holdsAtom_of_beq hI v ha, hp]

private theorem holdsSome_dedup (hI : I.SymmetricEq) (v : Ident → D) (ls : List Literal) :
    I.HoldsSome v (dedup ls) ↔ I.HoldsSome v ls :=
  exists_mem_dedup (fun _ _ h => (holdsLiteral_of_beq hI v h).mpr) ls

theorem holdsClause_ofList (hI : I.SymmetricEq) (v : Ident → D) (ls : List Literal)
    (form : ClauseForm) : I.HoldsClause v (Clause.ofList ls form) ↔ I.HoldsSome v ls :=
  holdsSome_dedup hI v ls

theorem holdsClause_of_beq (hI : I.SymmetricEq) (v : Ident → D) {c d : Clause}
    (h : (c == d) = true) : I.HoldsClause v c → I.HoldsClause v d := by
  change c.same d = true at h
  simp only [Clause.same, Bool.and_eq_true, List.all_eq_true] at h
  rintro ⟨l, hl, hv⟩
  obtain ⟨m, hm, hlm⟩ := List.contains_iff_exists_mem_beq.mp (h.1 l hl)
  exact ⟨m, hm, (holdsLiteral_of_beq hI v hlm).mp hv⟩

/-- Truth of all clauses does not change when repetitions are dropped. -/
theorem modelsClause_dedup (hI : I.SymmetricEq) (cs : List Clause) :
    (∀ c ∈ dedup cs, I.ModelsClause c) ↔ ∀ c ∈ cs, I.ModelsClause c :=
  forall_mem_dedup (fun _ _ h hc v => holdsClause_of_beq hI v h (hc v)) cs

/-- Instances of a clause that is true under every valuation are so too. -/
theorem ModelsClause.subst (hI : I.SymmetricEq) {c : Clause} (h : I.ModelsClause c)
    (θ : Ident → Term) : I.ModelsClause (c.subst θ) := by
  intro v
  refine (holdsClause_ofList hI v _ _).mpr ?_
  exact (I.holdsSome_map_subst v θ c.literals).mpr (h _)

end Interpretation

/-! ## Section 4: Changing function symbols -/

/-- The atoms of a formula from left to right. -/
def Formula.atoms : Formula → List Atom
  | .atom a => [a]
  | .not f | .all _ f | .ex _ f => f.atoms
  | .and f g | .or f g | .imp f g | .iff f g => f.atoms ++ g.atoms

/-- The function symbols of a formula from left to right, with repetitions. -/
def Formula.functions (f : Formula) : List Ident :=
  f.atoms.flatMap Atom.functions

/-- What holds of the function symbols of a formula with two parts holds of those of the parts. -/
theorem Formula.forall_functions_append {p : Ident → Prop} {f g : Formula} :
    (∀ i ∈ (f.atoms ++ g.atoms).flatMap Atom.functions, p i) ↔
      (∀ i ∈ f.functions, p i) ∧ ∀ i ∈ g.functions, p i := by
  rw [List.flatMap_append, List.forall_mem_append]
  exact Iff.rfl

namespace Interpretation

variable {D : Type u} {I J K : Interpretation D} {new : Ident → Prop}

/-- `J` differs from `I` at most in the values of the function symbols in `new`. -/
structure SameExcept (new : Ident → Prop) (I J : Interpretation D) : Prop where
  const : J.const = I.const
  pred : J.pred = I.pred
  eq : J.eq = I.eq
  func : ∀ g, ¬ new g → J.func g = I.func g

theorem SameExcept.refl (new : Ident → Prop) (I : Interpretation D) : SameExcept new I I :=
  ⟨rfl, rfl, rfl, fun _ _ => rfl⟩

theorem SameExcept.trans {old : Ident → Prop} (h : SameExcept old I J) (h' : SameExcept new J K) :
    SameExcept (fun g => old g ∨ new g) I K where
  const := h'.const.trans h.const
  pred := h'.pred.trans h.pred
  eq := h'.eq.trans h.eq
  func g hg := (h'.func g fun hn => hg (Or.inr hn)).trans (h.func g fun ho => hg (Or.inl ho))

theorem SameExcept.mono {old : Ident → Prop} (h : SameExcept new I J) (hn : ∀ g, new g → old g) :
    SameExcept old I J :=
  ⟨h.const, h.pred, h.eq, fun g hg => h.func g fun hnew => hg (hn g hnew)⟩

theorem SameExcept.symmetricEq (h : SameExcept new I J) (hI : I.SymmetricEq) : J.SymmetricEq := by
  intro a b hab
  rw [h.eq] at hab ⊢
  exact hI hab

theorem SameExcept.eval (h : SameExcept new I J) (v : Ident → D) {t : Term}
    (ht : ∀ g ∈ t.functions, ¬ new g) : J.eval v t = I.eval v t := by
  induction t using Term.induction with
  | var x => rfl
  | const c => exact congrFun h.const c
  | app f ts ih =>
    simp only [Term.functions_app, List.mem_cons, List.mem_flatMap, forall_eq_or_imp] at ht
    rw [eval_app, eval_app, h.func f ht.1]
    congr 1
    exact List.map_congr_left fun a ha => ih a ha fun g hg => ht.2 g ⟨a, ha, hg⟩

theorem SameExcept.holdsAtom (h : SameExcept new I J) (v : Ident → D) {a : Atom}
    (ha : ∀ g ∈ a.functions, ¬ new g) : J.HoldsAtom v a ↔ I.HoldsAtom v a := by
  have hargs : ∀ t ∈ a.args, J.eval v t = I.eval v t := fun t ht =>
    h.eval v fun g hg => ha g (List.mem_flatMap.mpr ⟨t, ht, hg⟩)
  cases a with
  | pred p ts =>
    have hts : ts.map (J.eval v) = ts.map (I.eval v) := List.map_congr_left hargs
    simp only [HoldsAtom, hts, h.pred]
  | eq l r =>
    simp only [HoldsAtom, h.eq, hargs l (by simp [Atom.args]), hargs r (by simp [Atom.args])]

theorem SameExcept.holds (h : SameExcept new I J) (v : Ident → D) {f : Formula}
    (hf : ∀ g ∈ f.functions, ¬ new g) : J.Holds v f ↔ I.Holds v f := by
  have parts {f g : Formula} := @Formula.forall_functions_append (fun i => ¬ new i) f g
  induction f generalizing v with
  | atom a => exact h.holdsAtom v fun g hg => hf g (by simpa [Formula.functions, Formula.atoms])
  | not f ih => exact not_congr (ih v hf)
  | and f g ihf ihg => exact and_congr (ihf v (parts.mp hf).1) (ihg v (parts.mp hf).2)
  | or f g ihf ihg => exact or_congr (ihf v (parts.mp hf).1) (ihg v (parts.mp hf).2)
  | imp f g ihf ihg => exact imp_congr (ihf v (parts.mp hf).1) (ihg v (parts.mp hf).2)
  | iff f g ihf ihg => exact iff_congr (ihf v (parts.mp hf).1) (ihg v (parts.mp hf).2)
  | all x f ih => exact forall_congr' fun d => ih _ hf
  | ex x f ih => exact exists_congr fun d => ih _ hf

theorem SameExcept.holdsClause (h : SameExcept new I J) (v : Ident → D) {c : Clause}
    (hc : ∀ l ∈ c.literals, ∀ g ∈ l.atom.functions, ¬ new g) :
    J.HoldsClause v c ↔ I.HoldsClause v c := by
  refine exists_congr fun l => and_congr_right fun hl => ?_
  simp only [HoldsLiteral, h.holdsAtom v (hc l hl)]

end Interpretation

/-! ## Section 5: Terms as a domain -/

/-- The interpretation by terms, where every term is its own value and the atoms in `M` are true. -/
def termModel (M : Set Atom) : Interpretation Term where
  const := .const
  func := .app
  pred p ts := .pred p ts ∈ M
  eq l r := .eq l r ∈ M

@[simp]
theorem eval_termModel (M : Set Atom) (θ : Ident → Term) (t : Term) :
    (termModel M).eval θ t = t.subst θ := by
  induction t using Term.induction with
  | var x => rfl
  | const c => rfl
  | app f ts ih =>
    rw [Interpretation.eval_app, Term.subst_app, List.map_congr_left ih]
    rfl

theorem holdsAtom_termModel {M : Set Atom} {θ : Ident → Term} {a : Atom} :
    (termModel M).HoldsAtom θ a ↔ a.subst θ ∈ M := by
  cases a with
  | pred p ts =>
    rw [Interpretation.HoldsAtom, List.map_congr_left fun t _ => eval_termModel M θ t]
    rfl
  | eq l r =>
    rw [Interpretation.HoldsAtom, eval_termModel, eval_termModel]
    rfl

end Clausal
