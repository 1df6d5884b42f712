import Clausal.Proofs.Normal.Cnf
import Clausal.Proofs.Ordinal
import Clausal.Proofs.Relabelling.Supply

/-!
# Normal forms under relabelling

Formulas that differ in labels have clauses that differ in labels.  The labels of the new names may
be any: a relabelling has to be in step with the two supplies only as far as they are used, and one
that is follows the clauses whatever it does with the names that are handed out later.

## Main definitions

- `Formula.relabel`, `Cnf.relabel`
- `Formula.serials`: how many serials the clauses of a formula take

## Main statements

- `Formula.toCnf_relabel`: clauses of a relabelled formula
- `Formula.relates_toCnf`: the same with supplies in step
-/

namespace Clausal

variable (π : Relabelling)

/-! ## Section 1: Formulas -/

namespace Formula

/-- A formula with other labels. -/
@[simp]
def relabel : Formula → Formula
  | .atom a => .atom (a.relabel π)
  | .not f => .not f.relabel
  | .and f g => .and f.relabel g.relabel
  | .or f g => .or f.relabel g.relabel
  | .imp f g => .imp f.relabel g.relabel
  | .iff f g => .iff f.relabel g.relabel
  | .all x f => .all (x.relabel π) f.relabel
  | .ex x f => .ex (x.relabel π) f.relabel

theorem freeVars_relabel (f : Formula) :
    (f.relabel π).freeVars = f.freeVars.map (Ident.relabel π) := by
  induction f with
  | atom a => exact a.vars_relabel π
  | not f ih => exact ih
  | and f g ihf ihg | or f g ihf ihg | imp f g ihf ihg | iff f g ihf ihg =>
    simp only [relabel, freeVars, ihf, ihg, List.map_append]
  | all x f ih | ex x f ih =>
    simp only [relabel, freeVars, ih, List.filter_map, Function.comp_def, ne_eq, Ident.relabel_inj]

@[simp]
theorem quantifiers_relabel (f : Formula) : (f.relabel π).quantifiers = f.quantifiers := by
  induction f with
  | atom a => rfl
  | not f ih => exact ih
  | and f g ihf ihg | or f g ihf ihg | imp f g ihf ihg | iff f g ihf ihg =>
    simp only [relabel, quantifiers, ihf, ihg]
  | all x f ih | ex x f ih => simp only [relabel, quantifiers, ih]

@[simp]
theorem existentials_relabel (f : Formula) : (f.relabel π).existentials = f.existentials := by
  induction f with
  | atom a => rfl
  | not f ih => exact ih
  | and f g ihf ihg | or f g ihf ihg | imp f g ihf ihg | iff f g ihf ihg =>
    simp only [relabel, existentials, ihf, ihg]
  | all x f ih | ex x f ih => simp only [relabel, existentials, ih]

end Formula

/-! ## Section 2: Stages -/

namespace Relabelling

variable {π} {j k n n' : Nat}

/-- The `k` serials from `n` on become those from `n'` on, in order. -/
def InStep (π : Relabelling) (k n n' : Nat) : Prop :=
  ∀ i < k, π.serial (n + i) = n' + i

theorem InStep.left (h : π.InStep (j + k) n n') : π.InStep j n n' :=
  fun i hi => h i (Nat.lt_of_lt_of_le hi (Nat.le_add_right j k))

theorem InStep.right (h : π.InStep (j + k) n n') : π.InStep k (n + j) (n' + j) := by
  intro i hi
  rw [Nat.add_assoc, h (j + i) (Nat.add_lt_add_left hi j), Nat.add_assoc]

theorem InStep.head (h : π.InStep (k + 1) n n') : π.serial n = n' :=
  h 0 (Nat.succ_pos k)

theorem InStep.tail (h : π.InStep (k + 1) n n') : π.InStep k (n + 1) (n' + 1) := by
  rw [Nat.add_comm] at h
  exact h.right

end Relabelling

namespace Formula

variable {π} {origin : Option Nat}

/-- Quantifiers take their serials in step.  What becomes of other variables matters only for those
    that are free. -/
theorem relabel_standardiseFrom {n n' : Nat} {ρ ρ' : Ident → Ident} (f : Formula)
    (h : π.InStep f.quantifiers n n')
    (hρ : ∀ x ∈ f.freeVars, (ρ x).relabel π = ρ' (x.relabel π)) :
    (f.standardiseFrom origin n ρ).relabel π =
      (f.relabel π).standardiseFrom (origin.map π.place) n' ρ' := by
  induction f generalizing n n' ρ ρ' with
  | atom a =>
    refine congrArg Formula.atom (Atom.relabel_subst π fun x hx => ?_)
    rw [Term.relabel_var, hρ x hx]
  | not f ih => exact congrArg Formula.not (ih h hρ)
  | and f g ihf ihg | or f g ihf ihg | imp f g ihf ihg | iff f g ihf ihg =>
    have hf := ihf h.left fun x hx => hρ x (List.mem_append_left _ hx)
    have hg := ihg h.right fun x hx => hρ x (List.mem_append_right _ hx)
    simp only [standardiseFrom, relabel, hf, hg, quantifiers_relabel]
  | all x f ih | ex x f ih =>
    have hbound : (Ident.standard n x origin).relabel π =
        .standard n' (x.relabel π) (origin.map π.place) := by
      rw [Ident.relabel, h.head]
    have hrebind : ∀ y ∈ f.freeVars, (rebind ρ x (.standard n x origin) y).relabel π =
        rebind ρ' (x.relabel π) (.standard n' (x.relabel π) (origin.map π.place))
          (y.relabel π) := by
      intro y hy
      simp only [rebind, Ident.relabel_inj]
      split
      next => exact hbound
      next hyx => exact hρ y (List.mem_filter.mpr ⟨hy, by simpa using hyx⟩)
    simp only [standardiseFrom, relabel, ih h.tail hrebind, hbound]

theorem relabel_eliminate (f : Formula) : f.eliminate.relabel π = (f.relabel π).eliminate := by
  induction f with
  | atom a => rfl
  | not f ih => simp only [eliminate, relabel, ih]
  | and f g ihf ihg | or f g ihf ihg | imp f g ihf ihg | iff f g ihf ihg =>
    simp only [eliminate, relabel, ihf, ihg]
  | all x f ih | ex x f ih => simp only [eliminate, relabel, ih]

private theorem relabel_nnfAs (b : Bool) (f : Formula) :
    (f.nnfAs b).relabel π = (f.relabel π).nnfAs b := by
  induction f generalizing b with
  | atom a => cases b <;> rfl
  | not f ih => simp only [nnfAs, relabel, ih]
  | and f g ihf ihg | or f g ihf ihg | imp f g ihf ihg | iff f g ihf ihg =>
    cases b <;> simp only [nnfAs, relabel, ihf, ihg]
  | all x f ih | ex x f ih => cases b <;> simp only [nnfAs, relabel, ih]

theorem relabel_nnf (f : Formula) : f.nnf.relabel π = (f.relabel π).nnf :=
  f.relabel_nnfAs true

/-- Skolem symbols take their serials in step. -/
theorem relabel_skolemiseFrom {n n' : Nat} {us : List Term} {θ θ' : Ident → Term} (f : Formula)
    (h : π.InStep f.existentials n n') (hθ : ∀ x, (θ x).relabel π = θ' (x.relabel π)) :
    (f.skolemiseFrom origin n us θ).relabel π =
      (f.relabel π).skolemiseFrom (origin.map π.place) n' (us.map (Term.relabel π)) θ' := by
  induction f generalizing n n' us θ θ' with
  | atom a => exact congrArg Formula.atom (Atom.relabel_subst π fun x _ => hθ x)
  | not f ih => exact congrArg Formula.not (ih h hθ)
  | and f g ihf ihg | or f g ihf ihg | imp f g ihf ihg | iff f g ihf ihg =>
    simp only [skolemiseFrom, relabel, ihf h.left hθ, ihg h.right hθ, existentials_relabel]
  | all x f ih =>
    simp only [skolemiseFrom, relabel, ih h hθ, List.map_append, List.map_singleton,
      Term.relabel_var]
  | ex x f ih =>
    refine ih h.tail fun y => ?_
    -- the variable becomes the new symbol, with the same arguments
    simp only [Ident.relabel_inj]
    split
    next => rw [Term.relabel_app, Ident.relabel, h.head]
    next => exact hθ y

private theorem relabel_dropUniversals (f : Formula) :
    f.dropUniversals.relabel π = (f.relabel π).dropUniversals := by
  induction f with
  | atom a => rfl
  | not f ih => simp only [dropUniversals, relabel, ih]
  | and f g ihf ihg | or f g ihf ihg | imp f g ihf ihg | iff f g ihf ihg =>
    simp only [dropUniversals, relabel, ihf, ihg]
  | all x f ih | ex x f ih => simp only [dropUniversals, relabel, ih]

private theorem relabel_orRight (f g : Formula) :
    (orRight f g).relabel π = orRight (f.relabel π) (g.relabel π) := by
  induction g with
  | and g h ihg ihh => simp only [orRight, relabel, ihg, ihh]
  | atom | not | or | imp | iff | all | ex => rfl

private theorem relabel_orBoth (f g : Formula) :
    (orBoth f g).relabel π = orBoth (f.relabel π) (g.relabel π) := by
  induction f with
  | and f h ihf ihh => simp only [orBoth, relabel, ihf, ihh]
  | atom | not | or | imp | iff | all | ex => exact relabel_orRight _ g

theorem relabel_distribute (f : Formula) : f.distribute.relabel π = (f.relabel π).distribute := by
  induction f with
  | atom a => rfl
  | not f ih => simp only [distribute, relabel, ih]
  | or f g ihf ihg => simp only [distribute, relabel, relabel_orBoth, ihf, ihg]
  | and f g ihf ihg | imp f g ihf ihg | iff f g ihf ihg =>
    simp only [distribute, relabel, ihf, ihg]
  | all x f ih | ex x f ih => simp only [distribute, relabel, ih]

private theorem conjuncts_relabel (f : Formula) :
    (f.relabel π).conjuncts = f.conjuncts.map (relabel π) := by
  induction f with
  | and f g ihf ihg => simp only [relabel, conjuncts, ihf, ihg, List.map_append]
  | atom | not | or | imp | iff | all | ex => rfl

private theorem disjuncts_relabel (f : Formula) :
    (f.relabel π).disjuncts = f.disjuncts.map (relabel π) := by
  induction f with
  | or f g ihf ihg => simp only [relabel, disjuncts, ihf, ihg, List.map_append]
  | atom | not | and | imp | iff | all | ex => rfl

private theorem ofFormula?_relabel (f : Formula) :
    Literal.ofFormula? (f.relabel π) = (Literal.ofFormula? f).map (Literal.relabel π) := by
  cases f with
  | not f => cases f <;> rfl
  | atom | and | or | imp | iff | all | ex => rfl

private theorem clauses_relabel (f : Formula) :
    (f.relabel π).clauses = f.clauses.map (Clause.relabel π) := by
  simp only [clauses, conjuncts_relabel, List.map_map, Function.comp_def, disjuncts_relabel,
    List.filterMap_map, ofFormula?_relabel, Clause.relabel_ofList, List.map_filterMap]

end Formula

/-! ## Section 3: Normal forms -/

/-- A conjunction of clauses with other labels. -/
def Cnf.relabel (c : Cnf) : Cnf where
  clauses := c.clauses.map (Clause.relabel π)
  distinct := (Clause.keepsEq_relabel π).distinct_map c.distinct

private theorem Cnf.relabel_ofList (cs : List Clause) :
    (ofList cs).relabel π = ofList (cs.map (Clause.relabel π)) := by
  simp only [relabel, ofList, (Clause.keepsEq_relabel π).dedup_map]

namespace Formula

variable {π} {s s' : Names} {f : Formula}

/-- The first stage of a relabelled formula.  The free variables take the first serials. -/
theorem standardForm_relabel
    (h : π.InStep ((dedup f.freeVars).length + f.quantifiers) s.next s'.next)
    (hplace : π.place s.sources.size = s'.sources.size) :
    ((f.relabel π).standardForm s').1 = ⟨(f.standardForm s).1.result.relabel π,
      (f.standardForm s).1.free.map (Ident.relabel π)⟩ := by
  have hvars : dedup (f.relabel π).freeVars = (dedup f.freeVars).map (Ident.relabel π) := by
    rw [freeVars_relabel, (Ident.keepsEq_relabel π).dedup_map]
  have horigin : (some s.sources.size).map π.place = some s'.sources.size :=
    congrArg some hplace
  have hfree : ∀ x ∈ dedup f.freeVars,
      (standardFree (some s.sources.size) s.next (dedup f.freeVars) x).relabel π =
        standardFree (some s'.sources.size) s'.next ((dedup f.freeVars).map (Ident.relabel π))
          (x.relabel π) := by
    intro x hx
    rw [standardFree, Ident.relabel, h.left _ (List.idxOf_lt_length_of_mem hx), horigin,
      standardFree, (Ident.keepsEq_relabel π).idxOf_map]
  simp only [standardForm, standardise, Names.record, hvars, List.length_map, List.map_map]
  rw [relabel_standardiseFrom f h.right fun x hx => hfree x (mem_dedup_iff.mpr hx), horigin]
  congr 1
  exact List.map_congr_left fun x hx => (hfree x hx).symm

/-- The clauses are read off the Skolem form of the first stage. -/
theorem fst_toCnf (s : Names) (f : Formula) : (f.toCnf s).1 =
    Cnf.ofList ((f.standardForm s).1.result.eliminate.nnf.skolemiseFrom (some s.sources.size)
      (f.standardForm s).2.next ((f.standardForm s).1.free.map .var)
        .var).dropUniversals.distribute.clauses :=
  rfl

private theorem next_standardForm_relabel (s : Names) (f : Formula) :
    ((f.relabel π).standardForm s).2.next =
      s.next + ((dedup f.freeVars).length + f.quantifiers) := by
  rw [next_standardForm, freeVars_relabel, (Ident.keepsEq_relabel π).dedup_map, List.length_map,
    quantifiers_relabel]

/-- How many serials the clauses of a formula take. -/
def serials (s : Names) (f : Formula) : Nat :=
  (dedup f.freeVars).length + f.quantifiers +
    (f.standardForm s).1.result.eliminate.nnf.existentials

/-- The clauses of a relabelled formula, if the relabelling is in step as far as names are taken. -/
theorem toCnf_relabel (h : π.InStep (f.serials s) s.next s'.next)
    (hplace : π.place s.sources.size = s'.sources.size) :
    ((f.relabel π).toCnf s').1 = (f.toCnf s).1.relabel π := by
  have hskolem : π.InStep (f.standardForm s).1.result.eliminate.nnf.existentials
      (f.standardForm s).2.next ((f.relabel π).standardForm s').2.next := by
    rw [next_standardForm, next_standardForm_relabel]
    exact h.right
  have hvars : ((f.standardForm s).1.free.map .var).map (Term.relabel π) =
      ((f.standardForm s).1.free.map (Ident.relabel π)).map .var := by
    simp
  rw [fst_toCnf, fst_toCnf, Cnf.relabel_ofList, ← clauses_relabel, relabel_distribute,
    relabel_dropUniversals, relabel_skolemiseFrom _ hskolem fun x => Term.relabel_var π x,
    relabel_nnf, relabel_eliminate, standardForm_relabel h.left hplace, hvars, Option.map_some,
    hplace]

theorem snd_toCnf (s : Names) (f : Formula) :
    (f.toCnf s).2 = (s.record (.formula f)).skip (f.serials s) :=
  congrArg (fun n => (⟨n, s.sources.push (.formula f)⟩ : Names)) (Nat.add_assoc ..)

private theorem serials_relabel (h : π.InStep (f.serials s) s.next s'.next)
    (hplace : π.place s.sources.size = s'.sources.size) :
    (f.relabel π).serials s' = f.serials s := by
  rw [serials, standardForm_relabel h.left hplace, ← relabel_eliminate, ← relabel_nnf,
    existentials_relabel, freeVars_relabel, (Ident.keepsEq_relabel π).dedup_map,
    List.length_map, quantifiers_relabel, serials]

theorem relates_toCnf (h : π.Aligned s s') (f : Formula) :
    π.Relates (Cnf.relabel π) (f.toCnf s) ((f.relabel π).toCnf s') := by
  have hstep : π.InStep (f.serials s) s.next s'.next := fun i _ => h.serials.beyond i
  have hplace : π.place s.sources.size = s'.sources.size := h.places.beyond 0
  refine ⟨toCnf_relabel hstep hplace, ?_⟩
  rw [snd_toCnf, snd_toCnf, serials_relabel hstep hplace]
  exact (h.record _ _).skip _

end Formula

end Clausal
