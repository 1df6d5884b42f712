import Clausal.Normal.Cnf
import Clausal.Proofs.Normal.Universal

/-!
# Meaning of conjunctive normal form

The clauses of a formula say at least as much as the formula, and not much more: an interpretation
that satisfies formulas can be changed on the new Skolem symbols so that it satisfies the clauses of
all of them.  For the second statement the function symbols of the formulas must have been handed out
before the normal forms are made; the first holds without any condition.

## Main definitions

- `Formula.Issued`: the function symbols of a formula are not among those still to be handed out
- `clausesOf`, `skolemsOf`: the clauses of several formulas and their Skolem symbols

## Main statements

- `Interpretation.models_of_toCnf`, `Interpretation.exists_models_toCnf`: one formula
- `Interpretation.exists_models_clausesOf`: several formulas
- `models_of_models_clauses`: the clauses entail the formula
- `skolemisation_conservative`: Skolem symbols can be chosen for any number of formulas
- `clauses_name_earlier_skolem`: but not if one of them names the symbol of another
-/

namespace Clausal

universe u

/-! ## Section 1: Stages -/

namespace Formula

/-- Every function symbol of the formula has been handed out, as far as it is a fresh name. -/
def Issued (s : Names) (f : Formula) : Prop :=
  ∀ g ∈ f.functions, g.Below s.next

instance (s : Names) (f : Formula) : Decidable (f.Issued s) :=
  inferInstanceAs (Decidable (∀ g ∈ f.functions, g.Below s.next))

/-- The formula after its first stage, with the rest of the supply. -/
def standardForm (s : Names) (f : Formula) : Standardised Formula × Names :=
  f.standardise (some s.sources.size) (s.record (.formula f))

/-- The Skolem symbols that are handed out for a formula. -/
def skolemSymbols (s : Names) (f : Formula) : List Ident :=
  (f.standardForm s).1.result.eliminate.nnf.skolems (some s.sources.size) (f.standardForm s).2.next

/-- The quantifier-free formula from which the clauses are read off. -/
def matrix (s : Names) (f : Formula) : Formula :=
  (f.standardForm s).1.result.matrixAs (some s.sources.size) true (f.standardForm s).2.next
    ((f.standardForm s).1.free.map .var) .var

theorem toCnf_eq (s : Names) (f : Formula) :
    (f.toCnf s).1 = Cnf.ofList (f.matrix s).distribute.clauses :=
  rfl

theorem next_standardForm (s : Names) (f : Formula) :
    (f.standardForm s).2.next = s.next + ((dedup f.freeVars).length + f.quantifiers) :=
  rfl

theorem next_toCnf (s : Names) (f : Formula) : (f.toCnf s).2.next =
    (f.standardForm s).2.next + (f.standardForm s).1.result.eliminate.nnf.existentials :=
  rfl

theorem next_le_next_toCnf (s : Names) (f : Formula) : s.next ≤ (f.toCnf s).2.next := by
  rw [next_toCnf, next_standardForm]
  omega

theorem mem_skolemSymbols {s : Names} {f : Formula} {g : Ident} (hg : g ∈ f.skolemSymbols s) :
    ∃ k x o, g = .skolem k x o ∧ s.next ≤ k ∧ k < (f.toCnf s).2.next := by
  obtain ⟨k, x, rfl, hk, hk'⟩ := mem_skolems hg
  refine ⟨k, x, _, rfl, ?_, hk'⟩
  rw [next_standardForm] at hk
  omega

private theorem not_mem_skolemSymbols {s : Names} {f : Formula} {g : Ident} (hg : g.Below s.next) :
    g ∉ f.skolemSymbols s := by
  intro h
  obtain ⟨k, x, o, rfl, hk, -⟩ := mem_skolemSymbols h
  exact absurd hg (Nat.not_lt.mpr hk)

/-! ## Section 2: The literals of the clauses -/

variable {s : Names} {f : Formula}

/-- The variables of a standardised formula are handed out with it. -/
theorem below_of_mem_standardForm {x : Ident}
    (hx : x ∈ (f.standardForm s).1.free ∨ x ∈ (f.standardForm s).1.result.bound) :
    x.Below (f.standardForm s).2.next := by
  rw [next_standardForm]
  rcases hx with hx | hx
  · obtain ⟨y, hy, rfl⟩ := List.mem_map.mp hx
    exact (standardFree_below _ _ hy).mono (Nat.add_le_add_left (Nat.le_add_right _ _) _)
  · obtain ⟨k, y, rfl, -, hk⟩ := mem_bound_standardiseFrom hx
    exact Nat.lt_of_lt_of_eq hk (Nat.add_assoc _ _ _)

/-- The atoms of the matrix are instances of atoms of the formula, with variables and function
    symbols that have been handed out by then. -/
theorem mem_atoms_matrix {a : Atom} (ha : a ∈ (f.matrix s).atoms) :
    ∃ b ∈ f.atoms, (∃ τ : Ident → Term, a = b.subst τ) ∧
      (∀ x ∈ a.vars, x.Below (f.toCnf s).2.next) ∧
      ∀ g ∈ a.functions, g ∈ b.functions ∨ g.Below (f.toCnf s).2.next := by
  have hs : (f.standardForm s).1.result.Separated (f.standardForm s).1.free :=
    separated_standardise
  rw [matrix, matrixAs, atoms_dropUniversals] at ha
  obtain ⟨c, hc, τ, rfl, hvars, hfun⟩ := mem_atoms_skolemiseFrom (.start _ _)
    (hs.wellScoped.eliminate.nnfAs true) ha
  obtain ⟨b, hb, ρ, rfl⟩ := mem_atoms_standardiseFrom (atoms_nnfAs_eliminate _ _ hc)
  refine ⟨b, hb, ⟨_, Atom.subst_subst _ _ b⟩, fun x hx => ?_, fun g hg => ?_⟩
  · obtain ⟨y, hy, hx⟩ := Atom.mem_vars_subst.mp hx
    have hx := (hvars y hy x hx).imp id fun h => bound_nnfAs_eliminate _ _ h
    exact (below_of_mem_standardForm hx).mono (Nat.le_add_right _ _)
  · rcases Atom.mem_functions_subst hg with hg | ⟨y, -, hg⟩
    · rcases Atom.mem_functions_subst hg with hg | ⟨y, -, hg⟩
      · exact Or.inl hg
      · simp [Term.functions] at hg
    · exact Or.inr (hfun y g hg)

/-- The literals of the clauses are about the atoms of the matrix. -/
theorem atom_mem_atoms_matrix {c : Clause} (hc : c ∈ (f.toCnf s).1.clauses) {l : Literal}
    (hl : l ∈ c.literals) : l.atom ∈ (f.matrix s).atoms := by
  rw [toCnf_eq] at hc
  exact mem_atoms_distribute (atom_mem_atoms_of_mem_clauses (mem_of_mem_dedup hc) hl)

/-- A normal form has clauses, and its clauses have literals. -/
theorem toCnf_ne_nil (s : Names) (f : Formula) : (f.toCnf s).1.clauses ≠ [] ∧
    ∀ c ∈ (f.toCnf s).1.clauses, c.literals ≠ [] := by
  rw [toCnf_eq]
  refine ⟨dedup_ne_nil (List.map_eq_nil_iff.not.mpr (conjuncts_ne_nil _)), fun c hc => ?_⟩
  obtain ⟨e, he, rfl⟩ := List.mem_map.mp (mem_of_mem_dedup hc)
  have hlits : e.IsDisjunction := isDisjunction_of_mem_conjuncts
    (isConjunction_distribute (isMatrix_matrixAs _ _ _ _ _ _)) he
  obtain ⟨d, hd⟩ := List.exists_mem_of_ne_nil _ (disjuncts_ne_nil e)
  obtain ⟨l, hl⟩ := isSome_ofFormula?_of_mem_disjuncts hlits hd
  exact dedup_ne_nil (List.ne_nil_of_mem (List.mem_filterMap.mpr ⟨d, hd, hl⟩))

private theorem functions_toCnf (hf : f.Issued s) {c : Clause} (hc : c ∈ (f.toCnf s).1.clauses)
    {l : Literal} (hl : l ∈ c.literals) {g : Ident} (hg : g ∈ l.atom.functions) :
    g.Below (f.toCnf s).2.next := by
  obtain ⟨b, hb, -, -, hfun⟩ := mem_atoms_matrix (atom_mem_atoms_matrix hc hl)
  rcases hfun g hg with hg | hg
  · exact (hf g (List.mem_flatMap.mpr ⟨b, hb, hg⟩)).mono (next_le_next_toCnf s f)
  · exact hg

end Formula

/-! ## Section 3: Meaning of one normal form -/

namespace Interpretation

variable {D : Type u} {I : Interpretation D}

theorem models_matrix_iff (hI : I.SymmetricEq) (s : Names) (f : Formula) :
    I.Models (f.matrix s) ↔ ∀ c ∈ (f.toCnf s).1.clauses, I.ModelsClause c :=
  models_iff_clauses hI (Formula.isMatrix_matrixAs _ _ _ _ _ _)

/-- A formula is true if the clauses of its normal form are. -/
theorem models_of_toCnf (hI : I.SymmetricEq) {s : Names} {f : Formula}
    (h : ∀ c ∈ (f.toCnf s).1.clauses, I.ModelsClause c) : I.Models f := by
  rw [← I.models_standardise (some s.sources.size) (s.record (.formula f)) f]
  intro v
  by_contra hv
  -- a valuation that refutes the formula yields one that refutes the matrix
  obtain ⟨w, -, hw⟩ := I.refutable (some s.sources.size) (.start (f.standardForm s).2.next _)
    Formula.separated_standardise v true _ (Nat.le_refl _) fun hiff => hv (hiff.mpr rfl)
  exact hw ((models_matrix_iff hI s f).mpr h w)

/-- A true formula has true clauses once its Skolem symbols are chosen well. -/
theorem exists_models_toCnf (hI : I.SymmetricEq) {s : Names} {f : Formula} (hf : f.Issued s)
    (h : I.Models f) : ∃ J, SameExcept (· ∈ f.skolemSymbols s) I J ∧
      ∀ c ∈ (f.toCnf s).1.clauses, J.ModelsClause c := by
  rw [← I.models_standardise (some s.sources.size) (s.record (.formula f)) f] at h
  have hs : (f.standardForm s).1.result.Separated (f.standardForm s).1.free :=
    Formula.separated_standardise
  have hfun : ∀ g ∈ (f.standardForm s).1.result.eliminate.nnf.functions,
      g.Below (f.standardForm s).2.next := by
    intro g hg
    obtain ⟨a, ha, hg⟩ := List.mem_flatMap.mp hg
    obtain ⟨b, hb, ρ, rfl⟩ :=
      Formula.mem_atoms_standardiseFrom (Formula.atoms_nnfAs_eliminate _ _ ha)
    rcases Atom.mem_functions_subst hg with hg | ⟨y, -, hg⟩
    · refine (hf g (List.mem_flatMap.mpr ⟨b, hb, hg⟩)).mono ?_
      rw [Formula.next_standardForm]
      exact Nat.le_add_right _ _
    · simp [Term.functions] at hg
  obtain ⟨J, hJ⟩ : ∃ J, Witnesses (some s.sources.size) (f.standardForm s).2.next
      (f.standardForm s).1.free .var (f.standardForm s).1.result.eliminate.nnf I J :=
    exists_skolem (Formula.isNnf_nnfAs true _) (.start _ _) (hs.wellScoped.eliminate.nnfAs true)
      hfun I
  refine ⟨J, hJ.same, (models_matrix_iff (hJ.same.symmetricEq hI) s f).mp fun v => ?_⟩
  refine J.holds_dropUniversals (Formula.isNnf_skolemiseFrom (Formula.isNnf_nnfAs _ _) _ _ _ _) ?_
  refine hJ.holds v ((I.holds_nnfAs true _ _).mpr ?_)
  rw [I.holds_eliminate]
  exact iff_of_true (h _) rfl

end Interpretation

/-! ## Section 4: Several formulas -/

/-- The clauses of formulas whose normal forms are made one after the other. -/
def clausesOf (s : Names) (fs : List Formula) : List Clause × Names :=
  s.flatMap (fun s f => ((f.toCnf s).1.clauses, (f.toCnf s).2)) fs

/-- The Skolem symbols that are handed out while the normal forms are made. -/
def skolemsOf (s : Names) : List Formula → List Ident
  | [] => []
  | f :: fs => f.skolemSymbols s ++ skolemsOf (f.toCnf s).2 fs

theorem clausesOf_cons (s : Names) (f : Formula) (fs : List Formula) :
    (clausesOf s (f :: fs)).1 = (f.toCnf s).1.clauses ++ (clausesOf (f.toCnf s).2 fs).1 :=
  rfl

theorem clausesOf_append (s : Names) (fs : List Formula) (g : Formula) :
    (clausesOf s (fs ++ [g])).1 =
      (clausesOf s fs).1 ++ (g.toCnf (clausesOf s fs).2).1.clauses := by
  induction fs generalizing s with
  | nil => exact List.append_nil _
  | cons f fs ih =>
    rw [List.cons_append, clausesOf_cons, clausesOf_cons, ih, List.append_assoc]
    rfl

private theorem next_le_next_clausesOf (s : Names) (fs : List Formula) :
    s.next ≤ (clausesOf s fs).2.next := by
  induction fs generalizing s with
  | nil => exact Nat.le_refl _
  | cons f fs ih => exact Nat.le_trans (f.next_le_next_toCnf s) (ih _)

/-- The Skolem symbols are new: their serials are handed out while the normal forms are made. -/
theorem mem_skolemsOf {s : Names} {fs : List Formula} {g : Ident} (hg : g ∈ skolemsOf s fs) :
    ∃ k x o, g = .skolem k x o ∧ s.next ≤ k ∧ k < (clausesOf s fs).2.next := by
  induction fs generalizing s with
  | nil => simp [skolemsOf] at hg
  | cons f fs ih =>
    rcases List.mem_append.mp hg with hg | hg
    · obtain ⟨k, x, o, rfl, hk, hk'⟩ := Formula.mem_skolemSymbols hg
      exact ⟨k, x, o, rfl, hk, Nat.lt_of_lt_of_le hk' (next_le_next_clausesOf _ fs)⟩
    · obtain ⟨k, x, o, rfl, hk, hk'⟩ := ih hg
      exact ⟨k, x, o, rfl, Nat.le_trans (f.next_le_next_toCnf s) hk, hk'⟩

theorem not_mem_skolemsOf {s : Names} {fs : List Formula} {g : Ident} (hg : g.Below s.next) :
    g ∉ skolemsOf s fs := by
  intro h
  obtain ⟨k, x, o, rfl, hk, -⟩ := mem_skolemsOf h
  exact absurd hg (Nat.not_lt.mpr hk)

/-- The choices made for one formula are not disturbed by those made for later ones. -/
theorem Interpretation.exists_models_clausesOf {D : Type u} {I : Interpretation D}
    (hI : I.SymmetricEq) {s : Names} {fs : List Formula} (hs : ∀ f ∈ fs, f.Issued s)
    (h : ∀ f ∈ fs, I.Models f) : ∃ J, SameExcept (· ∈ skolemsOf s fs) I J ∧
      ∀ c ∈ (clausesOf s fs).1, J.ModelsClause c := by
  induction fs generalizing s I with
  | nil => exact ⟨I, .refl _ I, fun c hc => absurd hc List.not_mem_nil⟩
  | cons f fs ih =>
    obtain ⟨hf, hfs⟩ := List.forall_mem_cons.mp hs
    obtain ⟨hIf, hIfs⟩ := List.forall_mem_cons.mp h
    obtain ⟨J, hJ, hJf⟩ := exists_models_toCnf hI hf hIf
    have hJfs : ∀ g ∈ fs, J.Models g := fun g hg v =>
      (hJ.holds v fun i hi => Formula.not_mem_skolemSymbols (hfs g hg i hi)).mpr (hIfs g hg v)
    have hlater : ∀ g ∈ fs, g.Issued (f.toCnf s).2 := fun g hg i hi =>
      (hfs g hg i hi).mono (f.next_le_next_toCnf s)
    obtain ⟨K, hK, hKfs⟩ := ih (hJ.symmetricEq hI) hlater hJfs
    refine ⟨K, (hJ.trans hK).mono fun g hg => List.mem_append.mpr hg, fun c hc => ?_⟩
    rw [clausesOf_cons] at hc
    rcases List.mem_append.mp hc with hc | hc
    · -- the symbols of these clauses were handed out before those that `K` changes
      refine fun v => (hK.holdsClause v fun l hl g hg => ?_).mpr (hJf c hc v)
      exact not_mem_skolemsOf (Formula.functions_toCnf hf hc hl hg)
    · exact hKfs c hc

/-! ## Section 5: The clauses against the formulas -/

/-- The clauses of a formula entail it, and of its own symbols they say no more than it does. -/
theorem models_of_models_clauses {D : Type u} (I : Interpretation D) (hI : I.SymmetricEq)
    (s : Names) (f : Formula) :
    ((∀ c ∈ (f.toCnf s).1.clauses, I.ModelsClause c) → I.Models f) ∧
      (f.Issued s → I.Models f → ∃ J, Interpretation.SameExcept (· ∈ f.skolemSymbols s) I J ∧
        ∀ c ∈ (f.toCnf s).1.clauses, J.ModelsClause c) :=
  ⟨I.models_of_toCnf hI, I.exists_models_toCnf hI⟩

/-- The interpretation in which every atom is true. -/
def allTrue : Interpretation Unit :=
  ⟨fun _ => (), fun _ _ => (), fun _ _ => True, fun _ _ => True⟩

/-- All have one property exactly if some have another one: both copies of each side are
    quantified. -/
def allIffSome : Formula :=
  .iff (.all (.num 0) (.atom (.pred (.num 1) [.var (.num 0)])))
    (.ex (.num 0) (.atom (.pred (.num 2) [.var (.num 0), .var (.num 3)])))

theorem models_allIffSome :
    (∀ c ∈ (allIffSome.toCnf {}).1.clauses, allTrue.ModelsClause c) ∧
      allTrue.Models allIffSome := by
  have hpos : ∀ c ∈ (allIffSome.toCnf {}).1.clauses, ∃ l ∈ c.literals, l.positive = true := by
    decide
  have hclauses : ∀ c ∈ (allIffSome.toCnf {}).1.clauses, allTrue.ModelsClause c := by
    intro c hc v
    obtain ⟨l, hl, hl'⟩ := hpos c hc
    refine ⟨l, hl, iff_of_true ?_ hl'⟩
    cases l.atom <;> trivial
  exact ⟨hclauses, (models_of_models_clauses allTrue (fun _ _ h => h) {} allIffSome).1 hclauses⟩

/-- Skolemisation is conservative: an interpretation that satisfies formulas can be changed on the
    new Skolem symbols, and nowhere else, so that it satisfies the clauses of all of them. -/
theorem skolemisation_conservative {D : Type u} (I : Interpretation D) (hI : I.SymmetricEq)
    (s : Names) (fs : List Formula) (hs : ∀ f ∈ fs, f.Issued s) (h : ∀ f ∈ fs, I.Models f) :
    (∀ g ∈ skolemsOf s fs, ∃ k x o, g = .skolem k x o ∧ s.next ≤ k ∧ k < (clausesOf s fs).2.next) ∧
      ∃ J, Interpretation.SameExcept (· ∈ skolemsOf s fs) I J ∧
        ∀ c ∈ (clausesOf s fs).1, J.ModelsClause c :=
  ⟨fun _ => mem_skolemsOf, I.exists_models_clausesOf hI hs h⟩

/-- The natural numbers, with two-place predicates read as the strict order. -/
def strictOrder : Interpretation Nat where
  const _ := 0
  func _ _ := 0
  pred _ ns := ∃ a b, ns = [a, b] ∧ a < b
  eq a b := a = b

/-- Everything is below something, once with a quantifier and once with a free variable. -/
def unbounded : List Formula :=
  [.all (.num 0) (.ex (.num 1) (.atom (.pred (.num 2) [.var (.num 0), .var (.num 1)]))),
    .ex (.num 1) (.atom (.pred (.num 2) [.var (.num 0), .var (.num 1)]))]

theorem skolemisation_conservative_unbounded :
    (∀ f ∈ unbounded, f.Issued {} ∧ strictOrder.Models f) ∧
      ∃ J, Interpretation.SameExcept (· ∈ skolemsOf {} unbounded) strictOrder J ∧
        ∀ c ∈ (clausesOf {} unbounded).1, J.ModelsClause c := by
  have hissued : ∀ f ∈ unbounded, f.Issued {} := by decide
  have hmodels : ∀ f ∈ unbounded, strictOrder.Models f := by
    intro f hf v
    simp only [unbounded, List.mem_cons, List.not_mem_nil, or_false] at hf
    rcases hf with rfl | rfl
    · exact fun d => ⟨d + 1, d, d + 1, rfl, Nat.lt_succ_self d⟩
    · exact ⟨v (.num 0) + 1, v (.num 0), v (.num 0) + 1, rfl, Nat.lt_succ_self _⟩
  exact ⟨fun f hf => ⟨hissued f hf, hmodels f hf⟩,
    (skolemisation_conservative strictOrder (fun _ _ h => h.symm) {} unbounded hissued hmodels).2⟩

/-- Two things, one of which has every property; it is not what Skolem symbols are read as. -/
def loneWitness : Interpretation Bool where
  const _ := true
  func _ _ := true
  pred _ ds := ds = [false]
  eq a b := a = b

/-- Something has a property. -/
def somethingHas : Formula :=
  .ex (.num 0) (.atom (.pred (.num 1) [.var (.num 0)]))

/-- The thing that has the property has a name once the normal form has been made, and this says of the
    thing of that name that it has the property. -/
def namedHas : Formula :=
  .atom (.pred (.num 1) [.app (.skolem 1 (.standard 0 (.num 0) (some 0)) (some 0)) []])

/-- Skolem symbols cannot be chosen if a later formula speaks about an earlier one's symbol: something
    may have a property and the thing of this name not have it, but no choice for the name makes the
    clauses of both true. -/
theorem clauses_name_earlier_skolem :
    skolemsOf {} [somethingHas] = [.skolem 1 (.standard 0 (.num 0) (some 0)) (some 0)] ∧
      loneWitness.SymmetricEq ∧ (∀ f ∈ [somethingHas, .not namedHas], loneWitness.Models f) ∧
      ¬ ∃ J, Interpretation.SameExcept (· ∈ skolemsOf {} [somethingHas, .not namedHas])
          loneWitness J ∧
        ∀ c ∈ (clausesOf {} [somethingHas, .not namedHas]).1, J.ModelsClause c := by
  refine ⟨rfl, fun a b h => h.symm, ?_, ?_⟩
  · rw [List.forall_mem_cons, List.forall_mem_singleton]
    exact ⟨fun v => ⟨false, rfl⟩, fun v h => by cases h⟩
  · rintro ⟨J, -, hJ⟩
    -- the two clauses are a literal and its negation
    obtain ⟨l, hl, hpos⟩ := hJ _ List.mem_cons_self J.const
    obtain ⟨m, hm, hneg⟩ := hJ _ (List.mem_cons_of_mem _ List.mem_cons_self) J.const
    obtain rfl := List.mem_singleton.mp hl
    obtain rfl := List.mem_singleton.mp hm
    cases hneg.mp (hpos.mpr rfl)

end Clausal
