import Mathlib.Data.Quot
import Clausal.Proofs.Axioms.Congruence
import Clausal.Proofs.Axioms.Telling

/-!
# The axioms of equality are adequate

With the axioms of equality, equations may be read by any binary relation: formulas that are told
through a layer have a model of this kind, together with the axioms, if and only if they have a model
in which equations are identities.

An identity satisfies all axioms.  Conversely, a relation that satisfies them is an equivalence, and
no symbol of the formulas tells equivalent arguments apart, so classes of equivalent elements may be
taken for elements.  The symbol of equality has no axiom of its own; where it is used with another
number of arguments than two, there are no equations in the formulas, and identity may take the place
of any relation.

## Main definitions

- `Interpretation.ReadsEquations`, `Interpretation.IsStandard`: how equations are read
- `Interpretation.quotient`: the interpretation by classes of equals
- `Interpretation.withIdentity`: the interpretation that reads equations as identities

## Main statements

- `Interpretation.models_iff_of_surjective`: truth along a map that keeps atoms
- `Interpretation.exists_standard`: a model with identity from a model of the axioms
- `equality_axioms_adequate`: the axioms of equality are adequate
-/

namespace Clausal

universe u v

namespace Interpretation

/-! ## Section 1: Truth along a map -/

section Map

variable {D : Type u} {E : Type v} {I : Interpretation D} {J : Interpretation E} {φ : D → E}

/-- A map that keeps the values of the symbols in a term keeps the value of the term. -/
theorem eval_of_map (hconst : ∀ c, J.const c = φ (I.const c)) {t : Term}
    (hfunc : ∀ f ts, Term.app f ts ∈ t.subterms → ∀ as, as.length = ts.length →
      J.func f (as.map φ) = φ (I.func f as)) (v : Ident → D) :
    J.eval (φ ∘ v) t = φ (I.eval v t) := by
  induction t using Term.induction with
  | var x => rfl
  | const c => exact hconst c
  | app f ts ih =>
    have hargs : ts.map (J.eval (φ ∘ v)) = (ts.map (I.eval v)).map φ := by
      rw [List.map_map]
      apply List.map_congr_left
      intro t ht
      apply ih t ht
      intro g us hus
      refine hfunc g us ?_
      rw [Term.subterms, Term.subtermsList_eq_flatMap]
      exact List.mem_cons_of_mem _ (List.mem_flatMap.mpr ⟨t, ht, hus⟩)
    rw [eval_app, eval_app, hargs]
    exact hfunc f ts (by simp [Term.subterms]) _ (by simp)

/-- A map onto a domain that keeps the truth of atoms keeps the truth of formulas. -/
theorem holds_iff_of_surjective (hφ : Function.Surjective φ) {f : Formula}
    (hatoms : ∀ a ∈ f.atoms, ∀ v, J.HoldsAtom (φ ∘ v) a ↔ I.HoldsAtom v a) (v : Ident → D) :
    J.Holds (φ ∘ v) f ↔ I.Holds v f := by
  induction f generalizing v with
  | atom a => exact hatoms a List.mem_cons_self v
  | not f ih => exact not_congr (ih hatoms v)
  | and f g ihf ihg =>
    rw [Formula.atoms, List.forall_mem_append] at hatoms
    exact and_congr (ihf hatoms.1 v) (ihg hatoms.2 v)
  | or f g ihf ihg =>
    rw [Formula.atoms, List.forall_mem_append] at hatoms
    exact or_congr (ihf hatoms.1 v) (ihg hatoms.2 v)
  | imp f g ihf ihg =>
    rw [Formula.atoms, List.forall_mem_append] at hatoms
    exact imp_congr (ihf hatoms.1 v) (ihg hatoms.2 v)
  | iff f g ihf ihg =>
    rw [Formula.atoms, List.forall_mem_append] at hatoms
    exact iff_congr (ihf hatoms.1 v) (ihg hatoms.2 v)
  | all x f ih =>
    simp only [Holds, hφ.forall, ← Function.comp_update]
    exact forall_congr' fun d => ih hatoms _
  | ex x f ih =>
    simp only [Holds, hφ.exists, ← Function.comp_update]
    exact exists_congr fun d => ih hatoms _

theorem models_iff_of_surjective (hφ : Function.Surjective φ) {f : Formula}
    (hatoms : ∀ a ∈ f.atoms, ∀ v, J.HoldsAtom (φ ∘ v) a ↔ I.HoldsAtom v a) :
    J.Models f ↔ I.Models f := by
  simp only [Models, hφ.comp_left.forall]
  exact forall_congr' (holds_iff_of_surjective hφ hatoms)

end Map

/-! ## Section 2: Two ways to read equations as identities -/

variable {D : Type u} {I : Interpretation D}

/-- An equation is read in one way, whether it is written as such or as an atom with the symbol of
    equality: the two have the same symbol, which has one meaning in a model. -/
def ReadsEquations (I : Interpretation D) : Prop :=
  ∀ a b, I.pred .equality [a, b] ↔ I.eq a b

/-- Equations are read as identities. -/
def IsStandard (I : Interpretation D) : Prop :=
  ∀ a b, I.eq a b ↔ a = b

/-- The elements up to equality. -/
def equals (h : Equivalence I.eq) : Setoid D :=
  ⟨I.eq, h⟩

/-- The interpretation by classes of equals, where a symbol is read at representatives. -/
noncomputable def quotient (I : Interpretation D) (h : Equivalence I.eq) :
    Interpretation (Quotient (equals h)) where
  const c := Quotient.mk _ (I.const c)
  func f as := Quotient.mk _ (I.func f (as.map Quotient.out))
  pred p as := I.pred p (as.map Quotient.out)
  eq a b := a = b

/-- The interpretation that reads equations as identities and is the same elsewhere. -/
def withIdentity (I : Interpretation D) : Interpretation D where
  const := I.const
  func := I.func
  pred p as := if p = .equality ∧ as.length = 2 then ∃ a, as = [a, a] else I.pred p as
  eq a b := a = b

section Quotient

variable (h : Equivalence I.eq)

/-- The representatives of the classes of some elements are equal to them. -/
theorem forall₂_representatives (as : List D) :
    List.Forall₂ I.eq ((as.map (Quotient.mk (equals h))).map Quotient.out) as := by
  rw [List.map_map, List.forall₂_map_left_iff, List.forall₂_same]
  exact fun a _ => Quotient.mk_out (s := equals h) a

private theorem quotient_isStandard : (I.quotient h).IsStandard :=
  fun _ _ => Iff.rfl

theorem quotient_readsEquations (hI : I.ReadsEquations) : (I.quotient h).ReadsEquations := by
  intro a b
  have hclasses : I.eq a.out b.out ↔ a = b := Quotient.out_equiv_out (s := equals h)
  exact (hI a.out b.out).trans hclasses

private theorem eval_quotient {t : Term}
    (hfunc : ∀ f ts, Term.app f ts ∈ t.subterms → I.RespectsFunc f ts.length) (v : Ident → D) :
    (I.quotient h).eval (Quotient.mk _ ∘ v) t = Quotient.mk _ (I.eval v t) := by
  apply eval_of_map
  · exact fun c => rfl
  · intro f ts hts as has
    apply Quotient.sound (s := equals h)
    exact hfunc f ts hts _ _ (by simpa using has) (forall₂_representatives h as)

/-- An atom is true of classes if it is true of elements, where its symbols do not tell equals
    apart. -/
theorem holdsAtom_quotient {a : Atom}
    (hfunc : ∀ t ∈ a.args, ∀ f ts, Term.app f ts ∈ t.subterms → I.RespectsFunc f ts.length)
    (hpred : ∀ p ts, a = .pred p ts → I.RespectsPred p ts.length) (v : Ident → D) :
    (I.quotient h).HoldsAtom (Quotient.mk _ ∘ v) a ↔ I.HoldsAtom v a := by
  have hargs : ∀ t ∈ a.args,
      (I.quotient h).eval (Quotient.mk _ ∘ v) t = Quotient.mk _ (I.eval v t) :=
    fun t ht => eval_quotient h (hfunc t ht) v
  cases a with
  | pred p ts =>
    have hts : ts.map ((I.quotient h).eval (Quotient.mk _ ∘ v)) =
        (ts.map (I.eval v)).map (Quotient.mk (equals h)) := by
      rw [List.map_map]
      exact List.map_congr_left hargs
    show I.pred p ((ts.map _).map Quotient.out) ↔ I.pred p (ts.map (I.eval v))
    rw [hts]
    exact hpred p ts rfl _ _ (by simp) (forall₂_representatives h _)
  | eq l r =>
    show (I.quotient h).eval _ l = (I.quotient h).eval _ r ↔ I.eq (I.eval v l) (I.eval v r)
    rw [hargs l (by simp [Atom.args]), hargs r (by simp [Atom.args])]
    exact Quotient.eq (r := equals h)

end Quotient

private theorem withIdentity_isStandard : I.withIdentity.IsStandard :=
  fun _ _ => Iff.rfl

private theorem withIdentity_readsEquations : I.withIdentity.ReadsEquations := by
  intro a b
  unfold withIdentity
  dsimp only
  rw [if_pos ⟨rfl, rfl⟩]
  constructor
  · rintro ⟨c, hc⟩
    simp only [List.cons.injEq, and_true] at hc
    exact hc.1.trans hc.2.symm
  · rintro rfl
    exact ⟨a, rfl⟩

/-- An atom that is no equation does not depend on how equations are read. -/
theorem holdsAtom_withIdentity {a : Atom} (h : a.symbol ≠ .equality ∨ a.args.length ≠ 2)
    (v : Ident → D) : I.withIdentity.HoldsAtom v a ↔ I.HoldsAtom v a := by
  have heval : ∀ t, I.withIdentity.eval v t = I.eval v t := by
    intro t
    apply eval_of_map (I := I) (J := I.withIdentity) (φ := id)
    · exact fun c => rfl
    · intro f ts _ as _
      rw [List.map_id]
      rfl
  cases a with
  | pred p ts =>
    show (if p = .equality ∧ (ts.map _).length = 2 then _ else I.pred p (ts.map _)) ↔ _
    rw [if_neg, List.map_congr_left fun t _ => heval t]
    · exact Iff.rfl
    · rw [List.length_map]
      exact fun hp => h.elim (fun hs => hs hp.1) fun hl => hl hp.2
  | eq l r => exact absurd rfl (h.resolve_left fun hs => hs rfl)

/-! ## Section 3: Models with identity -/

variable {fs : List Formula} {s : Names}

/-- If the axiom of every symbol is satisfied, no symbol tells equals apart. -/
theorem respectsFunc_of_models
    (hI : ∀ p ∈ fs.flatMap Formula.parts, ∀ g, p.congruence? = some g → I.Models g)
    (hrefl : ∀ a, I.eq a a) {f : Formula} (hf : f ∈ fs) {a : Atom} (ha : a ∈ f.atoms) {t : Term}
    (ht : t ∈ a.args) {g : Ident} {ts : List Term} (hts : Term.app g ts ∈ t.subterms) :
    I.RespectsFunc g ts.length := by
  by_cases hnil : ts = []
  · subst hnil
    intro as bs has hrel
    obtain rfl := List.eq_nil_of_length_eq_zero has
    cases hrel
    exact hrefl _
  · have hpart : Part.term (.app g ts) ∈ fs.flatMap Formula.parts :=
      List.mem_flatMap.mpr ⟨f, hf, Formula.app_mem_parts.mpr ⟨a, ha, t, ht, hts⟩⟩
    exact (models_functionCongruence (List.length_pos_iff.mpr hnil)).mp
      (hI _ hpart _ (if_neg hnil))

private theorem respectsPred_of_models
    (hI : ∀ p ∈ fs.flatMap Formula.parts, ∀ g, p.congruence? = some g → I.Models g)
    {f : Formula} (hf : f ∈ fs) {p : Ident} {ts : List Term} (ha : Atom.pred p ts ∈ f.atoms)
    (hp : p ≠ .equality) : I.RespectsPred p ts.length := by
  by_cases hnil : ts = []
  · subst hnil
    intro as bs has hrel
    obtain rfl := List.eq_nil_of_length_eq_zero has
    cases hrel
    exact Iff.rfl
  · have hpart : Part.formula (.atom (.pred p ts)) ∈ fs.flatMap Formula.parts :=
      List.mem_flatMap.mpr ⟨f, hf, Formula.atom_mem_parts.mpr ha⟩
    have hcongruence : (Part.formula (.atom (.pred p ts))).congruence? =
        some (predicateCongruence p ts.length) := if_neg (not_or.mpr ⟨hp, hnil⟩)
    exact (models_predicateCongruence (List.length_pos_iff.mpr hnil)).mp (hI _ hpart _ hcongruence)

/-- The symbol of equality does not tell equals apart. -/
theorem respectsPred_equality (hI : I.ReadsEquations) (h : Equivalence I.eq) :
    I.RespectsPred .equality 2 := by
  intro as bs has hrel
  obtain ⟨a, b, rfl⟩ := List.length_eq_two.mp has
  obtain ⟨c, d, rfl⟩ := List.length_eq_two.mp (hrel.length_eq.symm.trans has)
  simp only [List.forall₂_cons, List.forall₂_nil_right_iff, and_true] at hrel
  obtain ⟨hac, hbd⟩ := hrel
  rw [hI, hI]
  constructor
  · exact fun hab => h.trans (h.symm hac) (h.trans hab hbd)
  · exact fun hcd => h.trans hac (h.trans hcd (h.symm hbd))

/-- A model of the axioms gives a model in which equations are identities. -/
theorem exists_standard (hfs : UniformArity fs) (hreads : I.ReadsEquations)
    (hI : ∀ n ∈ EqualityLayer.toldInside s fs, ∃ g, n = .formula g ∧ I.Models g) :
    ∃ (E : Type u) (J : Interpretation E), J.ReadsEquations ∧ J.IsStandard ∧
      ∀ f ∈ fs, J.Models f := by
  have htold : ∀ g, (g ∈ equalityAxioms ∨ g ∈ fs ∨
      ∃ p ∈ fs.flatMap Formula.parts, p.congruence? = some g) → I.Models g := by
    intro g hg
    obtain ⟨g', heq, hmodels⟩ := hI _ ((EqualityLayer.mem_toldInside hfs s).mpr ⟨g, rfl, hg⟩)
    rwa [Node.formula.inj heq]
  have heq : Equivalence I.eq := models_equalityAxioms.mp fun g hg => htold g (.inl hg)
  have hcongruences : ∀ p ∈ fs.flatMap Formula.parts, ∀ g, p.congruence? = some g → I.Models g :=
    fun p hp g hg => htold g (.inr (.inr ⟨p, hp, hg⟩))
  by_cases hpair : ∀ f ∈ fs, ∀ a ∈ f.atoms, a.symbol = .equality → a.args.length = 2
  · -- no symbol tells equals apart, so classes of equals are a domain
    refine ⟨_, I.quotient heq, quotient_readsEquations heq hreads, quotient_isStandard heq,
      fun f hf => ?_⟩
    apply (models_iff_of_surjective Quotient.mk_surjective fun a ha v => ?_).mpr
      (htold f (.inr (.inl hf)))
    apply holdsAtom_quotient heq
    · exact fun t ht g ts hts => respectsFunc_of_models hcongruences heq.refl hf ha ht hts
    · rintro p ts rfl
      by_cases hp : p = .equality
      · subst hp
        have hlength : ts.length = 2 := hpair f hf _ ha rfl
        rw [hlength]
        exact respectsPred_equality hreads heq
      · exact respectsPred_of_models hcongruences hf ha hp
  · -- the symbol of equality is used in another way, so there are no equations
    have hother : ∃ f ∈ fs, ∃ a ∈ f.atoms, a.symbol = .equality ∧ a.args.length ≠ 2 := by
      simpa using hpair
    obtain ⟨f₀, hf₀, a₀, ha₀, hsymbol, hlength⟩ := hother
    refine ⟨D, I.withIdentity, withIdentity_readsEquations, withIdentity_isStandard,
      fun f hf => ?_⟩
    apply (models_iff_of_surjective Function.surjective_id fun a ha v => ?_).mpr
      (htold f (.inr (.inl hf)))
    apply holdsAtom_withIdentity
    by_cases hequality : a.symbol = .equality
    · right
      have hmem := fun (f : Formula) (hf : f ∈ fs) (a : Atom) (ha : a ∈ f.atoms) =>
        List.mem_flatMap.mpr ⟨f, hf, Formula.atom_mem_parts.mpr ha⟩
      rw [hfs.parts.predicates a a₀ (hmem f hf a ha) (hmem f₀ hf₀ a₀ ha₀)
        (hequality.trans hsymbol.symm)]
      exact hlength
    · exact .inl hequality

/-- Identity satisfies the axioms. -/
theorem IsStandard.models_equalityAxioms (h : I.IsStandard) {g : Formula}
    (hg : g ∈ equalityAxioms) : I.Models g := by
  have heq : I.eq = Eq := by
    funext a b
    exact propext (h a b)
  exact Interpretation.models_equalityAxioms.mpr (heq ▸ eq_equivalence) g hg

private theorem IsStandard.models_congruence (h : I.IsStandard) {p : Part} {g : Formula}
    (hg : p.congruence? = some g) : I.Models g := by
  have hsame : ∀ as bs, List.Forall₂ I.eq as bs → as = bs := by
    intro as bs hrel
    have heq : List.Forall₂ Eq as bs := hrel.imp fun a b => (h a b).mp
    rwa [List.forall₂_eq_eq_eq] at heq
  unfold Part.congruence? at hg
  split at hg
  next a =>
    split at hg
    next => cases hg
    next hne =>
      obtain rfl := Option.some.inj hg
      apply (models_predicateCongruence (List.length_pos_iff.mpr (not_or.mp hne).2)).mpr
      intro as bs _ hrel
      rw [hsame as bs hrel]
  next f ts =>
    split at hg
    next => cases hg
    next hne =>
      obtain rfl := Option.some.inj hg
      apply (models_functionCongruence (List.length_pos_iff.mpr hne)).mpr
      intro as bs _ hrel
      rw [hsame as bs hrel, h]
  next => cases hg

end Interpretation

/-- The axioms of equality are adequate: what a fresh layer tells when it is told formulas has a model
    with any reading of equations if and only if the formulas have a model in which equations are
    identities.  Every symbol is to be used with one number of arguments. -/
theorem equality_axioms_adequate (s : Names) (fs : List Formula) (hfs : UniformArity fs) :
    (∃ (D : Type u) (I : Interpretation D), I.ReadsEquations ∧
      ∀ n ∈ EqualityLayer.toldInside s fs, ∃ g, n = .formula g ∧ I.Models g) ↔
    ∃ (D : Type u) (I : Interpretation D), I.ReadsEquations ∧ I.IsStandard ∧
      ∀ f ∈ fs, I.Models f := by
  constructor
  · rintro ⟨D, I, hreads, hI⟩
    exact Interpretation.exists_standard hfs hreads hI
  · rintro ⟨D, I, hreads, hstandard, hI⟩
    refine ⟨D, I, hreads, fun n hn => ?_⟩
    obtain ⟨g, rfl, hg⟩ := (EqualityLayer.mem_toldInside hfs s).mp hn
    refine ⟨g, rfl, ?_⟩
    rcases hg with hg | hg | ⟨p, -, hg⟩
    · exact hstandard.models_equalityAxioms hg
    · exact hI g hg
    · exact hstandard.models_congruence hg

/-- A function that leaves everything as it is, used below a predicate. -/
theorem equality_axioms_adequate_fixedPoints :
    let x := Ident.name "x"
    let fs : List Formula :=
      [.all x (.atom (.eq (.app (.name "f") [.var x]) (.var x))),
       .ex x (.and (.atom (.pred (.name "p") [.app (.name "f") [.var x], .const (.name "c")]))
        (.not (.atom (.pred (.name "p") [.var x, .app (.name "f") [.const (.name "c")]]))))]
    UniformArity fs ∧
      ((∃ (D : Type) (I : Interpretation D), I.ReadsEquations ∧
        ∀ n ∈ EqualityLayer.toldInside {} fs, ∃ g, n = .formula g ∧ I.Models g) ↔
      ∃ (D : Type) (I : Interpretation D), I.ReadsEquations ∧ I.IsStandard ∧
        ∀ f ∈ fs, I.Models f) :=
  have hfs : UniformArity _ := ⟨by decide, by decide⟩
  ⟨hfs, equality_axioms_adequate {} _ hfs⟩

end Clausal
