import Clausal.Proofs.Matching.Exactness
import Clausal.Proofs.Ordinal
import Mathlib.Data.Set.Finite.List

/-!
# Function-free atoms over a vocabulary

Where no function has arguments, a term is a variable or one of the terms that were given.
Unification builds no others.  So the atoms over a finite vocabulary are finitely many, up to the
names of their variables.

## Main definitions

- `Term.Flat`: variables, constants and functions without arguments
- `Vocabulary`, `Term.FlatIn`, `Atom.FlatIn`, `Substitution.FlatIn`
- `Atom.form`: an atom up to the names of its variables

## Main statements

- `Atom.flatIn_of_unify`: unifiers stay within a vocabulary
- `Atom.mapsTo_of_form_eq`: atoms of the same form are instances of each other
- `Vocabulary.finite_forms`: a vocabulary has finitely many forms
-/

namespace Clausal

/-! ## Section 1: Expressions over a vocabulary -/

/-- A variable, a constant or a function without arguments. -/
def Term.Flat : Term → Prop
  | .var _ | .const _ => True
  | .app _ ts => ts = []

instance : DecidablePred Term.Flat
  | .var _ | .const _ => inferInstanceAs (Decidable True)
  | .app _ ts => inferInstanceAs (Decidable (ts = []))

/-- Terms, and symbols of atoms with their numbers of arguments. -/
structure Vocabulary where
  terms : List Term
  symbols : List (Ident × Nat)

variable {V : Vocabulary}

/-- A flat term that is a variable or in the vocabulary. -/
def Term.FlatIn (V : Vocabulary) (t : Term) : Prop :=
  t.Flat ∧ (t.vars = [] → t ∈ V.terms)

/-- An atom with a symbol and with arguments from the vocabulary. -/
def Atom.FlatIn (V : Vocabulary) (a : Atom) : Prop :=
  (a.symbol, a.args.length) ∈ V.symbols ∧ ∀ t ∈ a.args, t.FlatIn V

/-- All variables are bound to terms from the vocabulary. -/
def Substitution.FlatIn (V : Vocabulary) (σ : Substitution) : Prop :=
  ∀ x t, σ.find? x = some t → t.FlatIn V

theorem Term.flatIn_var (V : Vocabulary) (x : Ident) : (Term.var x).FlatIn V :=
  ⟨trivial, fun h => by simp [vars] at h⟩

theorem Term.FlatIn.subst {t : Term} (ht : t.FlatIn V) {θ : Ident → Term}
    (hθ : ∀ x, (θ x).FlatIn V) : (t.subst θ).FlatIn V := by
  cases t with
  | var x => exact hθ x
  | const c => exact ht
  | app f ts =>
    obtain rfl : ts = [] := ht.1
    exact ht

theorem Atom.FlatIn.subst {a : Atom} (ha : a.FlatIn V) {θ : Ident → Term}
    (hθ : ∀ x, (θ x).FlatIn V) : (a.subst θ).FlatIn V := by
  refine ⟨?_, fun t ht => ?_⟩
  · rw [symbol_subst, args_subst, List.length_map]
    exact ha.1
  · rw [args_subst] at ht
    obtain ⟨u, hu, rfl⟩ := List.mem_map.mp ht
    exact (ha.2 u hu).subst hθ

/-! ## Section 2: Unification -/

namespace Substitution

variable {σ ρ : Substitution} {x : Ident} {t : Term}

theorem flatIn_empty (V : Vocabulary) : empty.FlatIn V := by
  intro x t h
  simp at h

theorem FlatIn.follow (hσ : σ.FlatIn V) (n : Nat) (ht : t.FlatIn V) : (σ.follow n t).FlatIn V := by
  induction n generalizing t with
  | zero => exact ht
  | succ n ih =>
    refine ht.subst fun x => ?_
    split
    next => exact Term.flatIn_var V x
    next u hu => exact ih (hσ x u hu)

theorem FlatIn.value (hσ : σ.FlatIn V) (x : Ident) : (σ.value x).FlatIn V :=
  hσ.follow σ.size (Term.flatIn_var V x)

private theorem FlatIn.walk (hσ : σ.FlatIn V) (ht : t.FlatIn V) : (σ.walk t).FlatIn V := by
  rcases σ.walk_eq_or_find? t with hw | ⟨x, hx⟩
  · rwa [hw]
  · exact hσ x _ hx

theorem FlatIn.bindValue? (hσ : σ.FlatIn V) (ht : t.FlatIn V) (h : σ.bindValue? x t = some ρ) :
    ρ.FlatIn V := by
  obtain ⟨-, rfl⟩ := bindValue?_eq_some.mp h
  intro y u hy
  rw [find?_insert] at hy
  split at hy
  next =>
    obtain rfl := Option.some.inj hy
    exact ht.subst hσ.value
  next => exact hσ y u hy

end Substitution

/-- A run on terms from a vocabulary makes no other bindings. -/
theorem Unification.flatIn {σ τ : Substitution} {es : List (Term × Term)}
    (h : Unification σ es τ) (hσ : σ.FlatIn V)
    (hes : ∀ e ∈ es, e.1.FlatIn V ∧ e.2.FlatIn V) : τ.FlatIn V := by
  induction h with
  | nil => exact hσ
  | same _ _ ih => exact ih hσ fun e he => hes e (List.mem_cons_of_mem _ he)
  | bind _ h _ ih =>
    obtain ⟨hes, hrest⟩ := List.forall_mem_cons.mp hes
    exact ih (hσ.bindValue? (hσ.walk hes.2) h) hrest
  | args hs _ _ _ ih =>
    obtain ⟨hes, hrest⟩ := List.forall_mem_cons.mp hes
    -- functions have no arguments, so there are no equations between these
    have hflat := (hσ.walk hes.1).1
    rw [hs] at hflat
    obtain rfl := hflat
    exact ih hσ hrest
  | swap _ ih =>
    obtain ⟨hes, hrest⟩ := List.forall_mem_cons.mp hes
    exact ih hσ (List.forall_mem_cons.mpr ⟨hes.symm, hrest⟩)

theorem Atom.flatIn_of_unify {σ τ : Substitution} {a b : Atom} (hσ : σ.FlatIn V)
    (ha : a.FlatIn V) (hb : b.FlatIn V) (h : Atom.unify σ a b = some τ) : τ.FlatIn V := by
  obtain ⟨-, -, ts, hts, hrun⟩ := Atom.unification_of_unify h
  have hmem : ∀ t ∈ ts, t ∈ b.args := by
    rcases hts with rfl | ⟨-, rfl⟩
    · exact fun t ht => ht
    · exact fun t => List.mem_reverse.mp
  refine hrun.flatIn hσ fun e he => ?_
  obtain ⟨hl, hr⟩ := List.of_mem_zip he
  exact ⟨ha.2 _ hl, hb.2 _ (hmem _ hr)⟩

/-! ## Section 3: Forms -/

/-- An atom up to the names of its variables: its symbol applied to its arguments, with the
    variables numbered. -/
def Atom.form (a : Atom) : Term :=
  (Term.app a.symbol a.args).ordinalise

/-- Atoms of the same form are instances of each other. -/
theorem Atom.mapsTo_of_form_eq {a b : Atom} (h : a.form = b.form) : ∃ ρ, a.MapsTo ρ b := by
  obtain ⟨ρ, -, hρ⟩ := Term.ordinalise_eq_iff.mp h
  rw [Term.rename, Term.subst_app] at hρ
  obtain ⟨hsymbol, hargs⟩ := Term.app.inj hρ
  exact ⟨fun x => .var (ρ x), hsymbol, Or.inl hargs⟩

/-- Flat terms have no more variables than there are terms. -/
theorem length_vars_le {ts : List Term} (h : ∀ t ∈ ts, t.Flat) :
    (ts.flatMap Term.vars).length ≤ ts.length := by
  induction ts with
  | nil => exact Nat.le_refl _
  | cons t ts ih =>
    obtain ⟨ht, hts⟩ := List.forall_mem_cons.mp h
    have hvars : t.vars.length ≤ 1 := by
      cases t with
      | var x => simp [Term.vars]
      | const c => simp [Term.vars]
      | app f us =>
        obtain rfl : us = [] := ht
        simp
    have hrest := ih hts
    simp only [List.flatMap_cons, List.length_append, List.length_cons]
    omega

namespace Vocabulary

/-- The forms of the atoms over a vocabulary. -/
def forms (V : Vocabulary) : Set Term :=
  Atom.form '' {a | a.FlatIn V}

/-- What an argument of a form with `n` arguments can be: a term of the vocabulary, or a variable with
    a number below `n`. -/
def arguments (V : Vocabulary) (n : Nat) : List Term :=
  V.terms ++ (List.range n).map fun k => .var (.num k)

/-- The number of a variable is less than the number of arguments. -/
theorem mem_arguments {ts : List Term} (hts : ∀ t ∈ ts, t.FlatIn V) {t : Term} (ht : t ∈ ts) :
    t.subst (fun x => .var (ordinalIn (dedup (ts.flatMap Term.vars)) x)) ∈
      V.arguments ts.length := by
  cases t with
  | var x =>
    have hx : x ∈ dedup (ts.flatMap Term.vars) :=
      mem_dedup_iff.mpr (List.mem_flatMap.mpr ⟨.var x, ht, by simp [Term.vars]⟩)
    have hlt : (dedup (ts.flatMap Term.vars)).idxOf x < ts.length :=
      calc (dedup (ts.flatMap Term.vars)).idxOf x < (dedup (ts.flatMap Term.vars)).length :=
            List.idxOf_lt_length_of_mem hx
        _ ≤ (ts.flatMap Term.vars).length := (dedup_sublist _).length_le
        _ ≤ ts.length := length_vars_le fun t ht => (hts t ht).1
    apply List.mem_append_right
    exact List.mem_map.mpr ⟨_, List.mem_range.mpr hlt, rfl⟩
  | const c => exact List.mem_append_left _ ((hts _ ht).2 rfl)
  | app f us =>
    obtain rfl : us = [] := (hts _ ht).1
    exact List.mem_append_left _ ((hts _ ht).2 rfl)

/-- There are finitely many lists of a given length with elements from a list. -/
theorem finite_lists (us : List Term) (n : Nat) :
    {ts : List Term | ts.length = n ∧ ∀ t ∈ ts, t ∈ us}.Finite := by
  refine ((List.finite_length_eq {t // t ∈ us} n).image (List.map Subtype.val)).subset ?_
  rintro ts ⟨hlen, hts⟩
  exact ⟨ts.attachWith (· ∈ us) hts, by simpa using hlen, by simp⟩

/-- A vocabulary has finitely many forms. -/
theorem finite_forms (V : Vocabulary) : V.forms.Finite := by
  -- by symbol and number of arguments, lists over a finite alphabet
  have hfinite : (⋃ p ∈ V.symbols, Term.app p.1 ''
      {ts | ts.length = p.2 ∧ ∀ t ∈ ts, t ∈ V.arguments p.2}).Finite :=
    V.symbols.finite_toSet.biUnion fun p _ => (finite_lists _ _).image _
  refine hfinite.subset ?_
  rintro _ ⟨a, ⟨hsymbol, hargs⟩, rfl⟩
  refine Set.mem_biUnion hsymbol ⟨a.args.map (Term.subst fun x =>
    .var (ordinalIn (dedup (a.args.flatMap Term.vars)) x)), ⟨by simp, fun t ht => ?_⟩, ?_⟩
  · obtain ⟨u, hu, rfl⟩ := List.mem_map.mp ht
    exact mem_arguments hargs hu
  · rw [Atom.form, Term.ordinalise, Term.subst_app, Term.vars_app]

end Vocabulary

end Clausal
