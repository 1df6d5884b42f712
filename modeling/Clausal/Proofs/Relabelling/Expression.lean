import Clausal.Proofs.Respelling.Expression

/-!
# Relabelling

Fresh names are told apart by serial numbers, and their origins by places.  The numbers themselves
mean nothing: they may be exchanged for others, as long as different ones stay different.  Such an
exchange is called a relabelling.  It acts on everything that is made of names and leaves the names
that users give alone.

Nothing that a reasoner does depends on the labels.  Different names get different names, so a
relabelling of an expression is a respelling of it, and what holds of respelling holds of relabelling.

## Main definitions

- `Relabelling`, and `relabel` for names, terms, atoms, literals and clauses
- `Relabelling.respelling`: the names that a relabelling exchanges

## Main statements

- `Ident.relabel_injective`, `Term.relabel_injective`
- `Atom.keepsEq_relabel`, `Literal.keepsEq_relabel`, `Clause.keepsEq_relabel`
- `Atom.relabel_subst`, `Clause.relabel_subst`
-/

namespace Clausal

/-! ## Section 1: Names -/

/-- Other serials for fresh names and other places for their origins, different ones for different
    ones. -/
structure Relabelling where
  serial : Nat → Nat
  place : Nat → Nat
  serial_injective : Function.Injective serial
  place_injective : Function.Injective place

namespace Relabelling

/-- Labels stay as they are. -/
def refl : Relabelling :=
  ⟨id, id, Function.injective_id, Function.injective_id⟩

/-- One relabelling after another. -/
def trans (π π' : Relabelling) : Relabelling where
  serial := π'.serial ∘ π.serial
  place := π'.place ∘ π.place
  serial_injective := π'.serial_injective.comp π.serial_injective
  place_injective := π'.place_injective.comp π.place_injective

end Relabelling

variable (π π' : Relabelling)

namespace Ident

/-- A name with other labels.  What a fresh name stands for may be fresh itself. -/
def relabel : Ident → Ident
  | .null => .null
  | .num n => .num n
  | .name s => .name s
  | .equality => .equality
  | .standard serial of origin => .standard (π.serial serial) of.relabel (origin.map π.place)
  | .skolem serial of origin => .skolem (π.serial serial) of.relabel (origin.map π.place)

/-- Different names get different names. -/
theorem relabel_injective : Function.Injective (relabel π) := by
  have hplace : Function.Injective (Option.map π.place) :=
    Option.map_injective π.place_injective
  intro x y h
  induction x generalizing y with
  -- what users give stays as it is, and a fresh name never becomes such a name
  | null | num | name | equality => cases y <;> simp_all [relabel]
  | standard n x o ih =>
    cases y <;> simp only [relabel, reduceCtorEq, standard.injEq] at h
    obtain ⟨hserial, hof, horigin⟩ := h
    rw [π.serial_injective hserial, ih hof, hplace horigin]
  | skolem n x o ih =>
    cases y <;> simp only [relabel, reduceCtorEq, skolem.injEq] at h
    obtain ⟨hserial, hof, horigin⟩ := h
    rw [π.serial_injective hserial, ih hof, hplace horigin]

@[simp]
theorem relabel_inj {x y : Ident} : x.relabel π = y.relabel π ↔ x = y :=
  (relabel_injective π).eq_iff

@[simp]
theorem relabel_eq_null {x : Ident} : x.relabel π = .null ↔ x = .null :=
  relabel_inj π (y := .null)

/-- Names are the same after a relabelling if they were the same before. -/
theorem keepsEq_relabel : KeepsEq (relabel π) :=
  keepsEq_of_injective (relabel_injective π)

/-- Two relabellings, one after the other, are one. -/
theorem relabel_trans (x : Ident) : x.relabel (π.trans π') = (x.relabel π).relabel π' := by
  induction x with
  | null | num | name | equality => rfl
  | standard n x o ih | skolem n x o ih =>
    simp only [relabel, ih, Option.map_map]
    rfl

/-- The serial of a renewed name is relabelled like any other. -/
theorem relabel_renewed (x : Ident) (n : Nat) :
    (x.renewed n).relabel π = (x.relabel π).renewed (π.serial n) := by
  cases x <;> rfl

end Ident

/-- The names that a relabelling exchanges, those of variables and those of symbols. -/
def Relabelling.respelling : Respelling where
  var := Ident.relabel π
  symbol := Ident.relabel π
  var_injective := Ident.relabel_injective π
  symbol_injective := Ident.relabel_injective π
  symbol_equality := rfl

/-! ## Section 2: Terms -/

namespace Term

mutual

/-- A term with other labels. -/
def relabel : Term → Term
  | .var x => .var (x.relabel π)
  | .const c => .const (c.relabel π)
  | .app f args => .app (f.relabel π) (relabelList args)

/-- Several terms with other labels. -/
def relabelList : List Term → List Term
  | [] => []
  | t :: ts => t.relabel :: relabelList ts

end

@[simp]
theorem relabel_var (x : Ident) : (Term.var x).relabel π = .var (x.relabel π) := by
  rw [relabel]

@[simp]
theorem relabel_const (c : Ident) : (Term.const c).relabel π = .const (c.relabel π) := by
  rw [relabel]

/-- A relabelling goes into the arguments. -/
@[simp]
theorem relabel_app (f : Ident) (ts : List Term) :
    (Term.app f ts).relabel π = .app (f.relabel π) (ts.map (relabel π)) := by
  have hlist : relabelList π ts = ts.map (relabel π) := by
    induction ts with
    | nil => rfl
    | cons t ts ih => simp [relabelList, ih]
  rw [relabel, hlist]

/-- To relabel a term is to respell it. -/
theorem relabel_eq_respell : relabel π = respell π.respelling := by
  funext t
  induction t using Term.induction with
  | var x => rw [relabel_var, respell_var, Relabelling.respelling]
  | const c => rw [relabel_const, respell_const, Relabelling.respelling]
  | app f ts ih =>
    rw [relabel_app, respell_app, List.map_congr_left ih, Relabelling.respelling]

/-- Different terms stay different. -/
theorem relabel_injective : Function.Injective (relabel π) :=
  relabel_eq_respell π ▸ respell_injective π.respelling

@[simp]
theorem relabel_inj {s t : Term} : s.relabel π = t.relabel π ↔ s = t :=
  (relabel_injective π).eq_iff

/-- Two relabellings of a term are one. -/
private theorem relabel_trans (t : Term) : t.relabel (π.trans π') = (t.relabel π).relabel π' := by
  induction t using Term.induction with
  | var x => simp only [relabel_var, Ident.relabel_trans]
  | const c => simp only [relabel_const, Ident.relabel_trans]
  | app f ts ih =>
    simp only [relabel_app, Ident.relabel_trans, List.map_map, app.injEq, true_and]
    exact List.map_congr_left ih

@[simp]
theorem relabel_eq_const {t : Term} {c : Ident} :
    t.relabel π = .const (c.relabel π) ↔ t = .const c := by
  rw [← relabel_const, relabel_inj]

end Term

/-! ## Section 3: Atoms and literals -/

namespace Atom

/-- An atom with other labels. -/
def relabel : Atom → Atom
  | .pred p as => .pred (p.relabel π) (as.map (Term.relabel π))
  | .eq l r => .eq (l.relabel π) (r.relabel π)

/-- The symbol is relabelled like any name. -/
@[simp]
theorem symbol_relabel (a : Atom) : (a.relabel π).symbol = a.symbol.relabel π := by
  cases a <;> rfl

@[simp]
theorem args_relabel (a : Atom) : (a.relabel π).args = a.args.map (Term.relabel π) := by
  cases a <;> rfl

/-- Equations stay equations, and nothing else becomes one. -/
@[simp]
theorem isEq_relabel (a : Atom) : (a.relabel π).isEq = a.isEq := by
  cases a <;> rfl

/-- Two relabellings of an atom are one. -/
private theorem relabel_trans (a : Atom) : a.relabel (π.trans π') = (a.relabel π).relabel π' := by
  cases a <;> simp [relabel, Ident.relabel_trans, Term.relabel_trans]

/-- To relabel an atom is to respell it. -/
theorem relabel_eq_respell : relabel π = respell π.respelling := by
  funext a
  cases a <;> simp [relabel, respell, Term.relabel_eq_respell, Relabelling.respelling]

/-- Atoms stay equal or different. -/
theorem keepsEq_relabel : KeepsEq (relabel π) :=
  relabel_eq_respell π ▸ keepsEq_respell π.respelling

/-- The variables are those of the atom before, relabelled. -/
theorem vars_relabel (a : Atom) : (a.relabel π).vars = a.vars.map (Ident.relabel π) := by
  rw [relabel_eq_respell]
  exact a.vars_respell π.respelling

/-- Relabelling may be done before or after variables are replaced. -/
theorem relabel_subst {θ θ' : Ident → Term} {a : Atom}
    (h : ∀ x ∈ a.vars, (θ x).relabel π = θ' (x.relabel π)) :
    (a.subst θ).relabel π = (a.relabel π).subst θ' := by
  rw [relabel_eq_respell]
  rw [Term.relabel_eq_respell] at h
  exact respell_subst π.respelling h

end Atom

namespace Literal

/-- A literal with other labels. -/
def relabel (l : Literal) : Literal :=
  { l with atom := l.atom.relabel π }

@[simp]
theorem positive_relabel (l : Literal) : (l.relabel π).positive = l.positive := rfl

@[simp]
theorem atom_relabel (l : Literal) : (l.relabel π).atom = l.atom.relabel π := rfl

/-- Two relabellings of a literal are one. -/
private theorem relabel_trans (l : Literal) : l.relabel (π.trans π') = (l.relabel π).relabel π' :=
  congrArg (Literal.mk l.positive) (l.atom.relabel_trans π π')

/-- To relabel a literal is to respell it. -/
theorem relabel_eq_respell : relabel π = respell π.respelling := by
  funext l
  rw [relabel, respell, Atom.relabel_eq_respell]

/-- Literals stay equal or different. -/
theorem keepsEq_relabel : KeepsEq (relabel π) :=
  relabel_eq_respell π ▸ keepsEq_respell π.respelling

end Literal

/-! ## Section 4: Clauses -/

namespace Clause

/-- A clause with other labels. -/
def relabel (c : Clause) : Clause where
  literals := c.literals.map (Literal.relabel π)
  form := c.form
  distinct := (Literal.keepsEq_relabel π).distinct_map c.distinct

@[simp]
theorem literals_relabel (c : Clause) :
    (c.relabel π).literals = c.literals.map (Literal.relabel π) := rfl

/-- Two relabellings of a clause are one. -/
theorem relabel_trans (c : Clause) : c.relabel (π.trans π') = (c.relabel π).relabel π' := by
  simp only [relabel, List.map_map, Clause.mk.injEq, and_true]
  exact List.map_congr_left fun l _ => l.relabel_trans π π'

/-- To relabel a clause is to respell it. -/
theorem relabel_eq_respell : relabel π = respell π.respelling := by
  funext c
  simp only [relabel, respell, Literal.relabel_eq_respell]

/-- Clauses stay equal or different. -/
theorem keepsEq_relabel : KeepsEq (relabel π) :=
  relabel_eq_respell π ▸ keepsEq_respell π.respelling

@[simp]
theorem size_relabel (c : Clause) : (c.relabel π).size = c.size := by
  simp [size]

@[simp]
theorem isEmpty_relabel (c : Clause) : (c.relabel π).isEmpty = c.isEmpty := by
  simp [isEmpty]

@[simp]
theorem isUnit_relabel (c : Clause) : (c.relabel π).isUnit = c.isUnit := by
  simp [isUnit]

/-- The variables are those of the clause before, relabelled. -/
theorem vars_relabel (c : Clause) : (c.relabel π).vars = c.vars.map (Ident.relabel π) := by
  rw [relabel_eq_respell]
  exact c.vars_respell π.respelling

/-- Of equal literals the same one is kept. -/
theorem relabel_ofList (ls : List Literal) (form : ClauseForm) :
    (ofList ls form).relabel π = ofList (ls.map (Literal.relabel π)) form := by
  rw [relabel_eq_respell, Literal.relabel_eq_respell]
  exact respell_ofList π.respelling ls form

/-- A clause may be relabelled before or after its variables are replaced. -/
theorem relabel_subst {θ θ' : Ident → Term} {c : Clause}
    (h : ∀ x ∈ c.vars, (θ x).relabel π = θ' (x.relabel π)) :
    (c.subst θ).relabel π = (c.relabel π).subst θ' := by
  rw [relabel_eq_respell]
  rw [Term.relabel_eq_respell] at h
  exact respell_subst π.respelling h

end Clause

end Clausal
