import Clausal.Proofs.Clause

/-!
# Respelling

The names in an expression may be exchanged for others, as long as different names stay different.
Variables and symbols are told apart by where they stand, so they may be exchanged independently of
each other; only the name of equality has to stay, since it is also the name of equations.  Such an
exchange is called a respelling.

Respelling keeps equality, and so the lists without repetitions that clauses are.  It takes
variables to variables, and it can be done before or after a replacement of variables.

## Main definitions

- `Respelling`, and `respell` for terms, atoms, literals and clauses

## Main statements

- `Term.respell_injective`
- `Atom.keepsEq_respell`, `Literal.keepsEq_respell`, `Clause.keepsEq_respell`
- `Term.respell_subst`, `Clause.respell_ofList`
-/

namespace Clausal

/-! ## Section 1: Terms -/

/-- Other names for variables and other names for symbols, different ones for different ones.
    Equality keeps its name. -/
structure Respelling where
  var : Ident → Ident
  symbol : Ident → Ident
  var_injective : Function.Injective var
  symbol_injective : Function.Injective symbol
  symbol_equality : symbol .equality = .equality

namespace Respelling

variable (ρ : Respelling)

@[simp]
theorem var_inj {x y : Ident} : ρ.var x = ρ.var y ↔ x = y :=
  ρ.var_injective.eq_iff

@[simp]
theorem symbol_inj {x y : Ident} : ρ.symbol x = ρ.symbol y ↔ x = y :=
  ρ.symbol_injective.eq_iff

/-- Variables are the same after a respelling if they were the same before. -/
theorem keepsEq_var : KeepsEq ρ.var :=
  keepsEq_of_injective ρ.var_injective

end Respelling

variable (ρ : Respelling)

namespace Term

mutual

/-- A term with other names. -/
def respell : Term → Term
  | .var x => .var (ρ.var x)
  | .const c => .const (ρ.symbol c)
  | .app f args => .app (ρ.symbol f) (respellList args)

/-- Several terms with other names. -/
def respellList : List Term → List Term
  | [] => []
  | t :: ts => t.respell :: respellList ts

end

@[simp]
theorem respell_var (x : Ident) : (Term.var x).respell ρ = .var (ρ.var x) := by
  rw [respell]

@[simp]
theorem respell_const (c : Ident) : (Term.const c).respell ρ = .const (ρ.symbol c) := by
  rw [respell]

/-- A respelling goes into the arguments. -/
@[simp]
theorem respell_app (f : Ident) (ts : List Term) :
    (Term.app f ts).respell ρ = .app (ρ.symbol f) (ts.map (respell ρ)) := by
  have hlist : respellList ρ ts = ts.map (respell ρ) := by
    induction ts with
    | nil => rfl
    | cons t ts ih => simp [respellList, ih]
  rw [respell, hlist]

/-- Different terms stay different. -/
theorem respell_injective : Function.Injective (respell ρ) := by
  intro s
  induction s using Term.induction with
  | var x | const x =>
    intro t h
    cases t <;> simp_all
  | app f ts ih =>
    intro t h
    cases t with
    | var y | const y => simp at h
    | app g us =>
      simp only [respell_app, app.injEq, Respelling.symbol_inj] at h
      obtain ⟨rfl, hts⟩ := h
      congr 1
      -- the arguments agree one by one
      induction ts generalizing us with
      | nil => simpa using hts.symm
      | cons t ts ihts =>
        cases us with
        | nil => simp at hts
        | cons u us =>
          obtain ⟨ht, hts⟩ := List.cons.inj hts
          obtain ⟨iht, ih⟩ := List.forall_mem_cons.mp ih
          rw [iht ht, ihts ih us hts]

@[simp]
theorem respell_inj {s t : Term} : s.respell ρ = t.respell ρ ↔ s = t :=
  (respell_injective ρ).eq_iff

/-- Only a variable becomes one. -/
@[simp]
theorem respell_eq_var {t : Term} {x : Ident} : t.respell ρ = .var (ρ.var x) ↔ t = .var x := by
  rw [← respell_var, respell_inj]

/-- Variables stay variables. -/
@[simp]
theorem isVar_respell (t : Term) : (t.respell ρ).isVar = t.isVar := by
  cases t <;> simp [isVar]

/-- The variables are respelled in their places. -/
theorem vars_respell (t : Term) : (t.respell ρ).vars = t.vars.map ρ.var := by
  induction t using Term.induction with
  | var x => simp [vars]
  | const c => simp [vars]
  | app f ts ih =>
    rw [respell_app, vars_app, vars_app, List.flatMap_map, List.map_flatMap]
    exact List.flatMap_congr ih

/-- A variable occurs where it occurred before. -/
@[simp]
theorem occurs_respell (x : Ident) (t : Term) : (t.respell ρ).occurs (ρ.var x) = t.occurs x := by
  rw [occurs, vars_respell, ρ.keepsEq_var.contains_map, occurs]

/-- What keeps the number of symbols of each term keeps that of all. -/
theorem symbolsList_map {g : Term → Term} {ts : List Term}
    (h : ∀ t ∈ ts, (g t).symbols = t.symbols) : symbolsList (ts.map g) = symbolsList ts := by
  induction ts with
  | nil => rfl
  | cons t ts ih =>
    obtain ⟨ht, hts⟩ := List.forall_mem_cons.mp h
    rw [List.map_cons, symbolsList, symbolsList, ht, ih hts]

/-- Terms keep their number of symbols. -/
private theorem symbols_respell (t : Term) : (t.respell ρ).symbols = t.symbols := by
  induction t using Term.induction with
  | var x => simp [symbols]
  | const c => simp [symbols]
  | app f ts ih => rw [respell_app, symbols, symbols, symbolsList_map ih]

@[simp]
theorem symbolsList_respell (ts : List Term) :
    symbolsList (ts.map (respell ρ)) = symbolsList ts :=
  symbolsList_map fun t _ => t.symbols_respell ρ

/-- Respelling may be done before or after variables are replaced. -/
theorem respell_subst {θ θ' : Ident → Term} {t : Term}
    (h : ∀ x ∈ t.vars, (θ x).respell ρ = θ' (ρ.var x)) :
    (t.subst θ).respell ρ = (t.respell ρ).subst θ' := by
  induction t using Term.induction with
  | var x => simpa [subst] using h x (by simp [vars])
  | const c => simp [subst]
  | app f ts ih =>
    simp only [subst_app, respell_app, List.map_map, app.injEq, true_and]
    refine List.map_congr_left fun t ht => ih t ht fun x hx => h x ?_
    rw [vars_app]
    exact List.mem_flatMap.mpr ⟨t, ht, hx⟩

end Term

/-! ## Section 2: Atoms and literals -/

namespace Atom

/-- An atom with other names. -/
def respell : Atom → Atom
  | .pred p as => .pred (ρ.symbol p) (as.map (Term.respell ρ))
  | .eq l r => .eq (l.respell ρ) (r.respell ρ)

/-- The symbol is respelled like any other. -/
@[simp]
theorem symbol_respell (a : Atom) : (a.respell ρ).symbol = ρ.symbol a.symbol := by
  cases a with
  | pred p as => rfl
  | eq l r => exact ρ.symbol_equality.symm

/-- The arguments are respelled in their places. -/
@[simp]
theorem args_respell (a : Atom) : (a.respell ρ).args = a.args.map (Term.respell ρ) := by
  cases a <;> rfl

/-- Equations stay equations, and nothing else becomes one. -/
@[simp]
theorem isEq_respell (a : Atom) : (a.respell ρ).isEq = a.isEq := by
  cases a <;> rfl

/-- Atoms stay equal or different, up to the order of the sides of equations. -/
theorem keepsEq_respell : KeepsEq (respell ρ) := by
  intro a b
  show (a.respell ρ).same (b.respell ρ) = a.same b
  -- each comparison of terms within `same` is an equation, which injectivity keeps
  cases a <;> cases b <;> simp [same, respell, (Term.respell_injective ρ).list_map.eq_iff]

/-- The variables of an atom are respelled in their places. -/
theorem vars_respell (a : Atom) : (a.respell ρ).vars = a.vars.map ρ.var := by
  rw [vars, args_respell, List.flatMap_map, vars, List.map_flatMap]
  exact List.flatMap_congr fun t _ => t.vars_respell ρ

/-- An atom may be respelled before or after its variables are replaced. -/
theorem respell_subst {θ θ' : Ident → Term} {a : Atom}
    (h : ∀ x ∈ a.vars, (θ x).respell ρ = θ' (ρ.var x)) :
    (a.subst θ).respell ρ = (a.respell ρ).subst θ' := by
  have hargs : ∀ t ∈ a.args, (t.subst θ).respell ρ = (t.respell ρ).subst θ' := fun t ht =>
    Term.respell_subst ρ fun x hx => h x (List.mem_flatMap.mpr ⟨t, ht, hx⟩)
  cases a with
  | pred p as => simpa [subst, respell, args] using hargs
  | eq l r => simpa [subst, respell, args] using hargs

end Atom

namespace Literal

/-- A literal with other names. -/
def respell (l : Literal) : Literal :=
  { l with atom := l.atom.respell ρ }

@[simp]
theorem positive_respell (l : Literal) : (l.respell ρ).positive = l.positive := rfl

@[simp]
theorem atom_respell (l : Literal) : (l.respell ρ).atom = l.atom.respell ρ := rfl

/-- Literals stay equal or different. -/
theorem keepsEq_respell : KeepsEq (respell ρ) := by
  intro l m
  show ((l.atom.respell ρ == m.atom.respell ρ) && l.positive = m.positive) = _
  rw [Atom.keepsEq_respell ρ]
  rfl

private theorem vars_respell (l : Literal) : (l.respell ρ).vars = l.vars.map ρ.var :=
  l.atom.vars_respell ρ

/-- A literal may be respelled before or after its variables are replaced. -/
theorem respell_subst {θ θ' : Ident → Term} {l : Literal}
    (h : ∀ x ∈ l.vars, (θ x).respell ρ = θ' (ρ.var x)) :
    (l.subst θ).respell ρ = (l.respell ρ).subst θ' :=
  congrArg (Literal.mk l.positive) (Atom.respell_subst ρ h)

end Literal

/-! ## Section 3: Clauses -/

namespace Clause

/-- A clause with other names. -/
def respell (c : Clause) : Clause where
  literals := c.literals.map (Literal.respell ρ)
  form := c.form
  distinct := (Literal.keepsEq_respell ρ).distinct_map c.distinct

@[simp]
theorem literals_respell (c : Clause) :
    (c.respell ρ).literals = c.literals.map (Literal.respell ρ) := rfl

/-- Clauses stay equal or different. -/
theorem keepsEq_respell : KeepsEq (respell ρ) := by
  intro c d
  have hcontains := (Literal.keepsEq_respell ρ).contains_map
  show (c.respell ρ).same (d.respell ρ) = c.same d
  simp only [same, contains, literals_respell, List.all_map, Function.comp_def, hcontains]
  rfl

/-- The variables of a clause are respelled in their places. -/
theorem vars_respell (c : Clause) : (c.respell ρ).vars = c.vars.map ρ.var := by
  rw [vars, vars, ← ρ.keepsEq_var.dedup_map, literals_respell, List.flatMap_map,
    List.map_flatMap]
  exact congrArg dedup (List.flatMap_congr fun l _ => l.vars_respell ρ)

/-- Of equal literals the same one is kept. -/
theorem respell_ofList (ls : List Literal) (form : ClauseForm) :
    (ofList ls form).respell ρ = ofList (ls.map (Literal.respell ρ)) form := by
  simp only [respell, ofList, (Literal.keepsEq_respell ρ).dedup_map]

/-- A clause may be respelled before or after its variables are replaced. -/
theorem respell_subst {θ θ' : Ident → Term} {c : Clause}
    (h : ∀ x ∈ c.vars, (θ x).respell ρ = θ' (ρ.var x)) :
    (c.subst θ).respell ρ = (c.respell ρ).subst θ' := by
  rw [subst, respell_ofList, subst, literals_respell, List.map_map, List.map_map]
  congr 1
  refine List.map_congr_left fun l hl => Literal.respell_subst ρ fun x hx => h x ?_
  exact mem_vars.mpr ⟨l, hl, hx⟩

end Clause

end Clausal
