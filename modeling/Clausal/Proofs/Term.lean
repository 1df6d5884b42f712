import Clausal.Part

/-!
# Terms under substitution

The laws of simultaneous substitution: it depends on the variables that occur only, substitutions
are composed by applying one after the other, and the variables and function symbols of an instance
come from the term or from what is put in.

## Main statements

- `Term.subst_congr`, `Term.subst_subst`, `Term.subst_var`
- `Term.subst_eq_subst_iff`: an instance determines what the variables are replaced by
- `Term.mem_vars_subst`, `Term.mem_functions_subst`
- `Atom.beq_iff`, `Literal.beq_iff`: equality up to the order of the sides of equations
- `Ident.Below`: what a supply of names has handed out before a serial
- `Term.names`, `Atom.names`, `Formula.names`: all names, with `Atom.mem_names_subst`
-/

namespace Clausal

/-! ## Section 1: Names handed out before a serial -/

/-- A name is no fresh one, or its serial is below `n`. -/
def Ident.Below (n : Nat) : Ident → Prop
  | .standard k _ _ => k < n
  | .skolem k _ _ => k < n
  | _ => True

instance (n : Nat) (i : Ident) : Decidable (i.Below n) := by
  cases i <;> unfold Ident.Below <;> infer_instance

theorem Ident.Below.mono {n m : Nat} {i : Ident} (h : i.Below n) (hnm : n ≤ m) : i.Below m := by
  cases i with
  | standard k _ _ => exact Nat.lt_of_lt_of_le h hnm
  | skolem k _ _ => exact Nat.lt_of_lt_of_le h hnm
  | null | num | name | equality => trivial

namespace Term

/-! ## Section 2: Substitution -/

@[simp]
theorem subst_app (θ : Ident → Term) (f : Ident) (ts : List Term) :
    (Term.app f ts).subst θ = .app f (ts.map (subst θ)) := by
  simp [subst, substList_eq_map]

private theorem varsList_eq_flatMap (ts : List Term) : varsList ts = ts.flatMap vars := by
  induction ts with
  | nil => rfl
  | cons t ts ih => simp [varsList, ih]

@[simp]
theorem vars_app (f : Ident) (ts : List Term) : (Term.app f ts).vars = ts.flatMap vars := by
  simp [vars, varsList_eq_flatMap]

/-- Two substitutions that agree on the variables of a term yield the same instance. -/
theorem subst_congr {θ τ : Ident → Term} {t : Term} (h : ∀ x ∈ t.vars, θ x = τ x) :
    t.subst θ = t.subst τ := by
  induction t using Term.induction with
  | var x => exact h x (by simp [vars])
  | const c => rfl
  | app f ts ih =>
    rw [subst_app, subst_app]
    congr 1
    refine List.map_congr_left fun a ha => ih a ha fun x hx => ?_
    exact h x (by simpa using ⟨a, ha, hx⟩)

/-- Instances of a term are equal exactly if its variables are replaced by the same terms. -/
theorem subst_eq_subst_iff {θ τ : Ident → Term} {t : Term} :
    t.subst θ = t.subst τ ↔ ∀ x ∈ t.vars, θ x = τ x := by
  refine ⟨fun h => ?_, subst_congr⟩
  induction t using Term.induction with
  | var y =>
    intro x hx
    obtain rfl := List.mem_singleton.mp hx
    exact h
  | const c =>
    intro x hx
    cases hx
  | app f ts ih =>
    intro x hx
    rw [vars_app, List.mem_flatMap] at hx
    obtain ⟨t, ht, hx⟩ := hx
    rw [subst_app, subst_app, Term.app.injEq, List.map_inj_left] at h
    exact ih t ht (h.2 t ht) x hx

theorem subst_subst (θ τ : Ident → Term) (t : Term) :
    (t.subst θ).subst τ = t.subst fun x => (θ x).subst τ := by
  induction t using Term.induction with
  | var x => rfl
  | const c => rfl
  | app f ts ih =>
    simp only [subst_app, List.map_map, Term.app.injEq, true_and]
    exact List.map_congr_left ih

@[simp]
theorem subst_var (t : Term) : t.subst .var = t := by
  induction t using Term.induction with
  | var x => rfl
  | const c => rfl
  | app f ts ih =>
    rw [subst_app, List.map_congr_left ih, List.map_id']

/-- A substitution that moves no variable of a term leaves it as it is. -/
theorem subst_eq_self {θ : Ident → Term} {t : Term} (h : ∀ x ∈ t.vars, θ x = .var x) :
    t.subst θ = t := by
  rw [subst_congr h, subst_var]

theorem mem_vars_subst {θ : Ident → Term} {t : Term} {y : Ident} :
    y ∈ (t.subst θ).vars ↔ ∃ x ∈ t.vars, y ∈ (θ x).vars := by
  induction t using Term.induction with
  | var x => simp [subst, vars]
  | const c => simp [subst, vars]
  | app f ts ih =>
    simp only [subst_app, vars_app, List.mem_flatMap, List.mem_map]
    constructor
    · rintro ⟨_, ⟨a, ha, rfl⟩, hy⟩
      obtain ⟨x, hx, hy⟩ := (ih a ha).mp hy
      exact ⟨x, ⟨a, ha, hx⟩, hy⟩
    · rintro ⟨x, ⟨a, ha, hx⟩, hy⟩
      exact ⟨_, ⟨a, ha, rfl⟩, (ih a ha).mpr ⟨x, hx, hy⟩⟩

theorem subtermsList_eq_flatMap (ts : List Term) : subtermsList ts = ts.flatMap subterms := by
  induction ts with
  | nil => rfl
  | cons t ts ih => rw [subtermsList, ih, List.flatMap_cons]

/-- The parts of a term are the term itself and those of its arguments. -/
theorem parts_app (f : Ident) (args : List Term) :
    (Term.app f args).parts = .term (.app f args) :: args.flatMap parts := by
  rw [parts, subterms, subtermsList_eq_flatMap, List.map_cons, List.map_flatMap]
  rfl

theorem mem_subterms_self (t : Term) : t ∈ t.subterms := by
  cases t <;> simp [subterms]

theorem mem_parts_self (t : Term) : .term t ∈ t.parts :=
  List.mem_map_of_mem (mem_subterms_self t)

/-- The terms that a term is made of directly. -/
def args : Term → List Term
  | .app _ ts => ts
  | _ => []

theorem parts_args_subset (t : Term) : t.args.flatMap parts ⊆ t.parts := by
  cases t with
  | app f ts =>
    rw [parts_app]
    exact List.subset_cons_self _ _
  | _ => exact List.nil_subset _

theorem mem_subterms_subst_of_mem_vars {θ : Ident → Term} {t : Term} {x : Ident} (hx : x ∈ t.vars) :
    θ x ∈ (t.subst θ).subterms := by
  induction t using Term.induction with
  | var y =>
    obtain rfl : x = y := List.mem_singleton.mp hx
    exact mem_subterms_self _
  | const c => cases hx
  | app f ts ih =>
    rw [vars_app, List.mem_flatMap] at hx
    obtain ⟨t, ht, hx⟩ := hx
    rw [subst_app, subterms, subtermsList_eq_flatMap]
    exact List.mem_cons_of_mem _
      (List.mem_flatMap.mpr ⟨_, List.mem_map_of_mem ht, ih t ht hx⟩)

/-! ## Section 3: Function symbols -/

mutual

/-- The function symbols of a term from left to right, with repetitions. -/
def functions : Term → List Ident
  | .var _ => []
  | .const _ => []
  | .app f args => f :: functionsList args

/-- The function symbols of several terms. -/
def functionsList : List Term → List Ident
  | [] => []
  | t :: ts => functions t ++ functionsList ts

end

theorem functionsList_eq_flatMap (ts : List Term) : functionsList ts = ts.flatMap functions := by
  induction ts with
  | nil => rfl
  | cons t ts ih => simp [functionsList, ih]

@[simp]
theorem functions_app (f : Ident) (ts : List Term) :
    (Term.app f ts).functions = f :: ts.flatMap functions := by
  simp [functions, functionsList_eq_flatMap]

theorem mem_functions_subst {θ : Ident → Term} {t : Term} {g : Ident}
    (h : g ∈ (t.subst θ).functions) : g ∈ t.functions ∨ ∃ x ∈ t.vars, g ∈ (θ x).functions := by
  induction t using Term.induction with
  | var x => exact Or.inr ⟨x, by simp [vars], h⟩
  | const c => simp [subst, functions] at h
  | app f ts ih =>
    simp only [subst_app, functions_app, List.mem_cons, List.mem_flatMap, List.mem_map] at h ⊢
    rcases h with rfl | ⟨_, ⟨a, ha, rfl⟩, hg⟩
    · exact Or.inl (Or.inl rfl)
    · rcases ih a ha hg with hg | ⟨x, hx, hg⟩
      · exact Or.inl (Or.inr ⟨a, ha, hg⟩)
      · exact Or.inr ⟨x, by simpa using ⟨a, ha, hx⟩, hg⟩

end Term

/-! ## Section 4: Atoms and literals -/

/-- The function symbols of an atom from left to right, with repetitions. -/
def Atom.functions (a : Atom) : List Ident :=
  a.args.flatMap Term.functions

namespace Atom

@[simp]
theorem args_subst (θ : Ident → Term) (a : Atom) :
    (a.subst θ).args = a.args.map (Term.subst θ) := by
  cases a <;> rfl

@[simp]
theorem symbol_subst (θ : Ident → Term) (a : Atom) : (a.subst θ).symbol = a.symbol := by
  cases a <;> rfl

@[simp]
theorem isEq_subst (θ : Ident → Term) (a : Atom) : (a.subst θ).isEq = a.isEq := by
  cases a <;> rfl

theorem subst_congr {θ τ : Ident → Term} {a : Atom} (h : ∀ x ∈ a.vars, θ x = τ x) :
    a.subst θ = a.subst τ := by
  have hargs : ∀ t ∈ a.args, t.subst θ = t.subst τ := fun t ht =>
    Term.subst_congr fun x hx => h x (List.mem_flatMap.mpr ⟨t, ht, hx⟩)
  cases a with
  | pred p ts => exact congrArg (Atom.pred p) (List.map_congr_left hargs)
  | eq l r =>
    show Atom.eq (l.subst θ) (r.subst θ) = Atom.eq (l.subst τ) (r.subst τ)
    rw [hargs l (by simp [args]), hargs r (by simp [args])]

theorem subst_eq_subst_iff {θ τ : Ident → Term} {a : Atom} :
    a.subst θ = a.subst τ ↔ ∀ x ∈ a.vars, θ x = τ x := by
  refine ⟨fun h x hx => ?_, subst_congr⟩
  obtain ⟨t, ht, hx⟩ := List.mem_flatMap.mp hx
  have hargs := congrArg args h
  rw [args_subst, args_subst, List.map_inj_left] at hargs
  exact Term.subst_eq_subst_iff.mp (hargs t ht) x hx

theorem subst_subst (θ τ : Ident → Term) (a : Atom) :
    (a.subst θ).subst τ = a.subst fun x => (θ x).subst τ := by
  cases a <;> simp [subst, Term.subst_subst]

@[simp]
theorem subst_var (a : Atom) : a.subst .var = a := by
  cases a with
  | pred p ts => exact congrArg (Atom.pred p) (List.map_id'' Term.subst_var ts)
  | eq l r => simp [subst]

theorem subst_of_vars_eq_nil {a : Atom} (h : a.vars = []) (θ : Ident → Term) : a.subst θ = a := by
  rw [subst_congr (τ := .var) (by simp [h]), subst_var]

theorem mem_vars_subst {θ : Ident → Term} {a : Atom} {y : Ident} :
    y ∈ (a.subst θ).vars ↔ ∃ x ∈ a.vars, y ∈ (θ x).vars := by
  simp only [vars, args_subst, List.mem_flatMap, List.mem_map]
  constructor
  · rintro ⟨_, ⟨t, ht, rfl⟩, hy⟩
    obtain ⟨x, hx, hy⟩ := Term.mem_vars_subst.mp hy
    exact ⟨x, ⟨t, ht, hx⟩, hy⟩
  · rintro ⟨x, ⟨t, ht, hx⟩, hy⟩
    exact ⟨_, ⟨t, ht, rfl⟩, Term.mem_vars_subst.mpr ⟨x, hx, hy⟩⟩

theorem mem_functions_subst {θ : Ident → Term} {a : Atom} {g : Ident}
    (h : g ∈ (a.subst θ).functions) : g ∈ a.functions ∨ ∃ x ∈ a.vars, g ∈ (θ x).functions := by
  simp only [functions, args_subst, List.mem_flatMap, List.mem_map] at h
  obtain ⟨_, ⟨t, ht, rfl⟩, hg⟩ := h
  rcases Term.mem_functions_subst hg with hg | ⟨x, hx, hg⟩
  · exact Or.inl (List.mem_flatMap.mpr ⟨t, ht, hg⟩)
  · exact Or.inr ⟨x, List.mem_flatMap.mpr ⟨t, ht, hx⟩, hg⟩

end Atom

namespace Literal

theorem subst_eq_subst_iff {θ τ : Ident → Term} {l : Literal} :
    l.subst θ = l.subst τ ↔ ∀ x ∈ l.vars, θ x = τ x := by
  rw [vars, ← Atom.subst_eq_subst_iff]
  simp [subst]

theorem subst_congr {θ τ : Ident → Term} {l : Literal} (h : ∀ x ∈ l.vars, θ x = τ x) :
    l.subst θ = l.subst τ :=
  congrArg (Literal.mk l.positive) (Atom.subst_congr h)

theorem subst_subst (θ τ : Ident → Term) (l : Literal) :
    (l.subst θ).subst τ = l.subst fun x => (θ x).subst τ := by
  simp [subst, Atom.subst_subst]

@[simp]
theorem subst_var (l : Literal) : l.subst .var = l := by
  simp [subst]

@[simp]
theorem positive_subst (θ : Ident → Term) (l : Literal) : (l.subst θ).positive = l.positive := rfl

@[simp]
theorem atom_subst (θ : Ident → Term) (l : Literal) : (l.subst θ).atom = l.atom.subst θ := rfl

@[simp]
theorem negate_subst (θ : Ident → Term) (l : Literal) :
    (l.subst θ).negate = l.negate.subst θ := rfl

@[simp]
theorem vars_negate (l : Literal) : l.negate.vars = l.vars := rfl

end Literal

/-! ## Section 5: Equations without direction -/

/-- Atoms are equal if they are the same up to the order of the two sides of an equation. -/
theorem Atom.beq_iff {a b : Atom} :
    (a == b) = true ↔ a = b ∨ ∃ l r, a = .eq l r ∧ b = .eq r l := by
  change a.same b = true ↔ _
  cases a with
  | pred p ts => cases b <;> simp [same]
  | eq l r =>
    cases b with
    | pred q us => simp [same]
    | eq l' r' =>
      simp only [same, Bool.or_eq_true, Bool.and_eq_true, decide_eq_true_eq, Atom.eq.injEq]
      refine or_congr_right ⟨fun h => ⟨l, r, ⟨rfl, rfl⟩, h.2.symm, h.1.symm⟩, ?_⟩
      rintro ⟨_, _, ⟨rfl, rfl⟩, rfl, rfl⟩
      exact ⟨rfl, rfl⟩

instance : EquivBEq Atom where
  rfl := Atom.beq_iff.mpr (Or.inl rfl)
  symm {a b} h := by
    rcases Atom.beq_iff.mp h with rfl | ⟨l, r, rfl, rfl⟩
    · exact h
    · exact Atom.beq_iff.mpr (Or.inr ⟨r, l, rfl, rfl⟩)
  trans {a b c} hab hbc := by
    rcases Atom.beq_iff.mp hab with rfl | ⟨l, r, rfl, rfl⟩
    · exact hbc
    · rcases Atom.beq_iff.mp hbc with rfl | ⟨l', r', heq, rfl⟩
      · exact hab
      · obtain ⟨rfl, rfl⟩ := Atom.eq.inj heq
        exact Atom.beq_iff.mpr (Or.inl rfl)

theorem Atom.beq_subst {a b : Atom} (h : (a == b) = true) (θ : Ident → Term) :
    (a.subst θ == b.subst θ) = true := by
  rcases Atom.beq_iff.mp h with rfl | ⟨l, r, rfl, rfl⟩
  · exact BEq.rfl
  · exact Atom.beq_iff.mpr (Or.inr ⟨_, _, rfl, rfl⟩)

theorem Literal.beq_iff {l m : Literal} :
    (l == m) = true ↔ (l.atom == m.atom) = true ∧ l.positive = m.positive := by
  change (l.atom == m.atom && l.positive = m.positive) = true ↔ _
  simp

instance : EquivBEq Literal where
  rfl := Literal.beq_iff.mpr ⟨BEq.rfl, rfl⟩
  symm h := by
    obtain ⟨ha, hp⟩ := Literal.beq_iff.mp h
    exact Literal.beq_iff.mpr ⟨BEq.symm ha, hp.symm⟩
  trans h h' := by
    obtain ⟨ha, hp⟩ := Literal.beq_iff.mp h
    obtain ⟨ha', hp'⟩ := Literal.beq_iff.mp h'
    exact Literal.beq_iff.mpr ⟨BEq.trans ha ha', hp.trans hp'⟩

theorem Literal.beq_subst {l m : Literal} (h : (l == m) = true) (θ : Ident → Term) :
    (l.subst θ == m.subst θ) = true := by
  obtain ⟨ha, hp⟩ := Literal.beq_iff.mp h
  exact Literal.beq_iff.mpr ⟨Atom.beq_subst ha θ, hp⟩

/-! ## Section 6: All names -/

mutual

/-- The names in a term from left to right, with repetitions. -/
def Term.names : Term → List Ident
  | .var x => [x]
  | .const c => [c]
  | .app f args => f :: Term.namesList args

/-- The names in several terms. -/
def Term.namesList : List Term → List Ident
  | [] => []
  | t :: ts => t.names ++ Term.namesList ts

end

/-- The names in an atom. -/
def Atom.names (a : Atom) : List Ident :=
  a.symbol :: Term.namesList a.args

/-- The names in a formula, those of bound variables included. -/
def Formula.names : Formula → List Ident
  | .atom a => a.names
  | .not f => f.names
  | .and f g | .or f g | .imp f g | .iff f g => f.names ++ g.names
  | .all x f | .ex x f => x :: f.names

theorem Term.mem_namesList {x : Ident} {ts : List Term} :
    x ∈ Term.namesList ts ↔ ∃ t ∈ ts, x ∈ t.names := by
  induction ts with
  | nil => simp [namesList]
  | cons t ts ih => simp [namesList, ih]

private theorem Term.mem_names_subst {θ : Ident → Term} {t : Term} {i : Ident}
    (h : i ∈ (t.subst θ).names) : i ∈ t.names ∨ ∃ x ∈ t.vars, i ∈ (θ x).names := by
  induction t using Term.induction with
  | var x => exact Or.inr ⟨x, by simp [vars], h⟩
  | const c => exact Or.inl h
  | app f ts ih =>
    rw [subst_app, names, List.mem_cons, mem_namesList] at h
    rcases h with rfl | ⟨u, hu, hi⟩
    · exact Or.inl (by simp [names])
    · obtain ⟨t, ht, rfl⟩ := List.mem_map.mp hu
      rcases ih t ht hi with hi | ⟨x, hx, hi⟩
      · exact Or.inl (List.mem_cons_of_mem _ (mem_namesList.mpr ⟨t, ht, hi⟩))
      · exact Or.inr ⟨x, by simpa using ⟨t, ht, hx⟩, hi⟩

theorem Atom.mem_names_subst {θ : Ident → Term} {a : Atom} {i : Ident}
    (h : i ∈ (a.subst θ).names) : i ∈ a.names ∨ ∃ x ∈ a.vars, i ∈ (θ x).names := by
  rw [names, symbol_subst, args_subst, List.mem_cons, Term.mem_namesList] at h
  rcases h with rfl | ⟨u, hu, hi⟩
  · exact Or.inl List.mem_cons_self
  · obtain ⟨t, ht, rfl⟩ := List.mem_map.mp hu
    rcases Term.mem_names_subst hi with hi | ⟨x, hx, hi⟩
    · exact Or.inl (List.mem_cons_of_mem _ (Term.mem_namesList.mpr ⟨t, ht, hi⟩))
    · exact Or.inr ⟨x, List.mem_flatMap.mpr ⟨t, ht, hx⟩, hi⟩

/-- The applications in an instance are instances of applications, or stand in what is put in. -/
theorem Term.app_mem_subterms_subst {θ : Ident → Term} {t : Term} {f : Ident} {ts : List Term}
    (h : Term.app f ts ∈ (t.subst θ).subterms) :
    f ∈ t.names ∨ ∃ x ∈ t.vars, Term.app f ts ∈ (θ x).subterms := by
  induction t using Term.induction with
  | var x => exact Or.inr ⟨x, by simp [vars], h⟩
  | const c => simp [subst, subterms] at h
  | app g us ih =>
    rw [subst_app, subterms, List.mem_cons, subtermsList_eq_flatMap] at h
    rcases h with heq | h
    · exact Or.inl (by simp [names, (Term.app.inj heq).1])
    · obtain ⟨_, hmem, h⟩ := List.mem_flatMap.mp h
      obtain ⟨u, hu, rfl⟩ := List.mem_map.mp hmem
      rcases ih u hu h with hf | ⟨x, hx, h⟩
      · exact Or.inl (List.mem_cons_of_mem _ (mem_namesList.mpr ⟨u, hu, hf⟩))
      · exact Or.inr ⟨x, by simpa using ⟨u, hu, hx⟩, h⟩

end Clausal
