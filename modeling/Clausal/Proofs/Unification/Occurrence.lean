import Clausal.Proofs.MostGeneral

/-!
# The occurs check through bindings

The occurs check looks for a variable in a term as the term is under a substitution, but it applies
nothing.  It keeps a stack of terms to look at; a bound variable makes room for the term that it is
bound to.  What has been looked at is not remembered, so a term is searched again each time it is met,
and with cyclic bindings the search may go on for ever.

Here the search is described as it goes, without a bound on the number of steps: a derivation of
`Substitution.Searches` is a search that ends.  Whatever the bindings are, a search that ends finds the
variable exactly if it is met from a variable on the stack on.  Without cycles every search ends, and
what is met is what the value of the term mentions, as long as the variable itself is unbound.

## Main definitions

- `Substitution.Searches`: the search through a stack of terms ends with an answer

## Main statements

- `Substitution.Acyclic.exists_searches`: without cycles every search ends
- `Substitution.Searches.eq_true_iff`: what the answer means
- `Substitution.Acyclic.mem_apply_iff`: what the value of a term mentions
- `occurs_check_agrees`
-/

namespace Clausal

namespace Substitution

/-! ## Section 1: The search -/

/-- The search for `x` in a stack of terms ends with an answer.  The first term is looked at next; its
    arguments take its place, the last of them in front. -/
inductive Searches (σ : Substitution) (x : Ident) : List Term → Bool → Prop
  | done : Searches σ x [] false
  | found {ts : List Term} : Searches σ x (.var x :: ts) true
  | unbound {y : Ident} {ts : List Term} {b : Bool} (hne : y ≠ x) (hy : σ.find? y = none)
      (next : Searches σ x ts b) : Searches σ x (.var y :: ts) b
  | bound {y : Ident} {u : Term} {ts : List Term} {b : Bool} (hne : y ≠ x)
      (hy : σ.find? y = some u) (next : Searches σ x (u :: ts) b) : Searches σ x (.var y :: ts) b
  | const {c : Ident} {ts : List Term} {b : Bool} (next : Searches σ x ts b) :
      Searches σ x (.const c :: ts) b
  | app {f : Ident} {as ts : List Term} {b : Bool} (next : Searches σ x (as.reverse ++ ts) b) :
      Searches σ x (.app f as :: ts) b

/-- Wherever the rest of the stack is searched to the end, it is so with this term in front. -/
def Passes (σ : Substitution) (x : Ident) (t : Term) : Prop :=
  ∀ ts, (∃ b, σ.Searches x ts b) → ∃ b, σ.Searches x (t :: ts) b

/-- The variable `x` is met when bindings are followed from a variable of the term on. -/
def Meets (σ : Substitution) (x : Ident) (t : Term) : Prop :=
  ∃ y ∈ t.vars, Relation.ReflTransGen σ.Reads y x

variable {σ : Substitution} {x y : Ident} {t u : Term} {ts : List Term} {b : Bool}

/-! ## Section 2: The search ends -/

theorem exists_searches_append {us : List Term} (hus : ∀ u ∈ us, σ.Passes x u)
    (h : ∃ b, σ.Searches x ts b) : ∃ b, σ.Searches x (us ++ ts) b := by
  induction us with
  | nil => exact h
  | cons u us ih =>
    obtain ⟨hu, hus⟩ := List.forall_mem_cons.mp hus
    exact hu _ (ih hus)

/-- A term is passed if its variables are. -/
theorem Passes.of_vars (h : ∀ y ∈ t.vars, σ.Passes x (.var y)) : σ.Passes x t := by
  induction t using Term.induction with
  | var y => exact h y (by simp [Term.vars])
  | const c =>
    rintro ts ⟨b, hb⟩
    exact ⟨b, .const hb⟩
  | app f as ih =>
    intro ts hts
    have has : ∀ a ∈ as.reverse, σ.Passes x a := by
      intro a ha
      have ha := List.mem_reverse.mp ha
      exact ih a ha fun y hy => h y (by simpa using ⟨a, ha, hy⟩)
    obtain ⟨b, hb⟩ := exists_searches_append has hts
    exact ⟨b, .app hb⟩

namespace Acyclic

private theorem passes_var (hσ : σ.Acyclic) (x y : Ident) : σ.Passes x (.var y) := by
  induction y using hσ.induction with
  | _ y ih =>
    rintro ts ⟨b, hb⟩
    by_cases hne : y = x
    · exact ⟨true, hne ▸ .found⟩
    cases hy : σ.find? y with
    | none => exact ⟨b, .unbound hne hy hb⟩
    | some u =>
      -- the variables of the bound term come later in every chain of bindings
      have hu : σ.Passes x u := .of_vars fun z hz => ih z ⟨u, hy, hz⟩
      obtain ⟨b', hb'⟩ := hu ts ⟨b, hb⟩
      exact ⟨b', .bound hne hy hb'⟩

/-- Without cycles every search ends. -/
theorem exists_searches (hσ : σ.Acyclic) (x : Ident) (ts : List Term) : ∃ b, σ.Searches x ts b := by
  have hts : ∀ t ∈ ts, σ.Passes x t := fun t _ => .of_vars fun y _ => hσ.passes_var x y
  simpa using exists_searches_append hts ⟨false, .done⟩

end Acyclic

/-! ## Section 3: What the answer means -/

theorem meets_var_iff : σ.Meets x (.var y) ↔ y = x ∨ ∃ u, σ.find? y = some u ∧ σ.Meets x u := by
  have hvar : σ.Meets x (.var y) ↔ Relation.ReflTransGen σ.Reads y x := by simp [Meets, Term.vars]
  rw [hvar, Relation.ReflTransGen.cases_head_iff]
  refine or_congr_right ⟨?_, ?_⟩
  · rintro ⟨z, ⟨u, hu, hz⟩, hzx⟩
    exact ⟨u, hu, z, hz, hzx⟩
  · rintro ⟨u, hu, z, hz, hzx⟩
    exact ⟨z, ⟨u, hu, hz⟩, hzx⟩

private theorem meets_app_iff {f : Ident} {as : List Term} :
    σ.Meets x (.app f as) ↔ ∃ a ∈ as, σ.Meets x a := by
  simp only [Meets, Term.vars_app, List.mem_flatMap]
  grind

/-- A search that ends finds the variable exactly if it is met from a term of the stack on. -/
theorem Searches.eq_true_iff (h : σ.Searches x ts b) : b = true ↔ ∃ t ∈ ts, σ.Meets x t := by
  induction h with
  | done => simp
  | found => simp [meets_var_iff]
  | unbound hne hy _ ih => simp [meets_var_iff, hne, hy, ih]
  | bound hne hy _ ih => simp [meets_var_iff, hne, hy, ih]
  | const _ ih => simp [ih, Meets, Term.vars]
  | app _ ih =>
    rw [ih, List.exists_mem_cons_iff, meets_app_iff]
    simp [or_and_right, exists_or]

/-- A search has one answer. -/
theorem Searches.unique {b' : Bool} (h : σ.Searches x ts b) (h' : σ.Searches x ts b') : b' = b :=
  Bool.eq_iff_iff.mpr (h'.eq_true_iff.trans h.eq_true_iff.symm)

/-! ## Section 4: Values -/

namespace Acyclic

/-- An unbound variable that is met stands in the value. -/
theorem mem_value_of_meets (hσ : σ.Acyclic) (hx : σ.find? x = none)
    (h : Relation.ReflTransGen σ.Reads y x) : x ∈ (σ.value y).vars := by
  induction h using Relation.ReflTransGen.head_induction_on with
  | refl => simp [value_of_unbound hx, Term.vars]
  | head hyz _ ih =>
    obtain ⟨u, hu, hz⟩ := hyz
    rw [hσ.value_of_bound hu]
    exact Term.mem_vars_subst.mpr ⟨_, hz, ih⟩

/-- The value of a term mentions the unbound variables that are met from it on. -/
theorem mem_apply_iff (hσ : σ.Acyclic) (hx : σ.find? x = none) :
    x ∈ (σ.apply t).vars ↔ σ.Meets x t := by
  rw [apply, Term.mem_vars_subst]
  refine exists_congr fun y => and_congr_right fun _ => ?_
  exact ⟨hσ.meets_of_mem_value, hσ.mem_value_of_meets hx⟩

end Acyclic

end Substitution

private theorem Bindings.reaches_ofSubstitution (σ : Substitution) (x : Ident) (t : Term) :
    (ofSubstitution σ).reaches (.term (.var x)) (.term t) = .ok (σ.reaches x t) := by
  unfold reaches
  rw [plain?_ofSubstitution]

/-- For bindings without cycles and a variable that they do not bind, the occurs check in any term
    ends.  There is no second answer, this one is what `Bindings.reaches` computes, and it says whether
    the variable is among those of the term after the bindings have been applied. -/
theorem occurs_check_agrees (σ : Substitution) (hσ : σ.Acyclic) (x : Ident)
    (hx : σ.isBound x = false) (t : Term) :
    ∃ b, σ.Searches x [t] b ∧ (∀ b', σ.Searches x [t] b' → b' = b) ∧
      (Bindings.ofSubstitution σ).reaches (.term (.var x)) (.term t) = .ok b ∧
      (Bindings.ofSubstitution σ).apply (.term t) = .ok (.term (σ.apply t)) ∧
      (b = true ↔ x ∈ (σ.apply t).vars) := by
  have hunbound : σ.find? x = none := by simpa [Substitution.isBound] using hx
  obtain ⟨b, hb⟩ := hσ.exists_searches x [t]
  have hmeets : b = true ↔ σ.Meets x t := by simpa using hb.eq_true_iff
  -- both searches find what is met from the term on, so the bounded one has the same answer
  have hreaches : σ.reaches x t = b := Bool.eq_iff_iff.mpr (hσ.reaches_iff.trans hmeets.symm)
  refine ⟨b, hb, fun _ => hb.unique, ?_, ?_, ?_⟩
  · rw [Bindings.reaches_ofSubstitution, hreaches]
  · exact Bindings.apply_ofSubstitution σ (.term t)
  · rw [hmeets, hσ.mem_apply_iff hunbound]

/-- With `X` bound to `f(Y, Y)` and `Y` to `f(Z, Z)`, the variable `Z` occurs in `g(X)` and `W` does
    not.  The search for `W` comes to `Z` four times. -/
theorem occurs_check_agrees_doubled :
    let X := Ident.num 0
    let Y := Ident.num 1
    let Z := Ident.num 2
    let W := Ident.num 3
    let f (t : Term) := Term.app (.num 4) [t, t]
    let σ := (Substitution.empty.insert X (f (.var Y))).insert Y (f (.var Z))
    let t := Term.app (.num 5) [.var X]
    σ.Acyclic ∧ σ.isBound Z = false ∧ σ.isBound W = false ∧
      σ.apply t = .app (.num 5) [f (f (.var Z))] ∧
      σ.Searches Z [t] true ∧ σ.Searches W [t] false := by
  intro X Y Z W f σ t
  have hσ : σ.Acyclic := by
    refine (Substitution.acyclic_empty.insert (fun _ _ => rfl) ?_).insert ?_ ?_
    · decide
    · decide
    · decide
  have happly : σ.apply t = .app (.num 5) [f (f (.var Z))] := by decide
  refine ⟨hσ, by decide, by decide, happly, ?_, ?_⟩
  · obtain ⟨b, hb, -, -, -, hiff⟩ := occurs_check_agrees σ hσ Z (by decide) t
    have htrue : b = true := hiff.mpr (by rw [happly]; decide)
    exact htrue ▸ hb
  · obtain ⟨b, hb, -, -, -, hiff⟩ := occurs_check_agrees σ hσ W (by decide) t
    have hfalse : b = false := by
      rw [Bool.eq_false_iff, ne_eq, hiff, happly]
      decide
    exact hfalse ▸ hb

end Clausal
