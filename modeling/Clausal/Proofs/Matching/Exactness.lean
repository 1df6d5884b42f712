import Clausal.Proofs.Matching
import Clausal.Proofs.MostGeneral

/-!
# Matching is exact

Matching binds the variables of a generalisation to parts of an instance, whose own variables are
constants to it.  So a variable may well be bound to a term in which it occurs itself, or two
variables to each other, and the bindings say what stands *directly* for a variable; following them
further would be wrong.

Everything that matching does is read off from the replacements that agree with its result: these
are the ones that agree with the given bindings and make the instance of the generalisation, with
the sides of an equation in one of the two orders.  A variable is bound if they leave no choice for
it.

## Main definitions

- `Substitution.direct`: what stands for a variable if bindings are not followed
- `Substitution.Extends`: one substitution has the bindings of another
- `Expression.match?`: matching of terms, atoms and literals

## Main statements

- `Substitution.mem_domain_iff`: the bound variables are those that the bindings determine
- `Expression.exists_orientation_of_match?`, `Expression.match?_ne_none`
- `match_exact`
-/

namespace Clausal

/-! ## Section 1: What bindings determine -/

namespace Substitution

variable {σ τ : Substitution} {ρ : Ident → Term} {x : Ident}

/-- What stands for a variable if bindings are not followed: the term that it is bound to, or the
    variable itself. -/
def direct (σ : Substitution) (x : Ident) : Term :=
  (σ.find? x).getD (.var x)

/-- The bindings of `σ` are among those of `τ`. -/
def Extends (τ σ : Substitution) : Prop :=
  ∀ x t, σ.find? x = some t → τ.find? x = some t

theorem agrees_direct (σ : Substitution) : σ.Agrees σ.direct :=
  fun x t hx => by simp [direct, hx]

private theorem Extends.agrees_direct (h : τ.Extends σ) : σ.Agrees τ.direct :=
  fun x t hx => τ.agrees_direct x t (h x t hx)

/-- What stands for an unbound variable may be changed. -/
theorem Agrees.update (h : σ.Agrees ρ) (hx : x ∉ σ.domain) (t : Term) :
    σ.Agrees (Function.update ρ x t) := by
  intro y u hy
  have hyx : y ≠ x := fun heq => hx (heq ▸ mem_domain_of_find? hy)
  rw [Function.update_of_ne hyx]
  exact h y u hy

/-- A variable is not determined if any term may stand for it. -/
theorem not_determined {P : (Ident → Term) → Prop} (h : ∀ t, P (Function.update ρ x t)) :
    ¬ ∃ t, ∀ υ, P υ → υ x = t := by
  rintro ⟨t, ht⟩
  have hvar := ht _ (h (.var .null))
  have hconst := ht _ (h (.const .null))
  rw [Function.update_self] at hvar hconst
  exact Term.noConfusion (hvar.trans hconst.symm)

/-- The bound variables are those that the bindings determine. -/
theorem mem_domain_iff : x ∈ σ.domain ↔ ∃ t, ∀ ρ, σ.Agrees ρ → ρ x = t := by
  constructor
  · intro hx
    cases hf : σ.find? x with
    | none => exact absurd hx (find?_eq_none_iff.mp hf)
    | some t => exact ⟨t, fun ρ hρ => hρ x t hf⟩
  · intro h
    by_contra hx
    exact not_determined (fun t => σ.agrees_direct.update hx t) h

/-- Bindings that say more have more bindings. -/
theorem extends_of_agrees (h : ∀ ρ, τ.Agrees ρ → σ.Agrees ρ) : τ.Extends σ := by
  intro x t hx
  have hmem : x ∈ τ.domain :=
    mem_domain_iff.mpr ⟨t, fun ρ hρ => h ρ hρ x t hx⟩
  cases hf : τ.find? x with
  | none => exact absurd hmem (find?_eq_none_iff.mp hf)
  | some u => rw [← h _ τ.agrees_direct x t hx, τ.agrees_direct x u hf]

end Substitution

/-! ## Section 2: Atoms -/

namespace Atom

variable {σ τ : Substitution} {ρ : Ident → Term} {a b : Atom}

/-- A proper atom becomes another one with its symbol exactly if its arguments do. -/
theorem subst_eq_iff_args (ha : a.Proper) (hb : b.Proper) (hsymbol : a.symbol = b.symbol) :
    a.subst ρ = b ↔ a.args.map (Term.subst ρ) = b.args := by
  have hkind := isEq_eq_of_proper ha hb hsymbol
  cases a with
  | pred p ts =>
    cases b with
    | pred q us =>
      obtain rfl : p = q := hsymbol
      simp [subst, args]
    | eq l r => cases hkind
  | eq l r =>
    cases b with
    | pred q us => cases hkind
    | eq l' r' => simp [subst, args]

/-- A match of two atoms says no more than that the first becomes the second with its sides in one
    of the two orders. -/
theorem exists_orientation_of_match? (ha : a.Proper) (hb : b.Proper) (h : a.match? σ b = some τ) :
    ∃ c, (c = b ∨ c = b.mirror) ∧ ∀ ρ, τ.Agrees ρ ↔ σ.Agrees ρ ∧ a.subst ρ = c := by
  unfold match? at h
  split at h
  next hab =>
    obtain ⟨hsymbol, hlen⟩ := hab
    split at h
    next υ hυ =>
      obtain rfl := Option.some.inj h
      refine ⟨b, Or.inl rfl, fun ρ => ?_⟩
      rw [Term.agrees_of_matchList? (fun t _ => Term.agrees_of_match?) hlen hυ,
        subst_eq_iff_args ha hb hsymbol]
    next =>
      split at h
      next heq =>
        have hbeq : b.isEq = true := (isEq_eq_of_proper ha hb hsymbol).symm.trans heq
        rw [← args_mirror hbeq] at h
        have hlen' : a.args.length = b.mirror.args.length := by
          rw [args_mirror hbeq, List.length_reverse, hlen]
        refine ⟨b.mirror, Or.inr rfl, fun ρ => ?_⟩
        rw [Term.agrees_of_matchList? (fun t _ => Term.agrees_of_match?) hlen' h,
          subst_eq_iff_args ha (proper_mirror hb) (hsymbol.trans (symbol_mirror b).symm)]
      next => cases h
  next => cases h

/-- An atom that becomes another one is matched with it. -/
theorem MapsTo.match?_ne_none (h : a.MapsTo ρ b) (hσ : σ.Agrees ρ) : a.match? σ b ≠ none := by
  obtain ⟨hsymbol, hargs⟩ := h
  have hlen : a.args.length = b.args.length := by
    rcases hargs with hargs | ⟨-, hargs⟩ <;> simpa using congrArg List.length hargs
  obtain ⟨τ, hτ⟩ : ∃ τ, Term.matchList? σ a.args (a.args.map (Term.subst ρ)) = some τ :=
    Term.exists_matchList? (fun t _ _ hσ => Term.exists_match? hσ t) hσ
  rw [match?, if_pos ⟨hsymbol, hlen⟩]
  rcases hargs with hargs | ⟨heq, hargs⟩ <;> rw [hargs] at hτ
  · simp [hτ]
  · split
    next => simp
    next => simp [heq, hτ]

/-- An atom whose instance is equal to another one becomes that one. -/
theorem mapsTo_of_beq (h : (a.subst ρ == b) = true) : a.MapsTo ρ b := by
  rcases beq_iff.mp h with rfl | ⟨l, r, hl, rfl⟩
  · exact ⟨(symbol_subst ρ a).symm, Or.inl (args_subst ρ a).symm⟩
  · refine ⟨?_, Or.inr ⟨?_, ?_⟩⟩
    · rw [← symbol_subst ρ a, hl]
      rfl
    · rw [← isEq_subst ρ a, hl]
      rfl
    · rw [← args_subst, hl]
      rfl

end Atom

/-! ## Section 3: Expressions of any kind -/

namespace Expression

variable {σ τ : Substitution} {ρ υ : Ident → Term} {g i : Expression}

/-- The variables of an expression from left to right, with repetitions. -/
def vars : Expression → List Ident
  | .term t => t.vars
  | .atom a => a.vars
  | .literal l => l.vars

/-- Extend bindings so that the generalisation becomes the given expression; the two have to be of
    one kind. -/
def match? (σ : Substitution) : Expression → Expression → Option Substitution
  | .term s, .term t => s.match? σ t
  | .atom a, .atom b => a.match? σ b
  | .literal l, .literal m => l.match? σ m
  | _, _ => none

/-- Instances are equal exactly if the variables are replaced by the same terms. -/
theorem subst_eq_subst_iff : g.subst ρ = g.subst υ ↔ ∀ x ∈ g.vars, ρ x = υ x := by
  cases g with
  | term t => simpa [subst, vars] using Term.subst_eq_subst_iff
  | atom a => simpa [subst, vars] using Atom.subst_eq_subst_iff
  | literal l => simpa [subst, vars] using Literal.subst_eq_subst_iff

/-- A match says no more than that the generalisation becomes the given expression, with the sides
    of an equation in one of the two orders. -/
theorem exists_orientation_of_match? (hg : g.Proper) (hi : i.Proper) (h : g.match? σ i = some τ) :
    ∃ c, (c = i ∨ c = i.mirror) ∧ ∀ ρ, τ.Agrees ρ ↔ σ.Agrees ρ ∧ g.subst ρ = c := by
  cases g <;> cases i
  case term.term s t =>
    refine ⟨.term t, Or.inl rfl, fun ρ => ?_⟩
    simpa [subst] using Term.agrees_of_match? h
  case atom.atom a b =>
    obtain ⟨c, hc, hagrees⟩ := Atom.exists_orientation_of_match? hg hi h
    refine ⟨.atom c, by simpa [mirror] using hc, fun ρ => ?_⟩
    simpa [subst] using hagrees ρ
  case literal.literal l m =>
    have h : l.match? σ m = some τ := h
    unfold Literal.match? at h
    split at h
    next hsign =>
      obtain ⟨c, hc, hagrees⟩ := Atom.exists_orientation_of_match? hg hi h
      refine ⟨.literal ⟨m.positive, c⟩, ?_, fun ρ => ?_⟩
      · rcases hc with rfl | rfl
        · exact Or.inl rfl
        · exact Or.inr rfl
      · simpa [subst, Literal.subst, hsign] using hagrees ρ
    next => cases h
  all_goals cases h

/-- An expression is matched with every expression that its instance is equal to. -/
theorem match?_ne_none (hσ : σ.Agrees ρ) (h : ((g.subst ρ).node == i.node) = true) :
    g.match? σ i ≠ none := by
  cases g <;> cases i
  case term.term s t =>
    obtain rfl : s.subst ρ = t := of_decide_eq_true h
    obtain ⟨τ, hτ⟩ := Term.exists_match? hσ s
    simp [match?, hτ]
  case atom.atom a b => exact (Atom.mapsTo_of_beq h).match?_ne_none hσ
  case literal.literal l m =>
    obtain ⟨hatom, hsign⟩ := Literal.beq_iff.mp (show (l.subst ρ == m) = true from h)
    have hsign : l.positive = m.positive := hsign
    rw [match?, Literal.match?, if_pos hsign]
    exact (Atom.mapsTo_of_beq hatom).match?_ne_none hσ
  -- expressions of different kinds are never equal
  all_goals cases h

/-- Matching binds the variables of the generalisation and no others. -/
theorem mem_domain_of_agrees {c : Expression}
    (h : ∀ ρ, τ.Agrees ρ ↔ σ.Agrees ρ ∧ g.subst ρ = c) {x : Ident} :
    x ∈ τ.domain ↔ x ∈ σ.domain ∨ x ∈ g.vars := by
  rw [Substitution.mem_domain_iff]
  constructor
  · intro hdetermined
    by_contra hnot
    obtain ⟨hxσ, hxg⟩ := not_or.mp hnot
    obtain ⟨hσ, hc⟩ := (h _).mp τ.agrees_direct
    refine Substitution.not_determined (fun t => (h _).mpr ⟨hσ.update hxσ t, ?_⟩) hdetermined
    -- a variable that does not occur may be replaced by anything
    rw [← hc]
    refine subst_eq_subst_iff.mpr fun y hy => Function.update_of_ne ?_ _ _
    rintro rfl
    exact hxg hy
  · rintro (hx | hx)
    · obtain ⟨t, ht⟩ := Substitution.mem_domain_iff.mp hx
      exact ⟨t, fun ρ hρ => ht ρ ((h ρ).mp hρ).1⟩
    · refine ⟨τ.direct x, fun ρ hρ => ?_⟩
      exact subst_eq_subst_iff.mp (((h ρ).mp hρ).2.trans ((h _).mp τ.agrees_direct).2.symm) x hx

end Expression

/-- Bindings that are a substitution are extended as substitutions are. -/
theorem Bindings.match?_ofSubstitution (σ : Substitution) (g i : Expression) :
    (ofSubstitution σ).match? g.node i.node = (g.match? σ i).map ofSubstitution := by
  unfold match?
  rw [plain?_ofSubstitution]
  cases g <;> cases i <;> rfl

/-- Matching extends the given bindings by bindings for exactly the variables of the generalisation,
    and if each of these is replaced once by what it is bound to, the generalisation becomes the
    instance.  It fails exactly if no extension of the bindings does that. -/
theorem match_exact (σ : Substitution) (g i : Expression) (hg : g.Proper) (hi : i.Proper) :
    (∀ β, (Bindings.ofSubstitution σ).match? g.node i.node = some β → ∃ τ,
      β = .ofSubstitution τ ∧ τ.Extends σ ∧ (∀ x, x ∈ τ.domain ↔ x ∈ σ.domain ∨ x ∈ g.vars) ∧
      ((g.subst τ.direct).node == i.node) = true) ∧
    ((Bindings.ofSubstitution σ).match? g.node i.node = none ↔
      ¬ ∃ τ : Substitution, τ.Extends σ ∧ ((g.subst τ.direct).node == i.node) = true) := by
  rw [Bindings.match?_ofSubstitution]
  have hsome : ∀ τ, g.match? σ i = some τ → τ.Extends σ ∧
      (∀ x, x ∈ τ.domain ↔ x ∈ σ.domain ∨ x ∈ g.vars) ∧
      ((g.subst τ.direct).node == i.node) = true := by
    intro τ hτ
    obtain ⟨c, hc, hagrees⟩ := Expression.exists_orientation_of_match? hg hi hτ
    refine ⟨Substitution.extends_of_agrees fun ρ hρ => ((hagrees ρ).mp hρ).1,
      fun x => Expression.mem_domain_of_agrees hagrees, Expression.beq_node_iff.mpr ?_⟩
    rw [((hagrees _).mp τ.agrees_direct).2]
    exact hc
  constructor
  · intro β hβ
    obtain ⟨τ, hτ, rfl⟩ := Option.map_eq_some_iff.mp hβ
    exact ⟨τ, rfl, hsome τ hτ⟩
  · rw [Option.map_eq_none_iff]
    constructor
    · rintro hnone ⟨τ, hext, heq⟩
      exact Expression.match?_ne_none hext.agrees_direct heq hnone
    · intro hnot
      cases hτ : g.match? σ i with
      | none => rfl
      | some τ => exact absurd ⟨τ, (hsome τ hτ).1, (hsome τ hτ).2.2⟩ hnot

/-- The equation `X = f(Y)` is matched with `f(X) = Y`, while a third variable is bound to `X`.  The
    sides have to be turned round, and then `X` and `Y` are bound to each other. -/
theorem match_exact_exchange :
    let x := Term.var (.num 0)
    let y := Term.var (.num 1)
    let f := fun t => Term.app (.num 2) [t]
    let σ := Substitution.empty.insert (.num 3) x
    let g := Expression.atom (.eq x (f y))
    let i := Expression.atom (.eq (f x) y)
    ∃ τ, (Bindings.ofSubstitution σ).match? g.node i.node = some (.ofSubstitution τ) ∧
      τ.Extends σ ∧ (∀ z, z ∈ τ.domain ↔ z ∈ σ.domain ∨ z ∈ g.vars) ∧
      ((g.subst τ.direct).node == i.node) = true := by
  intro x y f σ g i
  obtain ⟨hsome, -⟩ := match_exact σ g i trivial trivial
  cases h : (Bindings.ofSubstitution σ).match? g.node i.node with
  | none => exact absurd h (by decide)
  | some β =>
    obtain ⟨τ, rfl, hτ⟩ := hsome β h
    exact ⟨τ, rfl, hτ⟩

end Clausal
