import Clausal.Proofs.Unification.Recursion
import Mathlib.Data.Prod.Lex

/-!
# Unification ends

Nothing that a call of unification looks at gets smaller by structure alone.  What drops from call
to call is, in this order, the number of variables that are still unbound, the size of the values of
the two terms, and the length of the chains of bindings in front of them.  The measure makes sense
because bindings without cycles stay so: a variable is bound only to a value in which it does not
occur.

## Main definitions

- `Substitution.unboundIn`, `Substitution.valueSize`, `Substitution.chain`: the parts of the measure
- `Substitution.weight`: the measure
- `Atom.Returns`, `Expression.Returns`: the recursion, from expressions of any kind on

## Main statements

- `Unification.progress`: a run leaves the bindings alone or binds a variable
- `UnifyCall.exists_returns_terms`, `UnifyCall.exists_returns_lists`: every call has a derivation,
  and no cycle comes up in it
- `unification_terminates`
-/

namespace Clausal

/-! ## Section 1: The measure -/

namespace Substitution

/-- The number of the given variables that are unbound. -/
def unboundIn (V : Finset Ident) (σ : Substitution) : Nat :=
  (V.filter fun x => (σ.find? x).isNone).card

/-- The number of symbols in the values of two terms. -/
def valueSize (σ : Substitution) (s t : Term) : Nat :=
  (σ.apply s).symbols + (σ.apply t).symbols

/-- A bound on the number of bindings that are looked through before the symbol of a term is met. -/
noncomputable def chain (σ : Substitution) : Term → Nat
  | .var x => σ.rank x + 1
  | _ => 0

/-- What drops from call to call. -/
noncomputable def weight (V : Finset Ident) (σ : Substitution) (s t : Term) : ℕ ×ₗ ℕ ×ₗ ℕ :=
  toLex (σ.unboundIn V, toLex (σ.valueSize s t, σ.chain s + σ.chain t))

variable {V : Finset Ident} {σ τ : Substitution} {x : Ident} {a b s t u : Term}

theorem weight_comm : σ.weight V s t = σ.weight V t s := by
  unfold weight valueSize
  rw [Nat.add_comm (σ.apply s).symbols, Nat.add_comm (σ.chain s)]

private theorem weight_lt_of_unboundIn (h : τ.unboundIn V < σ.unboundIn V) :
    τ.weight V a b < σ.weight V s t :=
  Prod.Lex.toLex_lt_toLex.mpr (Or.inl h)

private theorem weight_lt_of_valueSize (h : σ.valueSize a b < σ.valueSize s t) :
    σ.weight V a b < σ.weight V s t :=
  Prod.Lex.toLex_lt_toLex.mpr (Or.inr ⟨rfl, Prod.Lex.toLex_lt_toLex.mpr (Or.inl h)⟩)

/-- Looking through the binding of a variable in front keeps the values and shortens the chain. -/
theorem weight_lt_of_find? (hσ : σ.Acyclic) (hx : σ.find? x = some u) :
    σ.weight V u t < σ.weight V (.var x) t := by
  have hvalue : σ.valueSize u t = σ.valueSize (.var x) t := by
    unfold valueSize
    rw [apply_var, hσ.value_of_bound hx]
  have hchain : σ.chain u < σ.chain (.var x) := by
    cases u with
    | var y => exact Nat.succ_lt_succ (hσ.rank_lt ⟨_, hx, List.mem_singleton_self y⟩)
    | const c => exact Nat.succ_pos _
    | app f ts => exact Nat.succ_pos _
  refine Prod.Lex.toLex_lt_toLex.mpr (Or.inr ⟨rfl, ?_⟩)
  refine Prod.Lex.toLex_lt_toLex.mpr (Or.inr ⟨hvalue, ?_⟩)
  exact Nat.add_lt_add_right hchain _

/-- From applications to their arguments the values get smaller. -/
theorem weight_lt_of_mem_zip {f : Ident} {as bs : List Term} {e : Term × Term}
    (he : e ∈ as.zip bs) : σ.weight V e.1 e.2 < σ.weight V (.app f as) (.app f bs) := by
  obtain ⟨ha, hb⟩ := List.of_mem_zip he
  have smaller {ts : List Term} {t : Term} (ht : t ∈ ts) :
      (σ.apply t).symbols < (σ.apply (.app f ts)).symbols := by
    unfold apply
    rw [Term.subst_app]
    exact Term.symbols_lt_of_mem (List.mem_map_of_mem ht)
  exact weight_lt_of_valueSize (Nat.add_lt_add (smaller ha) (smaller hb))

/-- Binding a variable leaves fewer unbound. -/
theorem unboundIn_insert_lt (hV : x ∈ V) (hx : σ.find? x = none) :
    (σ.insert x u).unboundIn V < σ.unboundIn V := by
  refine Finset.card_lt_card ((Finset.ssubset_iff_of_subset fun y hy => ?_).mpr ⟨x, ?_, ?_⟩)
  · obtain ⟨hy, hnone⟩ := Finset.mem_filter.mp hy
    refine Finset.mem_filter.mpr ⟨hy, ?_⟩
    rw [find?_insert] at hnone
    split at hnone
    next => cases hnone
    next => exact hnone
  · exact Finset.mem_filter.mpr ⟨hV, by rw [hx]; rfl⟩
  · simp [find?_insert]

end Substitution

/-- A run leaves the bindings alone or binds a variable. -/
theorem Unification.progress {V : Finset Ident} {σ τ : Substitution} {es : List (Term × Term)}
    (h : Unification σ es τ) (hσ : σ.Acyclic) (hV : σ.Over (· ∈ V))
    (hes : ∀ e ∈ es, (∀ y ∈ e.1.vars, y ∈ V) ∧ ∀ y ∈ e.2.vars, y ∈ V) :
    τ = σ ∨ τ.unboundIn V < σ.unboundIn V := by
  induction h with
  | nil => exact Or.inl rfl
  | same _ _ ih => exact ih hσ hV fun e he => hes e (List.mem_cons_of_mem _ he)
  | @bind σ ρ τ s t x es hs h _ ih =>
    obtain ⟨hes, hrest⟩ := List.forall_mem_cons.mp hes
    have hx : x ∈ V := hV.walk hes.1 x (by simp [hs, Term.vars])
    have hlt : ρ.unboundIn V < σ.unboundIn V := by
      obtain ⟨-, rfl⟩ := Substitution.bindValue?_eq_some.mp h
      exact Substitution.unboundIn_insert_lt hx (hσ.unbound_of_walk hs)
    rcases ih (hσ.bindValue? h) (hV.bindValue? hσ hx (hV.walk hes.2) h) hrest with rfl | hlt'
    · exact Or.inr hlt
    · exact Or.inr (Nat.lt_trans hlt' hlt)
  | @args σ τ s t f as bs es hs ht _ _ ih =>
    obtain ⟨hes, hrest⟩ := List.forall_mem_cons.mp hes
    have has := hV.walk hes.1
    have hbs := hV.walk hes.2
    simp only [hs, ht, Term.vars_app, List.mem_flatMap, forall_exists_index, and_imp] at has hbs
    refine ih hσ hV (List.forall_mem_append.mpr ⟨fun e he => ?_, hrest⟩)
    obtain ⟨ha, hb⟩ := List.of_mem_zip he
    exact ⟨fun y => has y _ ha, fun y => hbs y _ hb⟩
  | swap _ ih =>
    obtain ⟨hes, hrest⟩ := List.forall_mem_cons.mp hes
    exact ih hσ hV (List.forall_mem_cons.mpr ⟨hes.symm, hrest⟩)

/-! ## Section 2: Terms -/

/-- Bindings without cycles and two terms, with all their variables among the given ones. -/
structure Prepared (V : Finset Ident) (σ : Substitution) (s t : Term) : Prop where
  acyclic : σ.Acyclic
  known : σ.Over (· ∈ V)
  fst : ∀ x ∈ s.vars, x ∈ V
  snd : ∀ x ∈ t.vars, x ∈ V

theorem Prepared.symm {V : Finset Ident} {σ : Substitution} {s t : Term} (h : Prepared V σ s t) :
    Prepared V σ t s :=
  ⟨h.acyclic, h.known, h.snd, h.fst⟩

namespace UnifyCall

variable {V : Finset Ident} {σ τ : Substitution} {x : Ident} {s t : Term} {as bs : List Term}

/-- What a call for two terms leaves behind is again prepared, and the same or with fewer unbound
    variables. -/
theorem Returns.prepared (h : (terms s t).Returns Substitution.Acyclic σ (some τ))
    (hprep : Prepared V σ s t) :
    τ.Acyclic ∧ τ.Over (· ∈ V) ∧ (τ = σ ∨ τ.unboundIn V < σ.unboundIn V) := by
  obtain ⟨n, hn⟩ := h.answers hprep.acyclic
  have hrun : Unification σ [(s, t)] τ := unification_of_unifyTerm hn (.nil τ)
  have hes : ∀ e ∈ [(s, t)], (∀ y ∈ e.1.vars, y ∈ V) ∧ ∀ y ∈ e.2.vars, y ∈ V :=
    List.forall_mem_singleton.mpr ⟨hprep.fst, hprep.snd⟩
  exact ⟨hrun.acyclic hprep.acyclic, hrun.over_result hprep.acyclic hprep.known hes,
    hrun.progress hprep.acyclic hprep.known hes⟩

/-- Two lists have a derivation if their terms have one in pairs, from the bindings at the beginning
    and from all bindings with fewer unbound variables. -/
theorem exists_returns_of_pairs (hlen : as.length = bs.length) (hσ : σ.Acyclic)
    (hV : σ.Over (· ∈ V))
    (hes : ∀ e ∈ as.zip bs, (∀ x ∈ e.1.vars, x ∈ V) ∧ ∀ x ∈ e.2.vars, x ∈ V)
    (hpairs : ∀ ρ, ρ = σ ∨ ρ.unboundIn V < σ.unboundIn V → ∀ e ∈ as.zip bs,
      Prepared V ρ e.1 e.2 → ∃ r, (terms e.1 e.2).Returns Substitution.Acyclic ρ r) :
    ∃ r, (lists as bs).Returns Substitution.Acyclic σ r := by
  induction as generalizing σ bs with
  | nil =>
    cases bs with
    | nil => exact ⟨_, .nil hσ⟩
    | cons b bs => simp at hlen
  | cons a as ih =>
    cases bs with
    | nil => simp at hlen
    | cons b bs =>
      obtain ⟨⟨ha, hb⟩, hrest⟩ := List.forall_mem_cons.mp hes
      have hprep : Prepared V σ a b := ⟨hσ, hV, ha, hb⟩
      obtain ⟨r, hr⟩ := hpairs σ (Or.inl rfl) (a, b) List.mem_cons_self hprep
      cases r with
      | none => exact ⟨none, .stop hr⟩
      | some τ =>
        obtain ⟨hτ, hover, hless⟩ := hr.prepared hprep
        -- the other pairs start from `τ`, which is `σ` or has fewer unbound variables than `σ`
        obtain ⟨r, htail⟩ := ih (Nat.succ.inj hlen) hτ hover hrest fun ρ hρ e he =>
          hpairs ρ (by grind) e (List.mem_cons_of_mem _ he)
        exact ⟨r, .cons hr htail⟩

private theorem exists_returns_of_open (hσ : σ.Acyclic) (hopen : σ.Open x t) :
    ∃ r, (terms (.var x) t).Returns Substitution.Acyclic σ r := by
  have hresolves := hσ.resolves_iff.mpr (rfl : σ.apply t = σ.apply t)
  by_cases hself : σ.apply t = .var x
  · exact ⟨_, .resolved hσ hopen (hself ▸ hresolves)⟩
  by_cases hx : x ∈ (σ.apply t).vars
  · exact ⟨_, .occurs hσ hopen hresolves hself hx⟩
  · exact ⟨_, .bind hσ hopen hresolves hx (hσ.insert (fun _ => hσ.unbound_of_mem_apply) hx)⟩

/-- A variable and a term have a derivation if all lighter pairs have one. -/
theorem exists_returns_var (hprep : Prepared V σ (.var x) t)
    (ih : ∀ a b, σ.weight V a b < σ.weight V (.var x) t → Prepared V σ a b →
      ∃ r, (terms a b).Returns Substitution.Acyclic σ r) :
    ∃ r, (terms (.var x) t).Returns Substitution.Acyclic σ r := by
  have hσ := hprep.acyclic
  by_cases hne : t = .var x
  · subst hne
    exact ⟨_, .same hσ⟩
  cases hx : σ.find? x with
  | some u =>
    have hu : Prepared V σ u t := ⟨hσ, hprep.known, (hprep.known x u hx).2, hprep.snd⟩
    obtain ⟨r, hr⟩ := ih u t (Substitution.weight_lt_of_find? hσ hx) hu
    exact ⟨r, .first hσ hne hx hr⟩
  | none =>
    cases t with
    | var y =>
      cases hy : σ.find? y with
      | some u =>
        have hu : Prepared V σ (.var x) u := ⟨hσ, hprep.known, hprep.fst, (hprep.known y u hy).2⟩
        have hlt : σ.weight V (.var x) u < σ.weight V (.var x) (.var y) := by
          rw [Substitution.weight_comm, Substitution.weight_comm (s := .var x)]
          exact Substitution.weight_lt_of_find? hσ hy
        obtain ⟨r, hr⟩ := ih (.var x) u hlt hu
        exact ⟨r, .second hσ (fun h => hne (congrArg Term.var h)) hx hy hr⟩
      | none =>
        refine exists_returns_of_open hσ ⟨hne, hx, fun z hz => ?_⟩
        exact Term.var.inj hz ▸ hy
    | const c => exact exists_returns_of_open hσ ⟨hne, hx, fun z hz => by cases hz⟩
    | app f ts => exact exists_returns_of_open hσ ⟨hne, hx, fun z hz => by cases hz⟩

/-- Every call for two terms has a derivation, by induction on the weight. -/
theorem exists_returns_terms (h : Prepared V σ s t) :
    ∃ r, (terms s t).Returns Substitution.Acyclic σ r := by
  induction hw : σ.weight V s t using WellFoundedLT.induction generalizing σ s t with
  | _ w ih =>
    subst hw
    have hσ := h.acyclic
    cases s with
    | var x => exact exists_returns_var h fun a b hlt hab => ih _ hlt hab rfl
    | const c =>
      cases t with
      | var y =>
        -- a variable on the right is taken first, which leaves the weight as it is
        obtain ⟨r, hr⟩ := exists_returns_var h.symm fun a b hlt hab =>
          ih _ (Substitution.weight_comm (s := .const c) ▸ hlt) hab rfl
        exact ⟨r, .turn rfl hr⟩
      | const d =>
        by_cases hcd : c = d
        · subst hcd
          exact ⟨_, .const hσ⟩
        · exact ⟨none, .clash hσ hcd⟩
      | app g bs => exact ⟨none, .clash hσ trivial⟩
    | app f as =>
      cases t with
      | var y =>
        obtain ⟨r, hr⟩ := exists_returns_var h.symm fun a b hlt hab =>
          ih _ (Substitution.weight_comm (s := .app f as) ▸ hlt) hab rfl
        exact ⟨r, .turn rfl hr⟩
      | const d => exact ⟨none, .clash hσ trivial⟩
      | app g bs =>
        by_cases hfg : f = g ∧ as.length = bs.length
        · obtain ⟨rfl, hlen⟩ := hfg
          have hes : ∀ e ∈ as.zip bs, (∀ x ∈ e.1.vars, x ∈ V) ∧ ∀ x ∈ e.2.vars, x ∈ V := by
            intro e he
            obtain ⟨ha, hb⟩ := List.of_mem_zip he
            exact ⟨fun x hx => h.fst x (by simpa using ⟨_, ha, hx⟩),
              fun x hx => h.snd x (by simpa using ⟨_, hb, hx⟩)⟩
          obtain ⟨r, hr⟩ := exists_returns_of_pairs hlen hσ h.known hes fun ρ hρ e he hab => by
            -- nothing bound yet: the arguments have smaller values; otherwise the first part drops,
            -- and the values may have grown
            rcases hρ with rfl | hless
            · exact ih _ (Substitution.weight_lt_of_mem_zip he) hab rfl
            · exact ih _ (Substitution.weight_lt_of_unboundIn hless) hab rfl
          exact ⟨r, .app hlen hr⟩
        · exact ⟨none, .clash hσ hfg⟩

end UnifyCall

/-- The variables of bindings and of some terms. -/
def Substitution.varsWith (σ : Substitution) (ts : List Term) : Finset Ident :=
  (σ.bindings.flatMap (fun b => b.1 :: b.2.vars) ++ ts.flatMap Term.vars).toFinset

theorem Substitution.over_varsWith (σ : Substitution) (ts : List Term) :
    σ.Over (· ∈ σ.varsWith ts) := by
  intro x t hx
  have hmem := mem_bindings_of_find? hx
  have hvar : ∀ y ∈ x :: t.vars, y ∈ σ.varsWith ts := by
    intro y hy
    exact List.mem_toFinset.mpr (List.mem_append_left _ (List.mem_flatMap.mpr ⟨_, hmem, hy⟩))
  exact List.forall_mem_cons.mp hvar

theorem Substitution.mem_varsWith (σ : Substitution) {ts : List Term} {t : Term} (ht : t ∈ ts) :
    ∀ x ∈ t.vars, x ∈ σ.varsWith ts := by
  intro x hx
  exact List.mem_toFinset.mpr (List.mem_append_right _ (List.mem_flatMap.mpr ⟨t, ht, hx⟩))

namespace UnifyCall

variable {σ : Substitution}

private theorem exists_returns (hσ : σ.Acyclic) (s t : Term) :
    ∃ r, (terms s t).Returns Substitution.Acyclic σ r :=
  exists_returns_terms ⟨hσ, σ.over_varsWith [s, t], σ.mem_varsWith (by simp),
    σ.mem_varsWith (by simp)⟩

theorem exists_returns_lists (hσ : σ.Acyclic) {as bs : List Term} (hlen : as.length = bs.length) :
    ∃ r, (lists as bs).Returns Substitution.Acyclic σ r := by
  refine exists_returns_of_pairs hlen hσ (σ.over_varsWith (as ++ bs)) (fun e he => ?_)
    fun _ _ _ _ hab => exists_returns_terms hab
  obtain ⟨ha, hb⟩ := List.of_mem_zip he
  exact ⟨σ.mem_varsWith (List.mem_append_left _ ha), σ.mem_varsWith (List.mem_append_right _ hb)⟩

end UnifyCall

/-! ## Section 3: Expressions of any kind -/

/-- The recursion of unification, started on two atoms.  The arguments of an equation are taken in
    the other order if the given one ends without an answer. -/
inductive Atom.Returns (P : Substitution → Prop) (σ : Substitution) (a b : Atom) :
    Option Substitution → Prop
  | other (hP : P σ) (h : ¬ (a.symbol = b.symbol ∧ a.args.length = b.args.length)) :
      Returns P σ a b none
  | given {r : Option Substitution} (hsymbol : a.symbol = b.symbol)
      (hlen : a.args.length = b.args.length) (h : a.isEq = false ∨ r.isSome)
      (next : (UnifyCall.lists a.args b.args).Returns P σ r) : Returns P σ a b r
  | turned {r : Option Substitution} (hsymbol : a.symbol = b.symbol)
      (hlen : a.args.length = b.args.length) (h : a.isEq = true)
      (given : (UnifyCall.lists a.args b.args).Returns P σ none)
      (next : (UnifyCall.lists a.args b.args.reverse).Returns P σ r) : Returns P σ a b r

/-- Both are terms, both are atoms, or both are literals. -/
def Expression.SameKind : Expression → Expression → Prop
  | .term _, .term _ | .atom _, .atom _ | .literal _, .literal _ => True
  | _, _ => False

/-- The recursion of unification, started on two expressions. -/
inductive Expression.Returns (P : Substitution → Prop) (σ : Substitution) :
    Expression → Expression → Option Substitution → Prop
  | term {s t : Term} {r : Option Substitution} (next : (UnifyCall.terms s t).Returns P σ r) :
      Returns P σ (.term s) (.term t) r
  | atom {a b : Atom} {r : Option Substitution} (next : a.Returns P σ b r) :
      Returns P σ (.atom a) (.atom b) r
  | literal {l m : Literal} {r : Option Substitution} (hsign : l.positive = m.positive)
      (next : l.atom.Returns P σ m.atom r) : Returns P σ (.literal l) (.literal m) r
  | sign {l m : Literal} (hP : P σ) (hsign : l.positive ≠ m.positive) :
      Returns P σ (.literal l) (.literal m) none
  | kind {a b : Expression} (hP : P σ) (h : ¬ a.SameKind b) : Returns P σ a b none

section

variable {P : Substitution → Prop} {σ : Substitution} {r : Option Substitution}

private theorem Atom.Returns.eq_unify {a b : Atom} (h : a.Returns P σ b r) (hσ : σ.Acyclic) :
    r = a.unify σ b := by
  unfold Atom.unify
  cases h with
  | other _ h => rw [if_neg h]
  | given hsymbol hlen h next =>
    rw [if_pos ⟨hsymbol, hlen⟩, ← next.eq_unifyList hσ hlen]
    cases r with
    | some τ => rfl
    | none =>
      have heq : a.isEq = false := by simpa using h
      simp [heq]
  | turned hsymbol hlen h given next =>
    rw [if_pos ⟨hsymbol, hlen⟩, ← given.eq_unifyList hσ hlen]
    have hlen' : a.args.length = b.args.reverse.length := by rw [List.length_reverse, hlen]
    simpa [h] using next.eq_unifyList hσ hlen'

private theorem Atom.exists_returns (hσ : σ.Acyclic) (a b : Atom) :
    ∃ r, a.Returns Substitution.Acyclic σ b r := by
  by_cases hab : a.symbol = b.symbol ∧ a.args.length = b.args.length
  · obtain ⟨hsymbol, hlen⟩ := hab
    obtain ⟨r, hr⟩ := UnifyCall.exists_returns_lists hσ hlen
    cases r with
    | some τ => exact ⟨_, .given hsymbol hlen (Or.inr rfl) hr⟩
    | none =>
      cases heq : a.isEq with
      | false => exact ⟨_, .given hsymbol hlen (Or.inl heq) hr⟩
      | true =>
        have hlen' : a.args.length = b.args.reverse.length := by rw [List.length_reverse, hlen]
        obtain ⟨r, hr'⟩ := UnifyCall.exists_returns_lists hσ hlen'
        exact ⟨r, .turned hsymbol hlen heq hr hr'⟩
  · exact ⟨none, .other hσ hab⟩

theorem Atom.Returns.result {a b : Atom} (h : a.Returns P σ b r) : ∀ τ, r = some τ → P τ := by
  cases h with
  | other => rintro τ ⟨⟩
  | given _ _ _ next => exact next.result
  | turned _ _ _ _ next => exact next.result

namespace Expression

theorem Returns.eq_unify {a b : Expression} (h : a.Returns P σ b r) (hσ : σ.Acyclic) :
    r = a.unify σ b := by
  cases h with
  | term next => exact next.eq_unify hσ
  | atom next => exact next.eq_unify hσ
  | literal hsign next =>
    rw [unify, Literal.unify, if_pos hsign]
    exact next.eq_unify hσ
  | sign _ hsign => rw [unify, Literal.unify, if_neg hsign]
  | kind _ h =>
    cases a <;> cases b
    case term.term | atom.atom | literal.literal => exact absurd trivial h
    all_goals rfl

theorem exists_returns (hσ : σ.Acyclic) (a b : Expression) :
    ∃ r, a.Returns Substitution.Acyclic σ b r := by
  by_cases hkind : a.SameKind b
  · cases a <;> cases b
    case term.term s t =>
      obtain ⟨r, hr⟩ := UnifyCall.exists_returns hσ s t
      exact ⟨r, .term hr⟩
    case atom.atom a b =>
      obtain ⟨r, hr⟩ := Atom.exists_returns hσ a b
      exact ⟨r, .atom hr⟩
    case literal.literal l m =>
      by_cases hsign : l.positive = m.positive
      · obtain ⟨r, hr⟩ := Atom.exists_returns hσ l.atom m.atom
        exact ⟨r, .literal hsign hr⟩
      · exact ⟨none, .sign hσ hsign⟩
    all_goals cases hkind
  · exact ⟨none, .kind hσ hkind⟩

theorem Returns.result {a b : Expression} (h : a.Returns P σ b r) : ∀ τ, r = some τ → P τ := by
  cases h with
  | term next => exact next.result
  | atom next => exact next.result
  | literal _ next => exact next.result
  | sign => rintro τ ⟨⟩
  | kind => rintro τ ⟨⟩

end Expression

end

/-- Started on any two expressions and on bindings without cycles, unification ends.  Its recursion
    has a derivation in which all bindings are without cycles and every application of bindings has
    a derivation of its own; there is no second answer, and this one is what `Bindings.unify`
    computes.  The resulting bindings apply to every term, once and for all. -/
theorem unification_terminates (σ : Substitution) (hσ : σ.Acyclic) (a b : Expression) :
    ∃ r, a.Returns Substitution.Acyclic σ b r ∧ (∀ P r', a.Returns P σ b r' → r' = r) ∧
      (Bindings.ofSubstitution σ).unify a.node b.node = .ok (r.map .ofSubstitution) ∧
      ∀ τ, r = some τ → τ.Acyclic ∧ ∀ t,
        (∀ u, τ.Resolves t u ↔ u = τ.apply t) ∧
        (Bindings.ofSubstitution τ).apply (.term t) = .ok (.term (τ.apply t)) ∧
        (∀ x ∈ (τ.apply t).vars, τ.isBound x = false) ∧ τ.apply (τ.apply t) = τ.apply t := by
  obtain ⟨r, hr⟩ := Expression.exists_returns hσ a b
  have hunify := hr.eq_unify hσ
  refine ⟨r, hr, fun P r' h => (h.eq_unify hσ).trans hunify.symm, ?_, fun τ hτ => ?_⟩
  · rw [hunify]
    exact Bindings.unify_ofSubstitution σ a b
  · have hacyclic := hr.result τ hτ
    refine ⟨hacyclic, fun t => ⟨fun u => hacyclic.resolves_iff, ?_, fun x hx => ?_, ?_⟩⟩
    · exact Bindings.apply_ofSubstitution τ (.term t)
    · rw [Substitution.isBound, hacyclic.unbound_of_mem_apply hx]
      rfl
    · exact hacyclic.apply_apply t

/-- With `X` bound to `f(Y)`, the terms `g(X, Y)` and `g(f(f(Z)), f(W))`: on the way `f(Y)` meets
    `f(f(Z))`, so `Y` gets bound to `f(Z)`, which then meets `f(W)`. -/
theorem unification_terminates_chain :
    let X := Ident.num 0
    let Y := Ident.num 1
    let f (t : Term) := Term.app (.num 2) [t]
    let σ := Substitution.empty.insert X (f (.var Y))
    let a := Expression.term (.app (.num 3) [.var X, .var Y])
    let b := Expression.term (.app (.num 3) [f (f (.var (.num 4))), f (.var (.num 5))])
    ∃ τ, a.Returns Substitution.Acyclic σ b (some τ) ∧ τ.Acyclic ∧
      τ.apply (τ.apply (.var X)) = τ.apply (.var X) := by
  intro X Y f σ a b
  have hσ : σ.Acyclic :=
    Substitution.acyclic_empty.insert (fun _ _ => rfl) (by simp [f, X, Y, Term.vars, Term.varsList])
  obtain ⟨r, hr, -, hunify, hsome⟩ := unification_terminates σ hσ a b
  cases r with
  | none => exact absurd hunify (by simp [Bindings.unify_ofSubstitution]; decide)
  | some τ =>
    obtain ⟨hτ, happly⟩ := hsome τ rfl
    exact ⟨τ, hr, hτ, (happly (.var X)).2.2.2⟩

end Clausal
