import Clausal.Node.Unification
import Clausal.Proofs.Unification

/-!
# Unification succeeds whenever it can

A run of unification takes terms apart to a depth that is fixed in advance.  If the equations have a
solution at all, that depth suffices: under a solution, the applications that are met one below the
other get smaller and smaller, and all of them are instances of applications of the problem, of which
there are no more than symbols.  So unification fails only on problems without a solution, and what it
finds otherwise is solved by every solution.

## Main definitions

- `Term.applications`, `Term.Within`: the applications in a term, and that they have their instances
  in a given finite set
- `Fits`: what a substitution on the way to a solution satisfies
- `Expression`: terms, atoms and literals

## Main statements

- `exists_unifyTerm`: a depth that suffices
- `unifyList_eq_none_iff`, `Atom.unify_eq_none_iff`, `Literal.unify_eq_none_iff`
- `Atom.exists_orientation_of_unify`: the order of the sides in which two atoms are unified
- `unify_most_general`
-/

namespace Clausal

/-! ## Section 1: Applications in a term -/

namespace Term

mutual

/-- The applications in a term, the term itself first. -/
def applications : Term → List Term
  | .var _ => []
  | .const _ => []
  | .app f args => .app f args :: applicationsList args

/-- The applications in several terms. -/
def applicationsList : List Term → List Term
  | [] => []
  | t :: ts => applications t ++ applicationsList ts

end

private theorem applicationsList_eq_flatMap (ts : List Term) :
    applicationsList ts = ts.flatMap applications := by
  induction ts with
  | nil => rfl
  | cons t ts ih => simp [applicationsList, ih]

@[simp]
theorem applications_app (f : Ident) (ts : List Term) :
    (Term.app f ts).applications = .app f ts :: ts.flatMap applications := by
  simp [applications, applicationsList_eq_flatMap]

private theorem symbolsList_append (ts us : List Term) :
    symbolsList (ts ++ us) = symbolsList ts + symbolsList us := by
  induction ts with
  | nil => simp [symbolsList]
  | cons t ts ih =>
    simp only [List.cons_append, symbolsList, ih]
    omega

private theorem symbols_le_of_mem {ts : List Term} {t : Term} (h : t ∈ ts) :
    t.symbols ≤ symbolsList ts := by
  induction ts with
  | nil => exact absurd h List.not_mem_nil
  | cons u ts ih =>
    rw [symbolsList]
    rcases List.mem_cons.mp h with rfl | h
    · exact Nat.le_add_right _ _
    · exact Nat.le_trans (ih h) (Nat.le_add_left _ _)

theorem symbols_lt_of_mem {f : Ident} {ts : List Term} {t : Term} (h : t ∈ ts) :
    t.symbols < (Term.app f ts).symbols := by
  have hle := symbols_le_of_mem h
  rw [symbols]
  omega

theorem length_flatMap_applications_le {ts : List Term}
    (h : ∀ t ∈ ts, t.applications.length ≤ t.symbols) :
    (ts.flatMap applications).length ≤ symbolsList ts := by
  induction ts with
  | nil => exact Nat.le_refl _
  | cons t ts ih =>
    obtain ⟨ht, hts⟩ := List.forall_mem_cons.mp h
    rw [List.flatMap_cons, List.length_append, symbolsList]
    exact Nat.add_le_add ht (ih hts)

private theorem length_applications_le (t : Term) : t.applications.length ≤ t.symbols := by
  induction t using Term.induction with
  | var x => exact Nat.zero_le _
  | const c => exact Nat.zero_le _
  | app f ts ih =>
    rw [applications_app, List.length_cons, symbols]
    exact Nat.succ_le_succ (length_flatMap_applications_le ih)

/-- A variable that stands below a symbol has a smaller value than the whole term. -/
theorem symbols_lt_symbols_subst {θ : Ident → Term} {x : Ident} {t : Term} (hx : x ∈ t.vars)
    (ht : t.isVar = false) : (θ x).symbols < (t.subst θ).symbols := by
  induction t using Term.induction with
  | var y => simp [isVar] at ht
  | const c => simp [vars] at hx
  | app f ts ih =>
    rw [vars_app, List.mem_flatMap] at hx
    obtain ⟨t, ht, hx⟩ := hx
    rw [subst_app]
    have hlt : (t.subst θ).symbols < (Term.app f (ts.map (subst θ))).symbols :=
      symbols_lt_of_mem (List.mem_map_of_mem ht)
    cases hvar : t.isVar with
    | false => exact Nat.lt_trans (ih t ht hx hvar) hlt
    | true =>
      -- then the variable is the argument itself
      cases t with
      | var y =>
        obtain rfl : x = y := by simpa [vars] using hx
        exact hlt
      | const c => simp [isVar] at hvar
      | app g us => simp [isVar] at hvar

/-- The instances of the applications in a term are among the given terms. -/
def Within (θ : Ident → Term) (S : Finset Term) (t : Term) : Prop :=
  ∀ u ∈ t.applications, u.subst θ ∈ S

variable {θ : Ident → Term} {S : Finset Term}

theorem within_app {f : Ident} {ts : List Term} :
    (Term.app f ts).Within θ S ↔ (Term.app f ts).subst θ ∈ S ∧ ∀ t ∈ ts, t.Within θ S := by
  simp only [Within, applications_app, List.forall_mem_cons, List.mem_flatMap]
  refine and_congr_right fun _ => ⟨fun h t ht u hu => h u ⟨t, ht, hu⟩, ?_⟩
  rintro h u ⟨t, ht, hu⟩
  exact h t ht u hu

/-- A term whose variables are replaced by terms within `S` is within `S`, as far as the replacement
    is not noticed by `θ`. -/
theorem Within.subst {ρ : Ident → Term} {t : Term} (h : t.Within θ S)
    (hρ : ∀ x ∈ t.vars, (ρ x).Within θ S) (hθ : ∀ u : Term, (u.subst ρ).subst θ = u.subst θ) :
    (t.subst ρ).Within θ S := by
  induction t using Term.induction with
  | var x => exact hρ x (by simp [vars])
  | const c => exact h
  | app f ts ih =>
    obtain ⟨hself, hts⟩ := within_app.mp h
    rw [subst_app]
    refine within_app.mpr ⟨?_, fun u hu => ?_⟩
    · rw [← subst_app, hθ]
      exact hself
    · obtain ⟨t, ht, rfl⟩ := List.mem_map.mp hu
      refine ih t ht (hts t ht) fun x hx => hρ x ?_
      exact vars_app f ts ▸ List.mem_flatMap.mpr ⟨t, ht, hx⟩

/-- How many of the given terms are no larger than the instance of a term. -/
def level (θ : Ident → Term) (S : Finset Term) (t : Term) : Nat :=
  (S.filter fun u => u.symbols ≤ (t.subst θ).symbols).card

private theorem level_le_card (t : Term) : t.level θ S ≤ S.card :=
  Finset.card_filter_le _ _

theorem level_congr {s t : Term} (h : s.subst θ = t.subst θ) : s.level θ S = t.level θ S := by
  unfold level
  rw [h]

/-- The level drops from an application within `S` to its arguments. -/
theorem level_lt {f : Ident} {ts : List Term} (hS : (Term.app f ts).subst θ ∈ S) {t : Term}
    (ht : t ∈ ts) : t.level θ S < (Term.app f ts).level θ S := by
  have hlt : (t.subst θ).symbols < ((Term.app f ts).subst θ).symbols := by
    rw [subst_app]
    exact symbols_lt_of_mem (List.mem_map_of_mem ht)
  refine Finset.card_lt_card (Finset.ssubset_iff_of_subset ?_ |>.mpr ?_)
  · intro u hu
    obtain ⟨hu, hle⟩ := Finset.mem_filter.mp hu
    exact Finset.mem_filter.mpr ⟨hu, Nat.le_of_lt (Nat.lt_of_le_of_lt hle hlt)⟩
  · -- the application itself is no longer counted
    refine ⟨_, Finset.mem_filter.mpr ⟨hS, Nat.le_refl _⟩, fun hmem => ?_⟩
    exact Nat.not_le.mpr hlt (Finset.mem_filter.mp hmem).2

end Term

/-! ## Section 2: On the way to a solution -/

/-- A substitution on the way to the solution `θ`, whose terms are within `S`. -/
structure Fits (θ : Ident → Term) (S : Finset Term) (σ : Substitution) : Prop where
  acyclic : σ.Acyclic
  solves : σ.Solves θ
  within : ∀ x t, σ.find? x = some t → t.Within θ S

namespace Fits

variable {θ : Ident → Term} {S : Finset Term} {σ τ : Substitution} {s t : Term} {x : Ident}

theorem walk (h : Fits θ S σ) (ht : t.Within θ S) : (σ.walk t).Within θ S := by
  rcases σ.walk_eq_or_find? t with hw | ⟨x, hx⟩
  · rwa [hw]
  · exact h.within x _ hx

private theorem value (h : Fits θ S σ) (x : Ident) : (σ.value x).Within θ S := by
  induction x using h.acyclic.induction with
  | _ x ih =>
    cases hf : σ.find? x with
    | none =>
      rw [Substitution.value_of_unbound hf]
      intro u hu
      simp [Term.applications] at hu
    | some t =>
      rw [h.acyclic.value_of_bound hf]
      exact (h.within x t hf).subst (fun y hy => ih y ⟨t, hf, hy⟩) (h.solves.subst_apply h.acyclic)

private theorem bindValue? (h : Fits θ S σ) (ht : t.Within θ S) (hx : σ.find? x = none)
    (heq : θ x = t.subst θ) (hτ : σ.bindValue? x t = some τ) : Fits θ S τ := by
  refine ⟨h.acyclic.bindValue? hτ,
    (Substitution.solves_of_bindValue? h.acyclic hx hτ θ).mpr ⟨h.solves, heq⟩, fun y u hy => ?_⟩
  obtain ⟨-, rfl⟩ := Substitution.bindValue?_eq_some.mp hτ
  rw [Substitution.find?_insert] at hy
  split at hy
  next =>
    obtain rfl := Option.some.inj hy
    exact ht.subst (fun z _ => h.value z) (h.solves.subst_apply h.acyclic)
  next => exact h.within y u hy

/-- A run on equations that `θ` solves stays on the way to `θ`. -/
theorem unification {es : List (Term × Term)} (h : Fits θ S σ) (hrun : Unification σ es τ)
    (hes : ∀ e ∈ es, e.1.Within θ S ∧ e.2.Within θ S ∧ e.1.subst θ = e.2.subst θ) :
    Fits θ S τ := by
  induction hrun with
  | nil => exact h
  | same _ _ ih => exact ih h fun e he => hes e (List.mem_cons_of_mem _ he)
  | bind hs hρ _ ih =>
    obtain ⟨⟨-, ht, heq⟩, hrest⟩ := List.forall_mem_cons.mp hes
    refine ih (h.bindValue? (h.walk ht) (h.acyclic.unbound_of_walk hs) ?_ hρ) hrest
    rw [h.solves.subst_walk, ← heq, ← h.solves.subst_walk, hs, Term.subst]
  | args hs ht hlen _ ih =>
    obtain ⟨⟨has, hbs, heq⟩, hrest⟩ := List.forall_mem_cons.mp hes
    have has := h.walk has
    have hbs := h.walk hbs
    rw [← h.solves.subst_walk, ← h.solves.subst_walk (Prod.snd _), hs, ht, Term.subst_app,
      Term.subst_app, Term.app.injEq, map_subst_eq_iff hlen] at heq
    rw [hs] at has
    rw [ht] at hbs
    refine ih h (List.forall_mem_append.mpr ⟨fun e he => ?_, hrest⟩)
    obtain ⟨ha, hb⟩ := List.of_mem_zip he
    exact ⟨(Term.within_app.mp has).2 _ ha, (Term.within_app.mp hbs).2 _ hb, heq.2 e he⟩
  | swap _ ih =>
    obtain ⟨⟨hs, ht, heq⟩, hrest⟩ := List.forall_mem_cons.mp hes
    exact ih h (List.forall_mem_cons.mpr ⟨⟨ht, hs, heq.symm⟩, hrest⟩)

/-- Binding a variable to what a solution makes equal to it does not fail. -/
theorem exists_bindValue? (h : Fits θ S σ) (hne : t ≠ .var x)
    (hwalk : ∀ y, t = .var y → σ.find? y = none) (heq : θ x = t.subst θ) :
    ∃ τ, σ.bindValue? x t = some τ := by
  refine ⟨_, Substitution.bindValue?_eq_some.mpr ⟨fun hmem => ?_, rfl⟩⟩
  cases t with
  | var y =>
    rw [Substitution.apply_var, Substitution.value_of_unbound (hwalk y rfl)] at hmem
    have hxy : x = y := by simpa [Term.vars] using hmem
    exact hne (congrArg Term.var hxy.symm)
  | const c => simp [Substitution.apply, Term.subst, Term.vars] at hmem
  | app f ts =>
    -- the value of `x` would be larger than itself
    have hlt := Term.symbols_lt_symbols_subst (θ := θ) hmem (by simp [Substitution.apply, Term.isVar])
    rw [h.solves.subst_apply h.acyclic, ← heq] at hlt
    exact Nat.lt_irrefl _ hlt

end Fits

/-! ## Section 3: The depth suffices -/

section Depth

variable {θ : Ident → Term} {S : Finset Term}

theorem exists_unifyArgs {step : Substitution → Term → Term → Option Substitution}
    (hrun : ∀ {σ ρ s t}, step σ s t = some ρ → Unification σ [(s, t)] ρ) {as bs : List Term}
    (hstep : ∀ {σ}, Fits θ S σ → ∀ e ∈ as.zip bs, ∃ ρ, step σ e.1 e.2 = some ρ)
    (hes : ∀ e ∈ as.zip bs, e.1.Within θ S ∧ e.2.Within θ S ∧ e.1.subst θ = e.2.subst θ)
    {σ : Substitution} (h : Fits θ S σ) : ∃ τ, unifyArgs step σ as bs = some τ := by
  induction as generalizing bs σ with
  | nil => exact ⟨σ, by simp [unifyArgs]⟩
  | cons a as ih =>
    cases bs with
    | nil => exact ⟨σ, by simp [unifyArgs]⟩
    | cons b bs =>
      rw [List.zip_cons_cons] at hes hstep
      obtain ⟨hab, hes⟩ := List.forall_mem_cons.mp hes
      obtain ⟨ρ, hρ⟩ := hstep h (a, b) List.mem_cons_self
      have hfits : Fits θ S ρ := h.unification (hrun hρ) (List.forall_mem_singleton.mpr hab)
      obtain ⟨τ, hτ⟩ := ih (fun h e he => hstep h e (List.mem_cons_of_mem _ he)) hes hfits
      exact ⟨τ, by simpa [unifyArgs, hρ] using hτ⟩

/-- The arguments of applications with equal instances stand on a lower level, so they unify if all
    terms on lower levels do. -/
theorem exists_unifyArgs_of_app {n : Nat} {σ : Substitution} {f : Ident} {as bs : List Term}
    (hstep : ∀ {σ s t}, Fits θ S σ → s.Within θ S → t.Within θ S → s.subst θ = t.subst θ →
      s.level θ S < n → ∃ τ, unifyTerm n σ s t = some τ)
    (h : Fits θ S σ) (has : (Term.app f as).Within θ S) (hbs : (Term.app f bs).Within θ S)
    (hlen : as.length = bs.length) (heq : (Term.app f as).subst θ = (Term.app f bs).subst θ)
    (hn : (Term.app f as).level θ S < n + 1) :
    ∃ τ, unifyArgs (unifyTerm n) σ as bs = some τ := by
  obtain ⟨hmem, has⟩ := Term.within_app.mp has
  obtain ⟨-, hbs⟩ := Term.within_app.mp hbs
  rw [Term.subst_app, Term.subst_app, Term.app.injEq, map_subst_eq_iff hlen] at heq
  have hes : ∀ e ∈ as.zip bs, e.1.Within θ S ∧ e.2.Within θ S ∧ e.1.subst θ = e.2.subst θ := by
    intro e he
    obtain ⟨ha, hb⟩ := List.of_mem_zip he
    exact ⟨has _ ha, hbs _ hb, heq.2 e he⟩
  refine exists_unifyArgs (fun h => unification_of_unifyTerm h (.nil _)) (fun hfits e he => ?_) hes h
  obtain ⟨ha, hb, hab⟩ := hes e he
  have hlt := Term.level_lt hmem (List.of_mem_zip he).1
  exact hstep hfits ha hb hab (by omega)

/-- Two terms with equal instances unify if they are taken apart further than there are instances of
    applications no larger than theirs. -/
theorem exists_unifyTerm {n : Nat} {σ : Substitution} {s t : Term} (h : Fits θ S σ)
    (hs : s.Within θ S) (ht : t.Within θ S) (heq : s.subst θ = t.subst θ) (hn : s.level θ S < n) :
    ∃ τ, unifyTerm n σ s t = some τ := by
  induction n generalizing σ s t with
  | zero => exact absurd hn (Nat.not_lt_zero _)
  | succ n ih =>
    unfold unifyTerm
    by_cases hst : s = t
    · exact ⟨σ, by simp [hst]⟩
    rw [if_neg hst]
    have hws := h.walk hs
    have hwt := h.walk ht
    have heqw : (σ.walk s).subst θ = (σ.walk t).subst θ := by
      rw [h.solves.subst_walk, h.solves.subst_walk, heq]
    cases hs' : σ.walk s with
    | var x =>
      rw [hs'] at heqw
      dsimp only
      split
      next => exact ⟨σ, rfl⟩
      next hne =>
        exact h.exists_bindValue? hne (fun y hy => h.acyclic.unbound_of_walk hy) heqw
    | const c =>
      cases ht' : σ.walk t with
      | var y =>
        rw [hs', ht'] at heqw
        exact h.exists_bindValue? (by simp) (by simp) heqw.symm
      | const d =>
        rw [hs', ht'] at heqw
        exact ⟨σ, if_pos (Term.const.inj heqw)⟩
      | app g bs => simp [hs', ht', Term.subst] at heqw
    | app f as =>
      cases ht' : σ.walk t with
      | var y =>
        rw [hs', ht'] at heqw
        exact h.exists_bindValue? (by simp) (by simp) heqw.symm
      | const d => simp [hs', ht', Term.subst] at heqw
      | app g bs =>
        have hlevel : (Term.app f as).level θ S = s.level θ S := by
          rw [← hs']
          exact Term.level_congr (h.solves.subst_walk s)
        rw [hs', ht'] at heqw
        rw [hs'] at hws
        rw [ht'] at hwt
        obtain ⟨rfl, hargs⟩ : f = g ∧ as.map (Term.subst θ) = bs.map (Term.subst θ) := by
          simpa using heqw
        have hlen : as.length = bs.length := by simpa using congrArg List.length hargs
        dsimp only
        rw [if_pos ⟨rfl, hlen⟩]
        split
        · exact exists_unifyArgs_of_app ih h hwt hws hlen.symm heqw.symm
            (by rw [← Term.level_congr heqw, hlevel]; exact hn)
        · exact exists_unifyArgs_of_app ih h hws hwt hlen heqw (by rw [hlevel]; exact hn)

end Depth

/-- The instances of all applications in a substitution and two lists of terms. -/
def instancesIn (θ : Ident → Term) (σ : Substitution) (as bs : List Term) : Finset Term :=
  (((σ.bindings.map Prod.snd ++ as ++ bs).flatMap Term.applications).map (Term.subst θ)).toFinset

theorem within_instancesIn {θ : Ident → Term} {σ : Substitution} {as bs : List Term} {t : Term}
    (h : t ∈ σ.bindings.map Prod.snd ++ as ++ bs) : t.Within θ (instancesIn θ σ as bs) := by
  intro u hu
  exact List.mem_toFinset.mpr (List.mem_map_of_mem (List.mem_flatMap.mpr ⟨t, h, hu⟩))

private theorem card_instancesIn_lt (θ : Ident → Term) (σ : Substitution) (as bs : List Term) :
    (instancesIn θ σ as bs).card < unifyDepth σ as bs := by
  have hcard : (instancesIn θ σ as bs).card ≤
      ((σ.bindings.map Prod.snd ++ as ++ bs).flatMap Term.applications).length :=
    (List.toFinset_card_le _).trans_eq (List.length_map (Term.subst θ))
  have hsymbols := Term.length_flatMap_applications_le
    fun t (_ : t ∈ σ.bindings.map Prod.snd ++ as ++ bs) => t.length_applications_le
  rw [Term.symbolsList_append, Term.symbolsList_append] at hsymbols
  exact Nat.lt_succ_of_le (hcard.trans hsymbols)

/-- Equations with a solution are solved. -/
theorem exists_unifyList {θ : Ident → Term} {σ : Substitution} {as bs : List Term}
    (hσ : σ.Acyclic) (hθ : σ.Solves θ) (heq : ∀ e ∈ as.zip bs, e.1.subst θ = e.2.subst θ) :
    ∃ τ, unifyList σ as bs = some τ := by
  have hes : ∀ e ∈ as.zip bs, e.1.Within θ (instancesIn θ σ as bs) ∧
      e.2.Within θ (instancesIn θ σ as bs) ∧ e.1.subst θ = e.2.subst θ := by
    intro e he
    obtain ⟨ha, hb⟩ := List.of_mem_zip he
    exact ⟨within_instancesIn (by simp [ha]), within_instancesIn (by simp [hb]), heq e he⟩
  have hfits : Fits θ (instancesIn θ σ as bs) σ := by
    refine ⟨hσ, hθ, fun x t hx => within_instancesIn ?_⟩
    have hmem := List.mem_map_of_mem (f := Prod.snd) (Substitution.mem_bindings_of_find? hx)
    simp only [List.append_assoc, List.mem_append]
    exact Or.inl hmem
  refine exists_unifyArgs (fun h => unification_of_unifyTerm h (.nil _)) (fun h e he => ?_) hes hfits
  obtain ⟨ha, hb, hab⟩ := hes e he
  exact exists_unifyTerm h ha hb hab
    (Nat.lt_of_le_of_lt (Term.level_le_card _) (card_instancesIn_lt θ σ as bs))

theorem unifyList_eq_none_iff {σ : Substitution} (hσ : σ.Acyclic) {as bs : List Term} :
    unifyList σ as bs = none ↔
      ¬ ∃ θ, σ.Solves θ ∧ ∀ e ∈ as.zip bs, e.1.subst θ = e.2.subst θ := by
  constructor
  · rintro hnone ⟨θ, hθ, heq⟩
    obtain ⟨τ, hτ⟩ := exists_unifyList hσ hθ heq
    rw [hnone] at hτ
    cases hτ
  · intro h
    cases hτ : unifyList σ as bs with
    | none => rfl
    | some τ =>
      have hrun := unification_of_unifyList hτ
      exact absurd ⟨τ.value, (hrun.solves_iff hσ _).mp (hrun.acyclic hσ).solves_value⟩ h

/-! ## Section 4: Most general extensions -/

/-- `τ` extends `σ` by what the condition asks for, and by nothing more: it keeps the bindings, and
    as equations its bindings say that those of `σ` and the condition are satisfied. -/
structure Substitution.MostGeneral (σ τ : Substitution) (condition : (Ident → Term) → Prop) :
    Prop where
  acyclic : τ.Acyclic
  keeps : ∀ x t, σ.find? x = some t → τ.find? x = some t
  solves_iff : ∀ θ, τ.Solves θ ↔ σ.Solves θ ∧ condition θ

namespace Substitution.MostGeneral

variable {σ τ : Substitution} {P Q : (Ident → Term) → Prop}

/-- The extension itself satisfies the condition. -/
theorem value (h : σ.MostGeneral τ P) : σ.Solves τ.value ∧ P τ.value :=
  (h.solves_iff τ.value).mp h.acyclic.solves_value

theorem congr (h : σ.MostGeneral τ P) (hPQ : ∀ θ, P θ ↔ Q θ) : σ.MostGeneral τ Q :=
  ⟨h.acyclic, h.keeps, fun θ => by rw [h.solves_iff, hPQ]⟩

end Substitution.MostGeneral

theorem Unification.mostGeneral {σ τ : Substitution} {es : List (Term × Term)}
    (h : Unification σ es τ) (hσ : σ.Acyclic) :
    σ.MostGeneral τ fun θ => ∀ e ∈ es, e.1.subst θ = e.2.subst θ :=
  ⟨h.acyclic hσ, fun _ _ => h.keeps hσ, h.solves_iff hσ⟩

namespace Atom

/-- The atom with the two sides of an equation in the other order. -/
def mirror : Atom → Atom
  | .pred p ts => .pred p ts
  | .eq l r => .eq r l

theorem beq_iff_mirror {a b : Atom} : (a == b) = true ↔ a = b ∨ a = b.mirror := by
  rw [beq_iff]
  refine or_congr_right' fun hne => ⟨?_, fun h => ?_⟩
  · rintro ⟨l, r, rfl, rfl⟩
    rfl
  · cases b with
    | pred p ts => exact absurd h hne
    | eq l r => exact ⟨r, l, h, rfl⟩

theorem mirror_subst (θ : Ident → Term) (a : Atom) : (a.subst θ).mirror = a.mirror.subst θ := by
  cases a <;> rfl

theorem symbol_mirror (a : Atom) : a.mirror.symbol = a.symbol := by
  cases a <;> rfl

theorem proper_mirror {a : Atom} (h : a.Proper) : a.mirror.Proper := by
  cases a with
  | pred p ts => exact h
  | eq l r => trivial

theorem args_mirror {a : Atom} (h : a.isEq = true) : a.mirror.args = a.args.reverse := by
  cases a with
  | pred p ts => simp [isEq] at h
  | eq l r => rfl

theorem mirror_eq_self {a : Atom} (h : a.isEq = false) : a.mirror = a := by
  cases a with
  | pred p ts => rfl
  | eq l r => simp [isEq] at h

/-- Proper atoms that start alike have equal instances exactly if their arguments do in pairs. -/
theorem subst_eq_iff {a b : Atom} (ha : a.Proper) (hb : b.Proper) (hsymbol : a.symbol = b.symbol)
    (hlen : a.args.length = b.args.length) (θ : Ident → Term) :
    a.subst θ = b.subst θ ↔ ∀ e ∈ a.args.zip b.args, e.1.subst θ = e.2.subst θ := by
  rw [← map_subst_eq_iff hlen]
  have hkind := isEq_eq_of_proper ha hb hsymbol
  cases a with
  | pred p ts =>
    cases b with
    | pred q us =>
      obtain rfl : p = q := hsymbol
      simp [subst, args]
    | eq l r => cases hkind
  | eq l r =>
    cases b with
    | pred q us => cases hkind
    | eq l' r' => simp [subst, args]

/-- Atoms with equal instances start alike. -/
theorem starts_of_subst_eq {θ : Ident → Term} {a b : Atom} (h : a.subst θ = b.subst θ) :
    a.symbol = b.symbol ∧ a.args.length = b.args.length := by
  constructor
  · simpa using congrArg symbol h
  · simpa using congrArg (fun c => c.args.length) h

variable {σ τ : Substitution} {a b : Atom}

private theorem mostGeneral_of_unifyList (hσ : σ.Acyclic) (ha : a.Proper) (hb : b.Proper)
    (hsymbol : a.symbol = b.symbol) (hlen : a.args.length = b.args.length)
    (h : unifyList σ a.args b.args = some τ) :
    σ.MostGeneral τ fun θ => a.subst θ = b.subst θ :=
  ((unification_of_unifyList h).mostGeneral hσ).congr fun θ =>
    (subst_eq_iff ha hb hsymbol hlen θ).symm

theorem unifyList_args_eq_none (hσ : σ.Acyclic) (ha : a.Proper) (hb : b.Proper)
    (hsymbol : a.symbol = b.symbol) (hlen : a.args.length = b.args.length) :
    unifyList σ a.args b.args = none ↔ ¬ ∃ θ, σ.Solves θ ∧ a.subst θ = b.subst θ := by
  rw [unifyList_eq_none_iff hσ]
  refine not_congr (exists_congr fun θ => and_congr_right fun _ => ?_)
  exact (subst_eq_iff ha hb hsymbol hlen θ).symm

/-- A unifier of two atoms is a most general extension that makes them equal with the sides of the
    second in one of the two orders; the given order is left only if it has no solution. -/
theorem exists_orientation_of_unify (hσ : σ.Acyclic) (ha : a.Proper) (hb : b.Proper)
    (h : a.unify σ b = some τ) : ∃ c, (c = b ∨ c = b.mirror ∧
      ¬ ∃ θ, σ.Solves θ ∧ a.subst θ = b.subst θ) ∧
      σ.MostGeneral τ fun θ => a.subst θ = c.subst θ := by
  unfold unify at h
  split at h
  next hab =>
    obtain ⟨hsymbol, hlen⟩ := hab
    split at h
    next τ' h' =>
      obtain rfl := Option.some.inj h
      exact ⟨b, Or.inl rfl, mostGeneral_of_unifyList hσ ha hb hsymbol hlen h'⟩
    next hnone =>
      split at h
      next heq =>
        -- both are equations, and the arguments of the mirror image are tried
        have hbeq : b.isEq = true := (isEq_eq_of_proper ha hb hsymbol).symm.trans heq
        rw [← args_mirror hbeq] at h
        refine ⟨b.mirror, Or.inr ⟨rfl, (unifyList_args_eq_none hσ ha hb hsymbol hlen).mp hnone⟩, ?_⟩
        refine mostGeneral_of_unifyList hσ ha (proper_mirror hb) ?_ ?_ h
        · rw [symbol_mirror, hsymbol]
        · rw [args_mirror hbeq, List.length_reverse, hlen]
      next => cases h
  next => cases h

/-- Atoms do not unify exactly if no solution makes them equal. -/
theorem unify_eq_none_iff (hσ : σ.Acyclic) (ha : a.Proper) (hb : b.Proper) :
    a.unify σ b = none ↔ ¬ ∃ θ, σ.Solves θ ∧ (a.subst θ == b.subst θ) = true := by
  constructor
  · rintro hnone ⟨θ, hθ, heq⟩
    -- in one of the two orders the instances are the same
    obtain ⟨c, hc, hac⟩ : ∃ c, (c = b ∨ c = b.mirror) ∧ a.subst θ = c.subst θ := by
      rcases beq_iff_mirror.mp heq with h | h
      · exact ⟨b, Or.inl rfl, h⟩
      · exact ⟨b.mirror, Or.inr rfl, by rw [h, mirror_subst]⟩
    obtain ⟨hsymbol, hlen⟩ := starts_of_subst_eq hac
    have hcb : c.symbol = b.symbol ∧ c.args.length = b.args.length := by
      rcases hc with rfl | rfl
      · exact ⟨rfl, rfl⟩
      · cases b <;> exact ⟨rfl, rfl⟩
    have hcp : c.Proper := by
      rcases hc with rfl | rfl
      · exact hb
      · exact proper_mirror hb
    have hsome : unifyList σ a.args c.args ≠ none := fun h =>
      (unifyList_args_eq_none hσ ha hcp hsymbol hlen).mp h ⟨θ, hθ, hac⟩
    unfold unify at hnone
    rw [if_pos ⟨hsymbol.trans hcb.1, hlen.trans hcb.2⟩] at hnone
    split at hnone
    next => cases hnone
    next hstraight =>
      rcases hc with rfl | rfl
      · exact hsome hstraight
      · cases hbeq : b.isEq with
        | false => exact hsome (by rwa [mirror_eq_self hbeq])
        | true =>
          rw [if_pos ((isEq_eq_of_proper ha hb (hsymbol.trans hcb.1)).trans hbeq)] at hnone
          exact hsome (by rwa [args_mirror hbeq])
  · intro hnone
    cases hτ : a.unify σ b with
    | none => rfl
    | some τ =>
      refine absurd ⟨τ.value, ?_, beq_subst_of_unify hσ ha hb hτ⟩ hnone
      obtain ⟨c, -, hmg⟩ := exists_orientation_of_unify hσ ha hb hτ
      exact hmg.value.1

/-- Whatever solves a unifier of two atoms makes them equal. -/
theorem beq_subst_of_solves (hσ : σ.Acyclic) (ha : a.Proper) (hb : b.Proper)
    (h : a.unify σ b = some τ) : τ.Acyclic ∧
      ∀ θ, τ.Solves θ → σ.Solves θ ∧ (a.subst θ == b.subst θ) = true := by
  obtain ⟨c, hc, hmg⟩ := exists_orientation_of_unify hσ ha hb h
  refine ⟨hmg.acyclic, fun θ hθ => ?_⟩
  obtain ⟨hθ, heq⟩ := (hmg.solves_iff θ).mp hθ
  refine ⟨hθ, beq_iff_mirror.mpr ?_⟩
  rcases hc with rfl | ⟨rfl, -⟩
  · exact Or.inl heq
  · exact Or.inr (by rw [heq, mirror_subst])

/-- Atoms with equal instances unify, and the solution is not lost. -/
theorem exists_unify (hσ : σ.Acyclic) (ha : a.Proper) (hb : b.Proper) {θ : Ident → Term}
    (hθ : σ.Solves θ) (heq : a.subst θ = b.subst θ) :
    ∃ τ, a.unify σ b = some τ ∧ τ.Acyclic ∧ τ.Solves θ := by
  cases hτ : a.unify σ b with
  | none =>
    refine absurd ⟨θ, hθ, ?_⟩ ((unify_eq_none_iff hσ ha hb).mp hτ)
    exact beq_iff.mpr (Or.inl heq)
  | some τ =>
    obtain ⟨c, hc, hmg⟩ := exists_orientation_of_unify hσ ha hb hτ
    refine ⟨τ, rfl, hmg.acyclic, (hmg.solves_iff θ).mpr ⟨hθ, ?_⟩⟩
    -- the given order has a solution, so it was not left
    rcases hc with rfl | ⟨-, hno⟩
    · exact heq
    · exact absurd ⟨θ, hθ, heq⟩ hno

end Atom

/-- Literals do not unify exactly if no solution makes them equal. -/
theorem Literal.unify_eq_none_iff {σ : Substitution} {l m : Literal} (hσ : σ.Acyclic)
    (hl : l.atom.Proper) (hm : m.atom.Proper) :
    l.unify σ m = none ↔ ¬ ∃ θ, σ.Solves θ ∧ (l.subst θ == m.subst θ) = true := by
  simp only [beq_iff, atom_subst, positive_subst, ← and_assoc, exists_and_right]
  unfold unify
  split
  next hpos => simp [hpos, Atom.unify_eq_none_iff hσ hl hm]
  next hpos => simp [hpos]

/-! ## Section 5: Expressions of any kind -/

/-- What can be unified: terms, atoms and literals. -/
inductive Expression where
  | term (t : Term)
  | atom (a : Atom)
  | literal (l : Literal)

namespace Expression

/-- The node that an expression is. -/
def node : Expression → Node
  | .term t => .term t
  | .atom a => .formula (.atom a)
  | .literal l => .literal l

/-- Replace every variable `x` by `θ x`, all at once. -/
def subst (θ : Ident → Term) : Expression → Expression
  | .term t => .term (t.subst θ)
  | .atom a => .atom (a.subst θ)
  | .literal l => .literal (l.subst θ)

/-- The expression with the two sides of an equation in the other order. -/
def mirror : Expression → Expression
  | .term t => .term t
  | .atom a => .atom a.mirror
  | .literal l => .literal { l with atom := l.atom.mirror }

/-- The name of equality is not used for an ordinary predicate. -/
def Proper : Expression → Prop
  | .term _ => True
  | .atom a => a.Proper
  | .literal l => l.atom.Proper

/-- Extend a substitution so that it makes two expressions equal; they have to be of one kind. -/
def unify (σ : Substitution) : Expression → Expression → Option Substitution
  | .term s, .term t => s.unify σ t
  | .atom a, .atom b => a.unify σ b
  | .literal l, .literal m => l.unify σ m
  | _, _ => none

/-- Two expressions are equal as nodes exactly if they are the same up to the order of the sides of
    an equation. -/
theorem beq_node_iff {a b : Expression} : (a.node == b.node) = true ↔ a = b ∨ a = b.mirror := by
  cases a <;> cases b
  case term.term s t =>
    change decide (s = t) = true ↔ _
    simp [mirror]
  case atom.atom a b =>
    change (a == b) = true ↔ _
    simp [Atom.beq_iff_mirror, mirror]
  case literal.literal l m =>
    change (l == m) = true ↔ _
    obtain ⟨p, a⟩ := l
    obtain ⟨q, b⟩ := m
    simp [Literal.beq_iff, Atom.beq_iff_mirror, mirror, and_or_left, and_comm]
  -- expressions of different kinds are never equal
  all_goals exact iff_of_false Bool.false_ne_true (by simp [mirror])

private theorem mirror_subst (θ : Ident → Term) (a : Expression) :
    (a.subst θ).mirror = a.mirror.subst θ := by
  cases a <;> simp [subst, mirror, Atom.mirror_subst, Literal.subst]

variable {σ τ : Substitution} {a b : Expression}

/-- Expressions do not unify exactly if no solution makes them equal. -/
theorem unify_eq_none_iff (hσ : σ.Acyclic) (ha : a.Proper) (hb : b.Proper) :
    a.unify σ b = none ↔ ¬ ∃ θ, σ.Solves θ ∧ ((a.subst θ).node == (b.subst θ).node) = true := by
  cases a <;> cases b
  case term.term s t =>
    refine (unifyList_eq_none_iff hσ).trans (not_congr (exists_congr fun θ => ?_))
    simp [beq_node_iff, subst, mirror]
  case atom.atom a b => exact Atom.unify_eq_none_iff hσ ha hb
  case literal.literal l m => exact Literal.unify_eq_none_iff hσ ha hb
  all_goals exact iff_of_true rfl fun ⟨_, _, h⟩ => Bool.false_ne_true h

/-- A unifier is a most general extension that makes two expressions equal in one order of the
    sides of an equation; the given order is left only if it has no solution. -/
theorem exists_orientation_of_unify (hσ : σ.Acyclic) (ha : a.Proper) (hb : b.Proper)
    (h : a.unify σ b = some τ) : ∃ c, (c = b ∨ c = b.mirror ∧
      ¬ ∃ θ, σ.Solves θ ∧ a.subst θ = b.subst θ) ∧
      σ.MostGeneral τ fun θ => a.subst θ = c.subst θ := by
  cases a <;> cases b
  case term.term s t =>
    refine ⟨.term t, Or.inl rfl, ((unification_of_unifyList h).mostGeneral hσ).congr fun θ => ?_⟩
    simp [subst]
  case atom.atom a b =>
    obtain ⟨c, hc, hmg⟩ := Atom.exists_orientation_of_unify hσ ha hb h
    refine ⟨.atom c, ?_, hmg.congr fun θ => by simp [subst]⟩
    simpa [subst, mirror] using hc
  case literal.literal l m =>
    obtain ⟨hpos, h⟩ := Literal.unify_eq_some.mp h
    obtain ⟨c, hc, hmg⟩ := Atom.exists_orientation_of_unify hσ ha hb h
    refine ⟨.literal ⟨m.positive, c⟩, ?_, hmg.congr fun θ => by simp [subst, Literal.subst, hpos]⟩
    rcases hc with rfl | ⟨rfl, hnone⟩
    · exact Or.inl rfl
    · refine Or.inr ⟨rfl, fun hsome => hnone ?_⟩
      obtain ⟨θ, hθ, heq⟩ := hsome
      exact ⟨θ, hθ, congrArg Literal.atom (literal.inj heq)⟩
  all_goals cases h

end Expression

namespace Substitution

theorem ext_bindings {σ τ : Substitution} (h : σ.bindings = τ.bindings) : σ = τ := by
  cases σ
  cases τ
  cases h
  rfl

private theorem bindings_insert {σ : Substitution} {x : Ident} (h : x ∉ σ.domain) (t : Term) :
    (σ.insert x t).bindings = σ.bindings ++ [(x, t)] := by
  have hx : x ∉ σ.bindings.map Prod.fst := h
  unfold insert
  rw [dif_neg hx]

private theorem bindings_foldl_insert (bs : List (Ident × Term)) (σ : Substitution)
    (h : ((σ.bindings ++ bs).map Prod.fst).Nodup) :
    (bs.foldl (fun ρ b => ρ.insert b.1 b.2) σ).bindings = σ.bindings ++ bs := by
  induction bs generalizing σ with
  | nil => simp
  | cons b bs ih =>
    have hb : b.1 ∉ σ.domain := by
      rw [List.map_append, List.map_cons, List.nodup_middle, List.nodup_cons] at h
      exact fun hmem => h.1 (List.mem_append_left _ hmem)
    have hbs := bindings_insert hb b.2
    rw [List.foldl_cons, ih, hbs, List.append_assoc]
    · rfl
    · rwa [hbs, List.append_assoc]

private theorem ofList_bindings (σ : Substitution) : ofList σ.bindings = σ :=
  ext_bindings (bindings_foldl_insert σ.bindings empty σ.nodup)

end Substitution

namespace Bindings

@[simp]
theorem plain?_ofSubstitution (σ : Substitution) : (ofSubstitution σ).plain? = some σ := by
  have hmap : ∀ (pair? : Node × Node → Option (Ident × Term))
      (_ : ∀ b : Ident × Term, pair? (.term (.var b.1), .term b.2) = some b)
      (bs : List (Ident × Term)),
      (bs.map fun b => ((.term (.var b.1), .term b.2) : Node × Node)).mapM pair? = some bs := by
    intro pair? hpair bs
    induction bs with
    | nil => rfl
    | cons b bs ih => simp [List.mapM_cons, ih, hpair]
  unfold plain? ofSubstitution
  dsimp only
  rw [hmap _ (fun _ => rfl), Option.map_some, Substitution.ofList_bindings]

theorem apply_ofSubstitution (τ : Substitution) (a : Expression) :
    (ofSubstitution τ).apply a.node = .ok (a.subst τ.value).node := by
  unfold apply
  split
  next hsize =>
    -- without bindings nothing is replaced
    have hnil : τ.bindings = [] := by
      simpa [size, ofSubstitution] using hsize
    have hvalue : τ.value = .var := by
      rw [Substitution.ext_bindings (τ := .empty) hnil]
      rfl
    cases a <;> simp [hvalue, Expression.subst]
  next =>
    unfold substitute
    rw [plain?_ofSubstitution]
    cases a <;> rfl

/-- Bindings that are a substitution are extended as substitutions are. -/
theorem unify_ofSubstitution (σ : Substitution) (a b : Expression) :
    (ofSubstitution σ).unify a.node b.node = .ok ((a.unify σ b).map ofSubstitution) := by
  unfold unify
  rw [plain?_ofSubstitution]
  cases a <;> cases b <;> rfl

end Bindings

/-- Unification of expressions computes a most general extension: it answers none exactly if no
    solution of the given bindings makes the expressions equal, and otherwise its answer keeps the
    bindings, makes the expressions equal, and is solved by exactly those solutions that make them
    equal in one order of the sides of an equation, which is the given one if that has a solution. -/
theorem unify_most_general (σ : Substitution) (hσ : σ.Acyclic) (a b : Expression) (ha : a.Proper)
    (hb : b.Proper) : ∃ r, (Bindings.ofSubstitution σ).unify a.node b.node = .ok r ∧
      (r = none ↔ ¬ ∃ θ, σ.Solves θ ∧ ((a.subst θ).node == (b.subst θ).node) = true) ∧
      ∀ β, r = some β → ∃ τ c, β = .ofSubstitution τ ∧
        (c = b ∨ c = b.mirror ∧ ¬ ∃ θ, σ.Solves θ ∧ a.subst θ = b.subst θ) ∧
        (σ.MostGeneral τ fun θ => a.subst θ = c.subst θ) ∧
        ∃ a' b', β.apply a.node = .ok a' ∧ β.apply b.node = .ok b' ∧ (a' == b') = true := by
  refine ⟨_, Bindings.unify_ofSubstitution σ a b, ?_, ?_⟩
  · rw [Option.map_eq_none_iff]
    exact Expression.unify_eq_none_iff hσ ha hb
  · intro β hβ
    obtain ⟨τ, hτ, rfl⟩ := Option.map_eq_some_iff.mp hβ
    obtain ⟨c, hc, hmg⟩ := Expression.exists_orientation_of_unify hσ ha hb hτ
    refine ⟨τ, c, rfl, hc, hmg, _, _, Bindings.apply_ofSubstitution τ a,
      Bindings.apply_ofSubstitution τ b, Expression.beq_node_iff.mpr ?_⟩
    rw [hmg.value.2, Expression.mirror_subst]
    rcases hc with rfl | ⟨rfl, -⟩
    · exact Or.inl rfl
    · exact Or.inr rfl

/-- The equations `X = c` and `c = f(d)`, with `X` bound to `f(Y)`: only after turning the second round
    do they have a solution, and `Y` gets bound to `d`. -/
theorem unify_most_general_turned :
    let σ := Substitution.empty.insert (.num 0) (.app (.num 1) [.var (.num 2)])
    let a := Expression.atom (.eq (.var (.num 0)) (.const (.num 3)))
    let b := Expression.atom (.eq (.const (.num 3)) (.app (.num 1) [.const (.num 4)]))
    ∃ τ, (Bindings.ofSubstitution σ).unify a.node b.node = .ok (some (.ofSubstitution τ)) ∧
      σ.MostGeneral τ fun θ => a.subst θ = b.mirror.subst θ := by
  intro σ a b
  have hσ : σ.Acyclic :=
    Substitution.acyclic_empty.insert (fun _ _ => rfl) (by simp [Term.vars, Term.varsList])
  obtain ⟨r, hr, -, hsome⟩ := unify_most_general σ hσ a b trivial trivial
  cases r with
  | none => exact absurd hr (by simp [Bindings.unify_ofSubstitution]; decide)
  | some β =>
    obtain ⟨τ, c, rfl, rfl | ⟨rfl, -⟩, hmg, -⟩ := hsome β rfl
    · -- in the given order `f(Y)` would have to be `c`
      obtain ⟨hsolves, heq⟩ := hmg.value
      have hX := hsolves (.num 0) _ rfl
      simp [a, b, Expression.subst, Atom.subst, hX, Term.subst] at heq
    · exact ⟨τ, hr, hmg⟩

end Clausal
