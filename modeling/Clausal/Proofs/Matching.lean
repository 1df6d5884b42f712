import Clausal.Matching
import Clausal.Proofs.Substitution

/-!
# Matching finds instances

The bindings that matching finds turn the generalisation into the instance, and they say no more than
that: the terms that variables may stand for are exactly those that agree with the bindings.

## Main definitions

- `Substitution.Agrees`: variables stand for the terms they are bound to
- `Atom.MapsTo`, `Literal.MapsTo`: a replacement makes one of the other, up to the order of sides

## Main statements

- `Term.agrees_of_match?`, `Atom.agrees_of_match?`
- `Atom.exists_subst_of_match?`: an atom that is matched is an instance
- `Term.exists_match?`, `Literal.exists_match?`: instances are matched
- `Literal.mapsTo_of_match?`: what a match says of literals, equations included
-/

namespace Clausal

/-! ## Section 1: Terms and ordinary atoms -/

variable {σ τ : Substitution} {ρ : Ident → Term}

/-- Bound variables stand for the very terms they are bound to; bindings are not followed. -/
def Substitution.Agrees (σ : Substitution) (ρ : Ident → Term) : Prop :=
  ∀ x t, σ.find? x = some t → ρ x = t

private theorem Substitution.agrees_insert {x : Ident} {t : Term} (hx : σ.find? x = none) :
    (σ.insert x t).Agrees ρ ↔ σ.Agrees ρ ∧ ρ x = t := by
  constructor
  · intro h
    refine ⟨fun y u hy => h y u ?_, h x t ?_⟩
    · rw [find?_insert, if_neg, hy]
      rintro rfl
      simp [hx] at hy
    · rw [find?_insert, if_pos rfl]
  · rintro ⟨h, hxt⟩ y u hy
    rw [find?_insert] at hy
    split at hy
    next hyx =>
      subst hyx
      exact hxt.trans (Option.some.inj hy)
    next => exact h y u hy

theorem Substitution.exists_agrees (σ : Substitution) : ∃ ρ, σ.Agrees ρ :=
  ⟨fun x => (σ.find? x).getD (.var x), fun x t hx => by simp [hx]⟩

theorem Substitution.agrees_empty (ρ : Ident → Term) : Substitution.empty.Agrees ρ := by
  intro x t hx
  cases hx

/-- Lists of terms are matched if terms are. -/
theorem Term.agrees_of_matchList? {ts us : List Term}
    (hts : ∀ t ∈ ts, ∀ {σ τ : Substitution} {u : Term}, Term.match? σ t u = some τ →
      (τ.Agrees ρ ↔ σ.Agrees ρ ∧ t.subst ρ = u))
    (hlen : ts.length = us.length) (h : Term.matchList? σ ts us = some τ) :
    τ.Agrees ρ ↔ σ.Agrees ρ ∧ ts.map (Term.subst ρ) = us := by
  induction ts generalizing us σ with
  | nil =>
    obtain rfl : us = [] := by simpa using hlen.symm
    obtain rfl : σ = τ := by simpa [matchList?] using h
    simp
  | cons t ts ih =>
    cases us with
    | nil => simp at hlen
    | cons u us =>
      obtain ⟨ht, hts⟩ := List.forall_mem_cons.mp hts
      unfold matchList? at h
      split at h
      next => cases h
      next υ hυ =>
        rw [ih hts (by simpa using hlen) h, ht hυ, List.map_cons, List.cons.injEq, and_assoc]

theorem Term.agrees_of_match? {t u : Term} (h : Term.match? σ t u = some τ) :
    τ.Agrees ρ ↔ σ.Agrees ρ ∧ t.subst ρ = u := by
  induction t using Term.induction generalizing σ τ u with
  | var x =>
    unfold match? at h
    split at h
    next v hv =>
      split at h
      next hvu =>
        obtain rfl := Option.some.inj h
        exact ⟨fun hσ => ⟨hσ, (hσ x v hv).trans hvu⟩, And.left⟩
      next => cases h
    next hv =>
      obtain rfl := Option.some.inj h
      exact Substitution.agrees_insert hv
  | const c =>
    unfold match? at h
    split at h
    next hu =>
      obtain rfl := Option.some.inj h
      simp [subst, hu]
    next => cases h
  | app f ts ih =>
    cases u with
    | var y => simp [match?] at h
    | const c => simp [match?] at h
    | app g us =>
      unfold match? at h
      split at h
      next hfg =>
        obtain ⟨rfl, hlen⟩ := hfg
        rw [subst_app, Term.app.injEq, agrees_of_matchList? (fun t ht => ih t ht) hlen h]
        simp
      next => cases h

/-- Lists of terms are matched with their instances if terms are. -/
theorem Term.exists_matchList? {ts : List Term}
    (hts : ∀ t ∈ ts, ∀ {σ : Substitution}, σ.Agrees ρ → ∃ τ, Term.match? σ t (t.subst ρ) = some τ)
    (hσ : σ.Agrees ρ) : ∃ τ, Term.matchList? σ ts (ts.map (Term.subst ρ)) = some τ := by
  induction ts generalizing σ with
  | nil => exact ⟨σ, by simp [matchList?]⟩
  | cons t ts ih =>
    obtain ⟨ht, hts⟩ := List.forall_mem_cons.mp hts
    obtain ⟨υ, hυ⟩ := ht hσ
    obtain ⟨τ, hτ⟩ := ih hts ((agrees_of_match? hυ).mpr ⟨hσ, rfl⟩)
    refine ⟨τ, ?_⟩
    rw [List.map_cons, matchList?, hυ]
    exact hτ

/-- A term is matched with each of its instances under which the bindings are kept. -/
theorem Term.exists_match? (hσ : σ.Agrees ρ) (t : Term) :
    ∃ τ, Term.match? σ t (t.subst ρ) = some τ := by
  induction t using Term.induction generalizing σ with
  | var x =>
    rw [subst, match?]
    cases hx : σ.find? x with
    | none => exact ⟨_, rfl⟩
    | some u => exact ⟨σ, if_pos (hσ x u hx).symm⟩
  | const c => exact ⟨σ, by simp [subst, match?]⟩
  | app f ts ih =>
    rw [subst_app, match?, if_pos ⟨rfl, (List.length_map _).symm⟩]
    exact exists_matchList? (fun t ht _ hσ => ih t ht hσ) hσ

/-- An ordinary atom is matched with its instances as its arguments are. -/
theorem Atom.agrees_of_match? {a b : Atom} (ha : a.symbol ≠ .equality)
    (h : a.match? σ b = some τ) : τ.Agrees ρ ↔ σ.Agrees ρ ∧ a.subst ρ = b := by
  cases a with
  | eq l r => exact absurd rfl ha
  | pred p ts =>
    unfold match? at h
    split at h
    next hab =>
      obtain ⟨hsymbol, hlen⟩ := hab
      cases b with
      | eq l r => exact absurd hsymbol ha
      | pred q us =>
        obtain rfl : p = q := hsymbol
        split at h
        next υ hυ =>
          obtain rfl := Option.some.inj h
          rw [Term.agrees_of_matchList? (fun t _ => Term.agrees_of_match?) hlen hυ]
          simp [subst, args]
        next => cases h
    next => cases h

theorem Atom.exists_subst_of_match? {a b : Atom} (ha : a.symbol ≠ .equality)
    (h : (a.match? σ b).isSome = true) : ∃ ρ, a.subst ρ = b := by
  obtain ⟨τ, hτ⟩ := Option.isSome_iff_exists.mp h
  obtain ⟨ρ, hρ⟩ := τ.exists_agrees
  exact ⟨ρ, ((agrees_of_match? ha hτ).mp hρ).2⟩

/-! ## Section 2: Equations may be turned round -/

/-- A replacement makes one atom of another; if that is an equation, the sides may change places. -/
def Atom.MapsTo (ρ : Ident → Term) (a b : Atom) : Prop :=
  a.symbol = b.symbol ∧
    (a.args.map (Term.subst ρ) = b.args ∨
      a.isEq = true ∧ a.args.map (Term.subst ρ) = b.args.reverse)

/-- A replacement makes one literal of another. -/
def Literal.MapsTo (ρ : Ident → Term) (l m : Literal) : Prop :=
  l.positive = m.positive ∧ l.atom.MapsTo ρ m.atom

private theorem Atom.mapsTo_of_match? {a b : Atom} (h : a.match? σ b = some τ) (hρ : τ.Agrees ρ) :
    σ.Agrees ρ ∧ a.MapsTo ρ b := by
  unfold match? at h
  split at h
  next hab =>
    obtain ⟨hsymbol, hlen⟩ := hab
    split at h
    next υ hυ =>
      obtain rfl := Option.some.inj h
      obtain ⟨hσ, hargs⟩ :=
        (Term.agrees_of_matchList? (fun t _ => Term.agrees_of_match?) hlen hυ).mp hρ
      exact ⟨hσ, hsymbol, Or.inl hargs⟩
    next =>
      -- only the sides of an equation are tried the other way round
      split at h
      next heq =>
        have hlen' : a.args.length = b.args.reverse.length := by rw [List.length_reverse, hlen]
        obtain ⟨hσ, hargs⟩ :=
          (Term.agrees_of_matchList? (fun t _ => Term.agrees_of_match?) hlen' h).mp hρ
        exact ⟨hσ, hsymbol, Or.inr ⟨heq, hargs⟩⟩
      next => cases h
  next => cases h

theorem Literal.mapsTo_of_match? {l m : Literal} (h : l.match? σ m = some τ) (hρ : τ.Agrees ρ) :
    σ.Agrees ρ ∧ l.MapsTo ρ m := by
  unfold match? at h
  split at h
  next hsign =>
    obtain ⟨hσ, hatom⟩ := Atom.mapsTo_of_match? h hρ
    exact ⟨hσ, hsign, hatom⟩
  next => cases h

/-- The order of the sides is kept if there are none. -/
theorem Literal.MapsTo.args_eq {l m : Literal} (h : l.MapsTo ρ m) (hl : l.atom.isEq = false) :
    l.atom.args.map (Term.subst ρ) = m.atom.args := by
  obtain ⟨-, -, hargs | ⟨heq, -⟩⟩ := h
  · exact hargs
  · rw [hl] at heq
    cases heq

/-- A literal is matched with what a replacement makes of it, the sides of equations in their
    order, and the bindings found are kept by the replacement. -/
theorem Literal.exists_match? {l m : Literal} (h : l.MapsTo ρ m)
    (hargs : l.atom.args.map (Term.subst ρ) = m.atom.args) (hσ : σ.Agrees ρ) :
    ∃ τ, l.match? σ m = some τ ∧ τ.Agrees ρ := by
  obtain ⟨hsign, hsymbol, -⟩ := h
  have hlen : l.atom.args.length = m.atom.args.length := by rw [← hargs, List.length_map]
  obtain ⟨τ, hτ⟩ := Term.exists_matchList? (fun t _ _ hσ => Term.exists_match? hσ t) hσ
  rw [hargs] at hτ
  refine ⟨τ, ?_, ?_⟩
  · rw [match?, if_pos hsign, Atom.match?, if_pos ⟨hsymbol, hlen⟩, hτ]
  · have hτρ := Term.agrees_of_matchList? (ρ := ρ) (fun t _ => Term.agrees_of_match?) hlen hτ
    exact hτρ.mpr ⟨hσ, hargs⟩

end Clausal
