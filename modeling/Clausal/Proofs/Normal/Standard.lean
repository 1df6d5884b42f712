import Clausal.Proofs.Semantics

/-!
# Meaning of standardising apart

Standardising apart renames free and bound variables to fresh ones.  Every quantifier of the result
binds a variable of its own, so no two scopes interfere, and the meaning stays the same.

## Main definitions

- `Formula.bound`: the variables that quantifiers bind
- `Formula.WellScoped`: variables are bound or given, and no scope hides another one
- `Formula.Separated`: every quantifier has a variable of its own
- `Ident.underlying`: the name that a standardised variable stands for

## Main statements

- `Formula.separated_standardise`
- `Interpretation.models_standardise`
-/

namespace Clausal

universe u

namespace Formula

/-! ## Section 1: Scopes -/

/-- The variables of the quantifiers of a formula from left to right. -/
def bound : Formula → List Ident
  | .atom _ => []
  | .not f => f.bound
  | .and f g | .or f g | .imp f g | .iff f g => f.bound ++ g.bound
  | .all x f | .ex x f => x :: f.bound

/-- Every variable of an atom is among `B` or bound, and no quantifier binds a variable of `B` or
    one that is bound further out. -/
def WellScoped (B : List Ident) : Formula → Prop
  | .atom a => ∀ x ∈ a.vars, x ∈ B
  | .not f => f.WellScoped B
  | .and f g | .or f g | .imp f g | .iff f g => f.WellScoped B ∧ g.WellScoped B
  | .all x f | .ex x f => x ∉ B ∧ f.WellScoped (x :: B)

/-- The free variables are among `B`, and the quantifiers bind pairwise different variables that are
    not among `B`. -/
structure Separated (B : List Ident) (f : Formula) : Prop where
  free : ∀ x ∈ f.freeVars, x ∈ B
  nodup : f.bound.Nodup
  fresh : ∀ x ∈ f.bound, x ∉ B

namespace Separated

variable {B : List Ident} {f g h : Formula} {x : Ident}

/-- The two parts of a formula are separated, also from each other. -/
theorem parts (hs : h.Separated B) (hfree : h.freeVars = f.freeVars ++ g.freeVars)
    (hbound : h.bound = f.bound ++ g.bound) :
    f.Separated B ∧ g.Separated B ∧ ∀ x ∈ g.bound, x ∉ f.bound := by
  obtain ⟨free, nodup, fresh⟩ := hs
  rw [hfree, List.forall_mem_append] at free
  rw [hbound, List.forall_mem_append] at fresh
  rw [hbound, List.nodup_append] at nodup
  obtain ⟨hf, hg, hfg⟩ := nodup
  exact ⟨⟨free.1, hf, fresh.1⟩, ⟨free.2, hg, fresh.2⟩, fun x hxg hxf => hfg x hxf x hxg rfl⟩

/-- The body of a quantified formula is separated, with the bound variable given. -/
theorem body (hs : h.Separated B) (hfree : h.freeVars = f.freeVars.filter (· ≠ x))
    (hbound : h.bound = x :: f.bound) : x ∉ B ∧ f.Separated (x :: B) := by
  obtain ⟨free, nodup, fresh⟩ := hs
  rw [hbound, List.forall_mem_cons] at fresh
  rw [hbound, List.nodup_cons] at nodup
  refine ⟨fresh.1, fun y hy => ?_, nodup.2, fun y hy => ?_⟩
  · by_cases hyx : y = x
    · exact hyx ▸ List.mem_cons_self
    · exact List.mem_cons_of_mem _ (free y (by simpa [hfree] using ⟨hy, hyx⟩))
  · rw [List.mem_cons]
    rintro (rfl | hB)
    · exact nodup.1 hy
    · exact fresh.2 y hy hB

theorem wellScoped (hs : f.Separated B) : f.WellScoped B := by
  induction f generalizing B with
  | atom a => exact hs.free
  | not f ih => exact ih ⟨hs.free, hs.nodup, hs.fresh⟩
  | and f g ihf ihg | or f g ihf ihg | imp f g ihf ihg | iff f g ihf ihg =>
    obtain ⟨hf, hg, -⟩ := hs.parts rfl rfl
    exact ⟨ihf hf, ihg hg⟩
  | all x f ih | ex x f ih =>
    obtain ⟨hx, hf⟩ := hs.body rfl rfl
    exact ⟨hx, ih hf⟩

end Separated

/-! ## Section 2: The variables of a standardised formula -/

theorem mem_bound_standardiseFrom {origin : Option Nat} {n : Nat} {ρ : Ident → Ident} {f : Formula}
    {x : Ident} (hx : x ∈ (f.standardiseFrom origin n ρ).bound) :
    ∃ k y, x = .standard k y origin ∧ n ≤ k ∧ k < n + f.quantifiers := by
  induction f generalizing n ρ with
  | atom a => simp [standardiseFrom, bound] at hx
  | not f ih => exact ih hx
  | and f g ihf ihg | or f g ihf ihg | imp f g ihf ihg | iff f g ihf ihg =>
    rcases List.mem_append.mp hx with hx | hx
    · obtain ⟨k, y, rfl, hk, hk'⟩ := ihf hx
      exact ⟨k, y, rfl, hk, by simp only [quantifiers]; omega⟩
    · obtain ⟨k, y, rfl, hk, hk'⟩ := ihg hx
      exact ⟨k, y, rfl, by omega, by simp only [quantifiers]; omega⟩
  | all z f ih | ex z f ih =>
    rcases List.mem_cons.mp hx with rfl | hx
    · exact ⟨n, z, rfl, Nat.le_refl n, by simp only [quantifiers]; omega⟩
    · obtain ⟨k, y, rfl, hk, hk'⟩ := ih hx
      exact ⟨k, y, rfl, by omega, by simp only [quantifiers]; omega⟩

/-- Every quantifier of a standardised formula has its own variable. -/
theorem nodup_bound_standardiseFrom (origin : Option Nat) (n : Nat) (ρ : Ident → Ident)
    (f : Formula) : (f.standardiseFrom origin n ρ).bound.Nodup := by
  induction f generalizing n ρ with
  | atom a => exact List.nodup_nil
  | not f ih => exact ih n ρ
  | and f g ihf ihg | or f g ihf ihg | imp f g ihf ihg | iff f g ihf ihg =>
    -- the serials of the left part end where those of the right part begin
    refine List.nodup_append.mpr ⟨ihf n ρ, ihg _ ρ, fun x hx y hy hxy => ?_⟩
    obtain ⟨k, z, rfl, -, hk⟩ := mem_bound_standardiseFrom hx
    obtain ⟨k', z', rfl, hk', -⟩ := mem_bound_standardiseFrom hy
    obtain ⟨rfl, -⟩ := Ident.standard.inj hxy
    omega
  | all z f ih | ex z f ih =>
    refine List.nodup_cons.mpr ⟨fun hz => ?_, ih _ _⟩
    obtain ⟨k, y, hk, hn, -⟩ := mem_bound_standardiseFrom hz
    obtain ⟨rfl, -⟩ := Ident.standard.inj hk
    omega

private theorem mem_freeVars_standardiseFrom {origin : Option Nat} {n : Nat} {ρ : Ident → Ident}
    {f : Formula} {x : Ident} (hx : x ∈ (f.standardiseFrom origin n ρ).freeVars) :
    ∃ y ∈ f.freeVars, ρ y = x := by
  induction f generalizing n ρ with
  | atom a =>
    obtain ⟨y, hy, hxy⟩ := Atom.mem_vars_subst.mp hx
    have hxy : x = ρ y := by simpa [Term.vars] using hxy
    exact ⟨y, hy, hxy.symm⟩
  | not f ih => exact ih hx
  | and f g ihf ihg | or f g ihf ihg | imp f g ihf ihg | iff f g ihf ihg =>
    rcases List.mem_append.mp hx with hx | hx
    · obtain ⟨y, hy, hyx⟩ := ihf hx
      exact ⟨y, List.mem_append_left _ hy, hyx⟩
    · obtain ⟨y, hy, hyx⟩ := ihg hx
      exact ⟨y, List.mem_append_right _ hy, hyx⟩
  | all z f ih | ex z f ih =>
    obtain ⟨hx, hne⟩ := List.mem_filter.mp hx
    have hne : x ≠ .standard n z origin := by simpa using hne
    obtain ⟨y, hy, hyx⟩ := ih hx
    by_cases hyz : y = z
    · exact absurd (by rw [← hyx, rebind, if_pos hyz]) hne
    · refine ⟨y, List.mem_filter.mpr ⟨hy, by simpa using hyz⟩, ?_⟩
      rw [← hyx, rebind, if_neg hyz]

/-- Standardising apart renames the variables of atoms and does nothing else to them. -/
theorem mem_atoms_standardiseFrom {origin : Option Nat} {n : Nat} {ρ : Ident → Ident} {f : Formula}
    {a : Atom} (ha : a ∈ (f.standardiseFrom origin n ρ).atoms) :
    ∃ b ∈ f.atoms, ∃ ρ' : Ident → Ident, a = b.subst fun x => .var (ρ' x) := by
  induction f generalizing n ρ with
  | atom b => exact ⟨b, List.mem_singleton_self b, ρ, List.mem_singleton.mp ha⟩
  | not f ih | all z f ih | ex z f ih => exact ih ha
  | and f g ihf ihg | or f g ihf ihg | imp f g ihf ihg | iff f g ihf ihg =>
    rcases List.mem_append.mp ha with ha | ha
    · obtain ⟨b, hb, h⟩ := ihf ha
      exact ⟨b, List.mem_append_left _ hb, h⟩
    · obtain ⟨b, hb, h⟩ := ihg ha
      exact ⟨b, List.mem_append_right _ hb, h⟩

end Formula

/-! ## Section 3: Meaning -/

namespace Interpretation

variable {D : Type u} (I : Interpretation D)

/-- A renaming to names handed out before `n` meets no quantifier that takes a serial from `n` on. -/
theorem holds_standardiseFrom (origin : Option Nat) {n : Nat} {ρ : Ident → Ident} {f : Formula}
    {v w : Ident → D} (hρ : ∀ x ∈ f.freeVars, (ρ x).Below n)
    (hv : ∀ x ∈ f.freeVars, w (ρ x) = v x) :
    I.Holds w (f.standardiseFrom origin n ρ) ↔ I.Holds v f := by
  -- what a quantifier's own variable adds to the correspondence of the two valuations
  have under {n : Nat} {ρ : Ident → Ident} {v w : Ident → D} {z : Ident} {f : Formula}
      (hρ : ∀ x ∈ f.freeVars.filter (· ≠ z), (ρ x).Below n)
      (hv : ∀ x ∈ f.freeVars.filter (· ≠ z), w (ρ x) = v x) (d : D) :
      (∀ x ∈ f.freeVars, (rebind ρ z (.standard n z origin) x).Below (n + 1)) ∧
      ∀ x ∈ f.freeVars, Function.update w (.standard n z origin) d
        (rebind ρ z (.standard n z origin) x) = Function.update v z d x := by
    constructor <;> intro x hx <;> by_cases hxz : x = z
    · rw [rebind, if_pos hxz]
      exact Nat.lt_succ_self n
    · rw [rebind, if_neg hxz]
      exact (hρ x (by simpa using ⟨hx, hxz⟩)).mono (Nat.le_succ n)
    · simp [rebind, hxz]
    · have hx' : x ∈ f.freeVars.filter (· ≠ z) := by simpa using ⟨hx, hxz⟩
      have hne : ρ x ≠ .standard n z origin := by
        intro h
        have hlt : (Ident.standard n z origin).Below n := h ▸ hρ x hx'
        exact Nat.lt_irrefl n hlt
      rw [rebind, if_neg hxz, Function.update_of_ne hne, Function.update_of_ne hxz, hv x hx']
  induction f generalizing n ρ v w with
  | atom a =>
    rw [Formula.standardiseFrom, Holds, Holds, holdsAtom_subst]
    exact I.holdsAtom_congr fun x hx => hv x hx
  | not f ih => exact not_congr (ih hρ hv)
  | and f g ihf ihg | or f g ihf ihg | imp f g ihf ihg | iff f g ihf ihg =>
    have hf := ihf (fun x hx => hρ x (List.mem_append_left _ hx))
      (fun x hx => hv x (List.mem_append_left _ hx))
    have hg := ihg (n := n + f.quantifiers)
      (fun x hx => (hρ x (List.mem_append_right _ hx)).mono (Nat.le_add_right _ _))
      (fun x hx => hv x (List.mem_append_right _ hx))
    simp only [Formula.standardiseFrom, Holds, hf, hg]
  | all z f ih => exact forall_congr' fun d => ih (under hρ hv d).1 (under hρ hv d).2
  | ex z f ih => exact exists_congr fun d => ih (under hρ hv d).1 (under hρ hv d).2

end Interpretation

theorem mem_dedup_freeVars {f : Formula} {x : Ident} : x ∈ dedup f.freeVars ↔ x ∈ f.freeVars := by
  have h := exists_mem_dedup (p := fun y => y = x)
    (fun a b hab hb => (beq_iff_eq.mp hab).trans hb) f.freeVars
  simpa using h

/-- The fresh variables of free variables are handed out before those of quantifiers. -/
theorem standardFree_below (origin : Option Nat) (n : Nat) {xs : List Ident} {x : Ident}
    (hx : x ∈ xs) : (standardFree origin n xs x).Below (n + xs.length) :=
  Nat.add_lt_add_left (List.idxOf_lt_length_of_mem hx) n

namespace Formula

variable {origin : Option Nat} {s : Names} {f : Formula}

/-- All variables of a standardised formula are fresh ones of their own. -/
theorem separated_standardise :
    (f.standardise origin s).1.result.Separated (f.standardise origin s).1.free where
  free x hx := by
    obtain ⟨y, hy, rfl⟩ := mem_freeVars_standardiseFrom hx
    exact List.mem_map.mpr ⟨y, mem_dedup_freeVars.mpr hy, rfl⟩
  nodup := nodup_bound_standardiseFrom _ _ _ _
  fresh x hx hfree := by
    obtain ⟨y, hy, rfl⟩ := List.mem_map.mp hfree
    obtain ⟨k, z, hk, hle, -⟩ := mem_bound_standardiseFrom hx
    have hlt := standardFree_below origin s.next hy
    rw [hk] at hlt
    exact absurd hlt (Nat.not_lt.mpr hle)

end Formula

/-- The name that a standardised variable stands for. -/
def Ident.underlying : Ident → Ident
  | .standard _ x _ => x
  | y => y

namespace Interpretation

variable {D : Type u} (I : Interpretation D)

/-- Standardising apart does not change what a formula says. -/
theorem models_standardise (origin : Option Nat) (s : Names) (f : Formula) :
    I.Models (f.standardise origin s).1.result ↔ I.Models f := by
  have hρ : ∀ x ∈ f.freeVars, (standardFree origin s.next (dedup f.freeVars) x).Below
      (s.next + (dedup f.freeVars).length) := fun x hx =>
    standardFree_below origin s.next (mem_dedup_freeVars.mpr hx)
  constructor
  · intro h v
    -- a fresh variable carries the name it stands for, and with it the value to give it
    exact (I.holds_standardiseFrom origin hρ fun x _ => rfl).mp (h fun y => v y.underlying)
  · intro h w
    exact (I.holds_standardiseFrom origin hρ fun x _ => rfl).mpr
      (h fun x => w (standardFree origin s.next (dedup f.freeVars) x))

end Interpretation

end Clausal
