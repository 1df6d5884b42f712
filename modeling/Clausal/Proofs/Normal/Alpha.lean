import Clausal.Node.Operation
import Clausal.Proofs.Normal.Freshness
import Clausal.Proofs.Substitution.Capture

/-!
# Renaming without capture

Two formulas are the same up to their bound variables if they are built alike and variables in the
same place are bound by quantifiers in the same place, or are free and the same.  Quantifiers that
correspond to each other are listed in pairs on the way down, so hidden ones are never looked at.

Standardising apart gives a formula that is the same as the original one in this sense, once the
fresh variables of the free ones have been put in place of these.  The fresh variables have not been
handed out before, so no quantifier of the original formula captures one, and a quantifier of the
result has no variable in common with anything else.

## Main definitions

- `Linked`, `Formula.AlphaEq`: sameness up to bound variables
- `Formula.RenamedApart`: what standardising apart does to a formula

## Main statements

- `Interpretation.holds_iff_of_alphaEq`: what is the same up to bound variables is true together
- `Formula.alphaEq_standardiseFrom`
- `standardisation_renames`
-/

namespace Clausal

universe u

/-! ## Section 1: Formulas up to bound variables -/

/-- Two variables are bound by corresponding quantifiers, or both free and the same.  The variables
    of corresponding quantifiers are listed in pairs, the innermost first. -/
def Linked : List (Ident × Ident) → Ident → Ident → Prop
  | [], x, y => x = y
  | (a, b) :: Γ, x, y => x = a ∧ y = b ∨ x ≠ a ∧ y ≠ b ∧ Linked Γ x y

/-- Terms whose variables are linked. -/
inductive Term.AlphaEq (Γ : List (Ident × Ident)) : Term → Term → Prop
  | var {x y : Ident} (h : Linked Γ x y) : AlphaEq Γ (.var x) (.var y)
  | const (c : Ident) : AlphaEq Γ (.const c) (.const c)
  | app {f : Ident} {ss ts : List Term} (hlen : ss.length = ts.length)
      (h : ∀ e ∈ ss.zip ts, AlphaEq Γ e.1 e.2) : AlphaEq Γ (.app f ss) (.app f ts)

/-- Atoms whose variables are linked. -/
inductive Atom.AlphaEq (Γ : List (Ident × Ident)) : Atom → Atom → Prop
  | pred {p : Ident} {ss ts : List Term} (hlen : ss.length = ts.length)
      (h : ∀ e ∈ ss.zip ts, e.1.AlphaEq Γ e.2) : AlphaEq Γ (.pred p ss) (.pred p ts)
  | eq {l l' r r' : Term} (hl : l.AlphaEq Γ l') (hr : r.AlphaEq Γ r') :
      AlphaEq Γ (.eq l r) (.eq l' r')

/-- Formulas that are the same up to bound variables, below the quantifiers in `Γ`. -/
inductive Formula.AlphaEq : List (Ident × Ident) → Formula → Formula → Prop
  | atom {Γ : List (Ident × Ident)} {a b : Atom} (h : a.AlphaEq Γ b) :
      AlphaEq Γ (.atom a) (.atom b)
  | not {Γ : List (Ident × Ident)} {f f' : Formula} (h : AlphaEq Γ f f') :
      AlphaEq Γ (.not f) (.not f')
  | and {Γ : List (Ident × Ident)} {f f' g g' : Formula} (hf : AlphaEq Γ f f')
      (hg : AlphaEq Γ g g') : AlphaEq Γ (.and f g) (.and f' g')
  | or {Γ : List (Ident × Ident)} {f f' g g' : Formula} (hf : AlphaEq Γ f f')
      (hg : AlphaEq Γ g g') : AlphaEq Γ (.or f g) (.or f' g')
  | imp {Γ : List (Ident × Ident)} {f f' g g' : Formula} (hf : AlphaEq Γ f f')
      (hg : AlphaEq Γ g g') : AlphaEq Γ (.imp f g) (.imp f' g')
  | iff {Γ : List (Ident × Ident)} {f f' g g' : Formula} (hf : AlphaEq Γ f f')
      (hg : AlphaEq Γ g g') : AlphaEq Γ (.iff f g) (.iff f' g')
  | all {Γ : List (Ident × Ident)} {x y : Ident} {f g : Formula}
      (h : AlphaEq ((x, y) :: Γ) f g) : AlphaEq Γ (.all x f) (.all y g)
  | ex {Γ : List (Ident × Ident)} {x y : Ident} {f g : Formula}
      (h : AlphaEq ((x, y) :: Γ) f g) : AlphaEq Γ (.ex x f) (.ex y g)

/-- Instances of a term are the same up to bound variables if the terms put in are. -/
theorem Term.AlphaEq.subst {Γ : List (Ident × Ident)} {θ θ' : Ident → Term} {t : Term}
    (h : ∀ x ∈ t.vars, (θ x).AlphaEq Γ (θ' x)) : (t.subst θ).AlphaEq Γ (t.subst θ') := by
  induction t using Term.induction with
  | var x => exact h x (by simp [Term.vars])
  | const c => exact .const c
  | app f ts ih =>
    rw [Term.subst_app, Term.subst_app]
    refine .app (by simp) fun e he => ?_
    rw [List.zip_map', List.mem_map] at he
    obtain ⟨t, ht, rfl⟩ := he
    exact ih t ht fun x hx => h x (by simpa using ⟨t, ht, hx⟩)

private theorem Atom.AlphaEq.subst {Γ : List (Ident × Ident)} {θ θ' : Ident → Term} {a : Atom}
    (h : ∀ x ∈ a.vars, (θ x).AlphaEq Γ (θ' x)) : (a.subst θ).AlphaEq Γ (a.subst θ') := by
  have hargs : ∀ t ∈ a.args, (t.subst θ).AlphaEq Γ (t.subst θ') := fun t ht =>
    .subst fun x hx => h x (List.mem_flatMap.mpr ⟨t, ht, hx⟩)
  cases a with
  | pred p ts =>
    refine .pred (by simp) fun e he => ?_
    rw [List.zip_map', List.mem_map] at he
    obtain ⟨t, ht, rfl⟩ := he
    exact hargs t ht
  | eq l r => exact .eq (hargs l (by simp [Atom.args])) (hargs r (by simp [Atom.args]))

/-! ## Section 2: Truth -/

/-- Functions that agree on pairs give the same images of the two lists. -/
theorem map_eq_map_of_zip {α β γ : Type*} {g : α → γ} {h : β → γ} {as : List α} {bs : List β}
    (hlen : as.length = bs.length) (heq : ∀ e ∈ as.zip bs, g e.1 = h e.2) :
    as.map g = bs.map h := by
  induction as generalizing bs with
  | nil =>
    cases bs with
    | nil => rfl
    | cons b bs => cases hlen
  | cons a as ih =>
    cases bs with
    | nil => cases hlen
    | cons b bs =>
      obtain ⟨hab, hrest⟩ := List.forall_mem_cons.mp heq
      rw [List.map_cons, List.map_cons, hab, ih (Nat.succ.inj hlen) hrest]

theorem zip_map_self {α β : Type*} (g : α → β) (l : List α) :
    l.zip (l.map g) = l.map fun a => (a, g a) := by
  have h := List.zip_map' (f := id) (g := g) (l := l)
  rwa [List.map_id] at h

namespace Interpretation

variable {D : Type u} (I : Interpretation D) {Γ : List (Ident × Ident)} {v w : Ident → D}

private theorem eval_eq_of_alphaEq {s t : Term} (h : s.AlphaEq Γ t)
    (hv : ∀ x y, Linked Γ x y → v x = w y) : I.eval v s = I.eval w t := by
  induction h with
  | var h => exact hv _ _ h
  | const c => rfl
  | app hlen _ ih => rw [eval_app, eval_app, map_eq_map_of_zip hlen ih]

private theorem holdsAtom_iff_of_alphaEq {a b : Atom} (h : a.AlphaEq Γ b)
    (hv : ∀ x y, Linked Γ x y → v x = w y) : I.HoldsAtom v a ↔ I.HoldsAtom w b := by
  cases h with
  | pred hlen h =>
    rw [HoldsAtom, HoldsAtom, map_eq_map_of_zip hlen fun e he => I.eval_eq_of_alphaEq (h e he) hv]
  | eq hl hr =>
    rw [HoldsAtom, HoldsAtom, I.eval_eq_of_alphaEq hl hv, I.eval_eq_of_alphaEq hr hv]

/-- Corresponding quantifiers give their variables the same value. -/
theorem update_eq_of_linked (hv : ∀ x y, Linked Γ x y → v x = w y) (a b : Ident) (d : D)
    (x y : Ident) (h : Linked ((a, b) :: Γ) x y) :
    Function.update v a d x = Function.update w b d y := by
  rcases h with ⟨rfl, rfl⟩ | ⟨hx, hy, h⟩
  · rw [Function.update_self, Function.update_self]
  · rw [Function.update_of_ne hx, Function.update_of_ne hy, hv x y h]

/-- Formulas that are the same up to bound variables are true together. -/
theorem holds_iff_of_alphaEq {f g : Formula} (h : f.AlphaEq Γ g)
    (hv : ∀ x y, Linked Γ x y → v x = w y) : I.Holds v f ↔ I.Holds w g := by
  induction h generalizing v w with
  | atom h => exact I.holdsAtom_iff_of_alphaEq h hv
  | not _ ih => exact not_congr (ih hv)
  | and _ _ ihf ihg => exact and_congr (ihf hv) (ihg hv)
  | or _ _ ihf ihg => exact or_congr (ihf hv) (ihg hv)
  | imp _ _ ihf ihg => exact imp_congr (ihf hv) (ihg hv)
  | iff _ _ ihf ihg => exact iff_congr (ihf hv) (ihg hv)
  | all _ ih => exact forall_congr' fun d => ih (update_eq_of_linked hv _ _ d)
  | ex _ ih => exact exists_congr fun d => ih (update_eq_of_linked hv _ _ d)

end Interpretation

/-! ## Section 3: Replacing variables by fresh ones -/

namespace Substitution

variable {m : Nat} {ρ : Ident → Ident} {σ : Substitution} {x : Ident}

/-- Every bound variable was handed out before the serial `m`, and it is bound to the variable that
    `ρ` says, which was not. -/
structure Freshens (m : Nat) (ρ : Ident → Ident) (σ : Substitution) : Prop where
  var : ∀ x t, σ.find? x = some t → t = .var (ρ x)
  old : ∀ x t, σ.find? x = some t → x.Below m
  new : ∀ x t, σ.find? x = some t → ¬ (ρ x).Below m

private theorem find?_ofList_map (g : Ident → Term) (xs : List Ident) (y : Ident) :
    (ofList (xs.map fun x => (x, g x))).find? y = if y ∈ xs then some (g y) else none := by
  have hfold (σ : Substitution) : (xs.foldl (fun τ x => τ.insert x (g x)) σ).find? y =
      if y ∈ xs then some (g y) else σ.find? y := by
    induction xs generalizing σ with
    | nil => simp
    | cons x xs ih =>
      rw [List.foldl_cons, ih, find?_insert]
      by_cases hxs : y ∈ xs <;> by_cases hx : y = x <;> simp [hxs, hx]
  rw [ofList, List.foldl_map, hfold, find?_empty]

namespace Freshens

theorem erase (h : σ.Freshens m ρ) (z : Ident) : (σ.erase z).Freshens m ρ := by
  have hfind : ∀ x t, (σ.erase z).find? x = some t → σ.find? x = some t := by
    intro x t ht
    rw [find?_erase] at ht
    split at ht
    next => cases ht
    next => exact ht
  exact ⟨fun x t ht => h.var x t (hfind x t ht), fun x t ht => h.old x t (hfind x t ht),
    fun x t ht => h.new x t (hfind x t ht)⟩

private theorem acyclic (h : σ.Freshens m ρ) : σ.Acyclic := by
  -- bindings lead from old variables to new ones only
  refine acyclic_of_rank (fun x => if x.Below m then 1 else 0) fun x y hxy => ?_
  obtain ⟨t, ht, hy⟩ := hxy
  rw [h.var x t ht] at hy
  obtain rfl := List.mem_singleton.mp hy
  simp [h.old x t ht, h.new x t ht]

theorem value_of_bound (h : σ.Freshens m ρ) {t : Term} (ht : σ.find? x = some t) :
    σ.value x = .var (ρ x) := by
  have hunbound : σ.find? (ρ x) = none := by
    cases hρ : σ.find? (ρ x) with
    | none => rfl
    | some u => exact absurd (h.old _ u hρ) (h.new x t ht)
  rw [h.acyclic.value_of_bound ht, h.var x t ht, apply_var, value_of_unbound hunbound]

/-- Below a quantifier for an old variable, other variables stand for what they stood for: the
    quantifier captures nothing. -/
theorem alphaEq_value_erase (h : σ.Freshens m ρ) {Γ : List (Ident × Ident)} {x y z b : Ident}
    (hz : z.Below m) (hxz : x ≠ z) (hyb : y ≠ b) (hxy : (σ.value x).AlphaEq Γ (.var y)) :
    ((σ.erase z).value x).AlphaEq ((z, b) :: Γ) (.var y) := by
  have hfind : (σ.erase z).find? x = σ.find? x := by rw [find?_erase, if_neg hxz]
  cases hx : σ.find? x with
  | none =>
    rw [value_of_unbound hx] at hxy
    rw [value_of_unbound (hfind.trans hx)]
    cases hxy with
    | var hlinked => exact .var (Or.inr ⟨hxz, hyb, hlinked⟩)
  | some t =>
    rw [h.value_of_bound hx] at hxy
    rw [(h.erase z).value_of_bound (hfind.trans hx)]
    -- `x` stands for a new variable, and the quantifier has an old one
    have hne : ρ x ≠ z := fun heq => h.new x t hx (heq ▸ hz)
    cases hxy with
    | var hlinked => exact .var (Or.inr ⟨hne, hyb, hlinked⟩)

end Freshens

end Substitution

theorem Term.mem_names_of_mem_vars {t : Term} {x : Ident} (hx : x ∈ t.vars) : x ∈ t.names := by
  induction t using Term.induction with
  | var y => exact hx
  | const c => cases hx
  | app f ts ih =>
    rw [Term.vars_app] at hx
    obtain ⟨t, ht, hx⟩ := List.mem_flatMap.mp hx
    exact List.mem_cons_of_mem _ (Term.mem_namesList.mpr ⟨t, ht, ih t ht hx⟩)

namespace Formula

/-- A formula in which old variables are replaced by new ones, and the standardised formula in which
    they are renamed accordingly, are the same up to bound variables. -/
theorem alphaEq_standardiseFrom (origin : Option Nat) {m n : Nat} {ρ ρ' : Ident → Ident}
    {σ : Substitution} {Γ : List (Ident × Ident)} {f : Formula} (hσ : σ.Freshens m ρ)
    (hbound : ∀ z ∈ f.bound, z.Below m) (hρ' : ∀ x ∈ f.freeVars, (ρ' x).Below n)
    (hvalue : ∀ x ∈ f.freeVars, (σ.value x).AlphaEq Γ (.var (ρ' x))) :
    (σ.applyFormula f).AlphaEq Γ (f.standardiseFrom origin n ρ') := by
  -- what is known of the variables below a quantifier for `z`, which gets the serial `n`
  have under {n : Nat} {ρ' : Ident → Ident} {σ : Substitution} {Γ : List (Ident × Ident)}
      {z : Ident} {f : Formula} (hσ : σ.Freshens m ρ) (hz : z.Below m)
      (hρ' : ∀ x ∈ f.freeVars.filter (· ≠ z), (ρ' x).Below n)
      (hvalue : ∀ x ∈ f.freeVars.filter (· ≠ z), (σ.value x).AlphaEq Γ (.var (ρ' x))) :
      ∀ x ∈ f.freeVars, (rebind ρ' z (.standard n z origin) x).Below (n + 1) ∧
        ((σ.erase z).value x).AlphaEq ((z, .standard n z origin) :: Γ)
          (.var (rebind ρ' z (.standard n z origin) x)) := by
    intro x hx
    by_cases hxz : x = z
    · subst hxz
      have hunbound : (σ.erase x).find? x = none := by rw [Substitution.find?_erase, if_pos rfl]
      rw [rebind, if_pos rfl, Substitution.value_of_unbound hunbound]
      exact ⟨Nat.lt_succ_self n, .var (Or.inl ⟨rfl, rfl⟩)⟩
    · have hx' : x ∈ f.freeVars.filter (· ≠ z) := List.mem_filter.mpr ⟨hx, by simpa using hxz⟩
      -- the serial `n` is handed out here, after all variables that `ρ'` gives
      have hne : ρ' x ≠ .standard n z origin := by
        intro heq
        have hlt : (Ident.standard n z origin).Below n := heq ▸ hρ' x hx'
        exact Nat.lt_irrefl n hlt
      rw [rebind, if_neg hxz]
      exact ⟨(hρ' x hx').mono (Nat.le_succ n),
        hσ.alphaEq_value_erase hz hxz hne (hvalue x hx')⟩
  induction f generalizing n ρ' σ Γ with
  | atom a => exact .atom (.subst hvalue)
  | not f ih => exact .not (ih hσ hbound hρ' hvalue)
  | and f g ihf ihg | or f g ihf ihg | imp f g ihf ihg | iff f g ihf ihg =>
    have hf := ihf hσ (fun z hz => hbound z (List.mem_append_left _ hz))
      (fun x hx => hρ' x (List.mem_append_left _ hx))
      (fun x hx => hvalue x (List.mem_append_left _ hx))
    have hg := ihg (n := n + f.quantifiers) hσ (fun z hz => hbound z (List.mem_append_right _ hz))
      (fun x hx => (hρ' x (List.mem_append_right _ hx)).mono (Nat.le_add_right _ _))
      (fun x hx => hvalue x (List.mem_append_right _ hx))
    constructor
    · exact hf
    · exact hg
  | all z f ih | ex z f ih =>
    -- substitution drops the binding of `z` where standardising rebinds it
    obtain ⟨hz, hbound⟩ := List.forall_mem_cons.mp hbound
    have hf := under hσ hz hρ' hvalue
    constructor
    exact ih (hσ.erase z) hbound (fun x hx => (hf x hx).1) fun x hx => (hf x hx).2

theorem mem_names_of_mem_bound {f : Formula} {x : Ident} (hx : x ∈ f.bound) : x ∈ f.names := by
  induction f with
  | atom a => cases hx
  | not f ih => exact ih hx
  | and f g ihf ihg | or f g ihf ihg | imp f g ihf ihg | iff f g ihf ihg =>
    exact List.mem_append.mpr ((List.mem_append.mp hx).imp ihf ihg)
  | all y f ih | ex y f ih => exact List.mem_cons.mpr ((List.mem_cons.mp hx).imp id ih)

private theorem mem_names_of_mem_freeVars {f : Formula} {x : Ident} (hx : x ∈ f.freeVars) :
    x ∈ f.names := by
  obtain ⟨a, ha, hx⟩ := exists_atom_of_mem_freeVars hx
  obtain ⟨t, ht, hx⟩ := List.mem_flatMap.mp hx
  exact names_of_mem_atoms ha (List.mem_cons_of_mem _ (Term.mem_namesList.mpr
    ⟨t, ht, Term.mem_names_of_mem_vars hx⟩))

/-! ## Section 4: Standardised formulas -/

/-- The formula with the variables `ys` in place of its free variables, in order of first
    occurrence. -/
def withFree (f : Formula) (ys : List Ident) : Formula :=
  (Substitution.ofList ((dedup f.freeVars).zip (ys.map .var))).applyFormula f

/-- The formula `g` is `f` with variables of its own: those of `ys` for the free variables, and one
    for each quantifier.  They are different from each other, and they have been handed out between
    the supplies `s` and `s'`, so that none of them is in `f`. -/
structure RenamedApart (s s' : Names) (f g : Formula) (ys : List Ident) : Prop where
  distinct : (ys ++ g.bound).Nodup
  fresh : ∀ y ∈ ys ++ g.bound, ¬ y.Below s.next ∧ y.Below s'.next
  unused : ∀ y ∈ ys ++ g.bound, y ∉ f.names
  order : ys.map Ident.underlying = dedup f.freeVars
  alpha : (f.withFree ys).AlphaEq [] g

variable {s : Names} {f : Formula}

/-- The fresh variable of a free variable of the formula. -/
def freshFree (s : Names) (f : Formula) : Ident → Ident :=
  standardFree (some s.sources.size) s.next (dedup f.freeVars)

theorem free_standardForm (s : Names) (f : Formula) :
    (f.standardForm s).1.free = (dedup f.freeVars).map (f.freshFree s) :=
  rfl

theorem freshFree_below {x : Ident} (hx : x ∈ f.freeVars) :
    (f.freshFree s x).Below (s.next + (dedup f.freeVars).length) :=
  standardFree_below _ _ (mem_dedup_freeVars.mpr hx)

private theorem not_below_freshFree (s : Names) (f : Formula) (x : Ident) :
    ¬ (f.freshFree s x).Below s.next :=
  Nat.not_lt.mpr (Nat.le_add_right _ _)

private theorem alphaEq_standardForm (hf : ∀ i ∈ f.names, i.Below s.next) :
    (f.withFree (f.standardForm s).1.free).AlphaEq [] (f.standardForm s).1.result := by
  let σ := Substitution.ofList ((dedup f.freeVars).map fun x => (x, .var (f.freshFree s x)))
  have hfind (x : Ident) : σ.find? x =
      if x ∈ f.freeVars then some (.var (f.freshFree s x)) else none := by
    rw [Substitution.find?_ofList_map fun x => .var (f.freshFree s x)]
    simp only [mem_dedup_freeVars]
  have hbound {x : Ident} {t : Term} (ht : σ.find? x = some t) :
      x ∈ f.freeVars ∧ t = .var (f.freshFree s x) := by
    rw [hfind] at ht
    split at ht
    next hx => exact ⟨hx, (Option.some.inj ht).symm⟩
    next => cases ht
  have hσ : σ.Freshens s.next (f.freshFree s) :=
    ⟨fun x t ht => (hbound ht).2, fun x t ht => hf x (mem_names_of_mem_freeVars (hbound ht).1),
      fun x t _ => not_below_freshFree s f x⟩
  have halpha : (σ.applyFormula f).AlphaEq [] (f.standardForm s).1.result := by
    refine alphaEq_standardiseFrom _ hσ (fun z hz => hf z (mem_names_of_mem_bound hz))
      (fun x hx => freshFree_below hx) fun x hx => ?_
    rw [hσ.value_of_bound ((hfind x).trans (if_pos hx))]
    exact .var rfl
  rw [withFree, free_standardForm, List.map_map, zip_map_self]
  exact halpha

private theorem renamedApart_standardForm (hf : ∀ i ∈ f.names, i.Below s.next) :
    f.RenamedApart s (f.standardForm s).2 (f.standardForm s).1.result (f.standardForm s).1.free where
  distinct := nodup_freshVariables s f
  fresh y hy := by
    refine ⟨?_, below_of_mem_standardForm (List.mem_append.mp hy)⟩
    obtain ⟨n, x, rfl, hn, -⟩ := mem_freshVariables hy
    exact Nat.not_lt.mpr hn
  unused y hy h := by
    obtain ⟨n, x, rfl, hn, -⟩ := mem_freshVariables hy
    exact Nat.not_lt.mpr hn (hf _ h)
  order := by
    rw [free_standardForm, List.map_map]
    exact List.map_id _
  alpha := alphaEq_standardForm hf

/-- The way with a table ends with the same formula; after it the table has the fresh variables of
    the free variables, and nothing else. -/
theorem standardiseScoped_standardForm (s : Names) (f : Formula) :
    ∃ τ, f.standardiseScoped (some s.sources.size) (f.freshFree s)
        (s.next + (dedup f.freeVars).length) .empty =
          some ((f.standardForm s).1.result, (f.standardForm s).2.next, τ) ∧
      (dedup f.freeVars).map τ.find? = (f.standardForm s).1.free.map some ∧
      ∀ x, x ∉ f.freeVars → τ.find? x = none := by
  refine ⟨ScopeTable.empty.enter (f.freshFree s) f.freeVars, ?_, ?_, fun x hx => ?_⟩
  · rw [standardiseScoped_eq, next_standardForm, Nat.add_assoc]
    rfl
  · rw [free_standardForm, List.map_map]
    refine List.map_congr_left fun x hx => ?_
    exact if_pos (mem_dedup_freeVars.mp hx)
  · exact if_neg hx

end Formula

/-- Standardising a formula apart, if all of its names have been handed out before, renames its
    variables without capture.  The result has fresh variables that are all different, one for each
    free variable in order of first occurrence and one for each quantifier, and it is the same up to
    bound variables as the formula with the fresh free variables put in.  No entry is missing on the
    way with one table for bound and free variables.  In every interpretation the result is true
    exactly if the formula is, under valuations that give corresponding variables the same values. -/
theorem standardisation_renames {s : Names} {f : Formula} (hf : ∀ i ∈ f.names, i.Below s.next) :
    ∃ g ys s', (Node.formula f).standardise s = .ok (⟨.formula g, ys⟩, s') ∧
      f.RenamedApart s s' g ys ∧
      (∃ τ, f.standardiseScoped (some s.sources.size) (f.freshFree s)
          (s.next + (dedup f.freeVars).length) .empty = some (g, s'.next, τ) ∧
        (dedup f.freeVars).map τ.find? = ys.map some ∧ ∀ x, x ∉ f.freeVars → τ.find? x = none) ∧
      ∀ (D : Type u) (I : Interpretation D) (w : Ident → D),
        (I.Holds w g ↔ I.Holds w (f.withFree ys)) ∧
        ∀ v : Ident → D, (∀ e ∈ (dedup f.freeVars).zip ys, v e.1 = w e.2) →
          (I.Holds w g ↔ I.Holds v f) := by
  have hapart := Formula.renamedApart_standardForm hf
  refine ⟨_, _, _, rfl, hapart, Formula.standardiseScoped_standardForm s f, fun D I w => ⟨?_, ?_⟩⟩
  · exact (I.holds_iff_of_alphaEq hapart.alpha fun x y hxy => congrArg w hxy).symm
  · intro v hv
    -- only the values of the free variables matter, and each of them is paired with its entry
    refine I.holds_standardiseFrom _ (fun x hx => Formula.freshFree_below hx) fun x hx => ?_
    refine (hv (x, f.freshFree s x) ?_).symm
    have hzip : (dedup f.freeVars).zip (f.standardForm s).1.free =
        (dedup f.freeVars).map fun x => (x, f.freshFree s x) := zip_map_self _ _
    exact hzip ▸ List.mem_map.mpr ⟨x, mem_dedup_freeVars.mpr hx, rfl⟩

/-- In `((![X]: (p(X, Y) => ?[X]: q(X, Y))) & p(X, Y)) | ![Y]: q(X, Y)` the variable `X` is bound,
    bound again further in and then free; `Y` is met inside the scopes of `X` first, is free there,
    and is bound at the end. -/
theorem standardisation_renames_shadowed :
    let x := Ident.num 0
    let y := Ident.num 1
    let p := Formula.atom (.pred (.num 2) [.var x, .var y])
    let q := Formula.atom (.pred (.num 3) [.var x, .var y])
    let f := Formula.or (.and (.all x (.imp p (.ex x q))) p) (.all y q)
    ∃ g ys s', (Node.formula f).standardise {} = .ok (⟨.formula g, ys⟩, s') ∧
      f.RenamedApart {} s' g ys ∧ ys.map Ident.underlying = [y, x] ∧ (f.withFree ys).AlphaEq [] g := by
  intro x y p q f
  have hf : ∀ i ∈ f.names, i.Below (Names.next {}) := by decide
  obtain ⟨g, ys, s', hrun, hapart, -⟩ := standardisation_renames.{0} hf
  have hfree : dedup f.freeVars = [y, x] := by decide
  exact ⟨g, ys, s', hrun, hapart, hapart.order.trans hfree, hapart.alpha⟩

end Clausal
