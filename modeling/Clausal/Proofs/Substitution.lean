import Clausal.Proofs.Term
import Clausal.Unification
import Mathlib.Data.Finset.Card
import Mathlib.Data.List.Perm.Subperm
import Mathlib.Logic.Relation

/-!
# Bindings without cycles

A substitution is used by following its bindings, and a number of steps fixed in advance stands in
for "as long as there are any".  If no variable is met again when its bindings are followed, that
number is large enough: `value` and `apply` satisfy the equations one expects, and `walk` stops at a
variable only if it is unbound.

The bindings of a substitution are also read as equations.  A simultaneous replacement that solves
them does not notice whether the substitution is applied first.

## Main definitions

- `Substitution.Reads`, `Substitution.Acyclic`: what a binding mentions, and that no chain closes
- `Substitution.Solves`: a replacement satisfies the bindings as equations

## Main statements

- `Substitution.Acyclic.induction`: induction along the bindings
- `Substitution.Acyclic.value_of_bound`: the value of a bound variable
- `Substitution.Acyclic.apply_apply`: application is idempotent
- `Substitution.Acyclic.insert`: binding a variable to a value it does not occur in keeps acyclicity
- `Substitution.Solves.subst_apply`
- `Substitution.Acyclic.reaches_iff`: the occurs check through bindings
- `Substitution.Acyclic.value_restrict`: restriction keeps values
- `Substitution.value_eq_of_beq`: equal substitutions give the same values
-/

namespace Clausal

namespace Substitution

variable {σ : Substitution} {x y : Ident} {t u : Term}

/-! ## Section 1: Single bindings -/

theorem mem_domain_of_find? (h : σ.find? x = some t) : x ∈ σ.domain := by
  obtain ⟨l, r, hb, -⟩ := List.lookup_eq_some_iff.mp h
  simp [domain, hb]

theorem mem_bindings_of_find? (h : σ.find? x = some t) : (x, t) ∈ σ.bindings := by
  obtain ⟨l, r, hb, -⟩ := List.lookup_eq_some_iff.mp h
  simp [hb]

@[simp]
theorem find?_empty (x : Ident) : empty.find? x = none := rfl

theorem lookup_map_snd {β : Type} (g : Ident → β → β) (y : Ident) (bs : List (Ident × β)) :
    (bs.map fun b => (b.1, g b.1 b.2)).lookup y = (bs.lookup y).map (g y) := by
  induction bs with
  | nil => rfl
  | cons b bs ih =>
    obtain ⟨x, t⟩ := b
    by_cases hy : y = x
    · simp [hy]
    · simp [List.lookup_cons, beq_false_of_ne hy, ih]

theorem find?_mapTerms (g : Ident → Term → Term) (σ : Substitution) (y : Ident) :
    (σ.mapTerms g).find? y = (σ.find? y).map (g y) :=
  lookup_map_snd g y σ.bindings

theorem find?_eq_none_iff : σ.find? x = none ↔ x ∉ σ.domain := by
  simp only [find?, domain, List.lookup_eq_none_iff, List.mem_map, not_exists, not_and]
  constructor
  · intro h b hb hx
    simpa [hx] using h b hb
  · intro h b hb
    simpa using fun hx => h b hb hx.symm

theorem find?_insert (σ : Substitution) (x : Ident) (t : Term) (y : Ident) :
    (σ.insert x t).find? y = if y = x then some t else σ.find? y := by
  unfold insert
  split
  next h =>
    rw [find?_mapTerms]
    by_cases hy : y = x
    · cases hf : σ.find? y with
      | none => exact absurd (hy ▸ h) (find?_eq_none_iff.mp hf)
      | some u => simp [hy]
    · simp [hy]
  next h =>
    simp only [find?, List.lookup_append, List.lookup_cons, List.lookup_nil]
    by_cases hy : y = x
    · have hnone : σ.bindings.lookup x = none := find?_eq_none_iff.mpr h
      simp [hy, hnone]
    · simp [beq_false_of_ne hy, hy]

/-! ## Section 2: Following bindings -/

/-- The binding of `x` mentions `y`. -/
def Reads (σ : Substitution) (x y : Ident) : Prop :=
  ∃ t, σ.find? x = some t ∧ y ∈ t.vars

/-- No variable is met again when its bindings are followed. -/
def Acyclic (σ : Substitution) : Prop :=
  ∀ x, ¬ Relation.TransGen σ.Reads x x

theorem acyclic_of_rank (r : Ident → Nat) (h : ∀ x y, σ.Reads x y → r y < r x) : σ.Acyclic := by
  intro x hx
  have hlt : ∀ z, Relation.TransGen σ.Reads x z → r z < r x := by
    intro z hz
    induction hz with
    | single hxz => exact h _ _ hxz
    | tail _ hyz ih => exact Nat.lt_trans (h _ _ hyz) ih
  exact Nat.lt_irrefl _ (hlt x hx)

theorem acyclic_empty : empty.Acyclic :=
  acyclic_of_rank (fun _ => 0) fun x y hxy => by
    obtain ⟨t, ht, -⟩ := hxy
    simp at ht

open Classical in
/-- The number of bound variables that are met from `x` on. -/
noncomputable def rank (σ : Substitution) (x : Ident) : Nat :=
  (σ.domain.toFinset.filter (Relation.ReflTransGen σ.Reads x)).card

theorem rank_le_size (σ : Substitution) (x : Ident) : σ.rank x ≤ σ.size := by
  classical
  calc σ.rank x ≤ σ.domain.toFinset.card := Finset.card_filter_le _ _
    _ ≤ σ.domain.length := List.toFinset_card_le _
    _ = σ.size := by simp [domain, size]

/-- A bound variable is itself one of those that are met from it on. -/
theorem rank_pos (hx : σ.find? x = some t) : 0 < σ.rank x := by
  classical
  refine Finset.card_pos.mpr ⟨x, Finset.mem_filter.mpr ⟨?_, .refl⟩⟩
  exact List.mem_toFinset.mpr (mem_domain_of_find? hx)

namespace Acyclic

theorem rank_lt (hσ : σ.Acyclic) (h : σ.Reads x y) : σ.rank y < σ.rank x := by
  classical
  obtain ⟨t, ht, hy⟩ := h
  have hxy : σ.Reads x y := ⟨t, ht, hy⟩
  refine Finset.card_lt_card (Finset.ssubset_iff_subset_ne.mpr ⟨?_, ?_⟩)
  · intro z hz
    obtain ⟨hz, hyz⟩ := Finset.mem_filter.mp hz
    exact Finset.mem_filter.mpr ⟨hz, hyz.head hxy⟩
  · -- `x` itself is met from `x` on, but not from `y` on
    intro heq
    have hx : x ∈ σ.domain.toFinset.filter (Relation.ReflTransGen σ.Reads x) :=
      Finset.mem_filter.mpr ⟨List.mem_toFinset.mpr (mem_domain_of_find? ht), .refl⟩
    rw [← heq] at hx
    exact hσ x (Relation.TransGen.head' hxy (Finset.mem_filter.mp hx).2)

/-- Induction along the bindings. -/
@[elab_as_elim]
theorem induction (hσ : σ.Acyclic) {P : Ident → Prop}
    (step : ∀ x, (∀ y, σ.Reads x y → P y) → P x) (x : Ident) : P x := by
  induction hn : σ.rank x using Nat.strong_induction_on generalizing x with
  | _ n ih => exact step x fun y hxy => ih (σ.rank y) (hn ▸ hσ.rank_lt hxy) y rfl

/-- Following more bindings than there are in a chain changes nothing. -/
theorem follow_eq (hσ : σ.Acyclic) {n m : Nat} (hnm : n ≤ m) {t : Term}
    (ht : ∀ x ∈ t.vars, σ.rank x ≤ n) : σ.follow m t = σ.follow n t := by
  induction n generalizing m t with
  | zero =>
    cases m with
    | zero => rfl
    | succ m =>
      refine Term.subst_eq_self fun x hx => ?_
      cases hf : σ.find? x with
      | none => rfl
      | some u => exact absurd (ht x hx) (Nat.not_le.mpr (rank_pos hf))
  | succ n ih =>
    obtain ⟨m, rfl⟩ : ∃ k, m = k + 1 := ⟨m - 1, by omega⟩
    refine Term.subst_congr fun x hx => ?_
    cases hf : σ.find? x with
    | none => rfl
    | some u =>
      refine ih (Nat.le_of_succ_le_succ hnm) fun y hy => ?_
      exact Nat.le_of_lt_succ (Nat.lt_of_lt_of_le (hσ.rank_lt ⟨u, hf, hy⟩) (ht x hx))

end Acyclic

private theorem apply_eq_follow (σ : Substitution) (t : Term) : σ.apply t = σ.follow σ.size t := by
  unfold apply value
  cases σ.size with
  | zero => exact Term.subst_var t
  | succ n => rfl

@[simp]
theorem apply_var (σ : Substitution) (x : Ident) : σ.apply (.var x) = σ.value x := rfl

/-- An unbound variable stands for itself. -/
theorem value_of_unbound (h : σ.find? x = none) : σ.value x = .var x := by
  unfold value
  cases σ.size with
  | zero => rfl
  | succ n => simp [follow, Term.subst, h]

@[simp]
theorem value_empty (x : Ident) : empty.value x = .var x := rfl

namespace Acyclic

/-- A bound variable has the value of the term that it is bound to. -/
theorem value_of_bound (hσ : σ.Acyclic) (h : σ.find? x = some t) : σ.value x = σ.apply t := by
  calc σ.value x = σ.follow (σ.size + 1) (.var x) :=
        (hσ.follow_eq (Nat.le_succ _) fun y _ => σ.rank_le_size y).symm
    _ = σ.follow σ.size t := by simp [follow, Term.subst, h]
    _ = σ.apply t := (σ.apply_eq_follow t).symm

/-- Values mention unbound variables only. -/
theorem unbound_of_mem_value (hσ : σ.Acyclic) (hy : y ∈ (σ.value x).vars) : σ.find? y = none := by
  induction x using hσ.induction with
  | _ x ih =>
    cases hf : σ.find? x with
    | none =>
      rw [value_of_unbound hf] at hy
      obtain rfl : y = x := by simpa [Term.vars] using hy
      exact hf
    | some t =>
      rw [hσ.value_of_bound hf] at hy
      obtain ⟨z, hz, hy⟩ := Term.mem_vars_subst.mp hy
      exact ih z ⟨t, hf, hz⟩ hy

/-- The variables of a value are met when bindings are followed. -/
theorem meets_of_mem_value (hσ : σ.Acyclic) (hy : y ∈ (σ.value x).vars) :
    Relation.ReflTransGen σ.Reads x y := by
  induction x using hσ.induction with
  | _ x ih =>
    cases hf : σ.find? x with
    | none =>
      rw [value_of_unbound hf] at hy
      obtain rfl : y = x := by simpa [Term.vars] using hy
      exact .refl
    | some t =>
      rw [hσ.value_of_bound hf] at hy
      obtain ⟨z, hz, hy⟩ := Term.mem_vars_subst.mp hy
      exact .head ⟨t, hf, hz⟩ (ih z ⟨t, hf, hz⟩ hy)

theorem unbound_of_mem_apply (hσ : σ.Acyclic) (hy : y ∈ (σ.apply t).vars) : σ.find? y = none := by
  obtain ⟨x, -, hy⟩ := Term.mem_vars_subst.mp hy
  exact hσ.unbound_of_mem_value hy

/-- Application is idempotent. -/
theorem apply_apply (hσ : σ.Acyclic) (t : Term) : σ.apply (σ.apply t) = σ.apply t :=
  Term.subst_eq_self fun _ hx => value_of_unbound (hσ.unbound_of_mem_apply hx)

/-- Binding a variable to a term without bound variables in which it does not occur. -/
theorem insert (hσ : σ.Acyclic) (hu : ∀ y ∈ u.vars, σ.find? y = none) (hxu : x ∉ u.vars) :
    (σ.insert x u).Acyclic := by
  -- the new binding stands between the unbound variables and those that were bound before
  refine acyclic_of_rank
    (fun y => if y = x then 1 else if σ.find? y = none then 0 else σ.rank y + 1) fun y z hyz => ?_
  obtain ⟨t, ht, hz⟩ := hyz
  rw [find?_insert] at ht
  by_cases hy : y = x
  · simp only [hy, if_true, Option.some.injEq] at ht
    subst ht
    have hzx : z ≠ x := fun h => hxu (h ▸ hz)
    simp [hy, hzx, hu z hz]
  · rw [if_neg hy] at ht
    have hlt := hσ.rank_lt ⟨t, ht, hz⟩
    by_cases hzx : z = x
    · simp only [hzx, hy, ht, reduceCtorEq, if_true, if_false]
      omega
    · by_cases hzn : σ.find? z = none
      · simp [hzx, hy, ht, hzn]
      · simpa [hzx, hy, ht, hzn] using hlt

end Acyclic

/-! ## Section 3: Bindings as equations -/

/-- A simultaneous replacement satisfies the bindings as equations. -/
def Solves (τ : Ident → Term) (σ : Substitution) : Prop :=
  ∀ x t, σ.find? x = some t → τ x = t.subst τ

theorem solves_empty (τ : Ident → Term) : empty.Solves τ := by
  intro x t h
  simp at h

theorem Acyclic.solves_value (hσ : σ.Acyclic) : σ.Solves σ.value :=
  fun _ _ h => hσ.value_of_bound h

theorem solves_insert {τ : Ident → Term} (hx : σ.find? x = none) :
    (σ.insert x u).Solves τ ↔ σ.Solves τ ∧ τ x = u.subst τ := by
  simp only [Solves, find?_insert]
  constructor
  · intro h
    refine ⟨fun y t hy => h y t ?_, h x u (if_pos rfl)⟩
    rw [if_neg fun hyx => by simp [hyx, hx] at hy]
    exact hy
  · rintro ⟨h, hxu⟩ y t hy
    by_cases hyx : y = x
    · rw [if_pos hyx] at hy
      obtain rfl := Option.some.inj hy
      exact hyx ▸ hxu
    · rw [if_neg hyx] at hy
      exact h y t hy

namespace Solves

variable {τ : Ident → Term}

theorem subst_value (hσ : σ.Acyclic) (h : σ.Solves τ) (x : Ident) :
    (σ.value x).subst τ = τ x := by
  induction x using hσ.induction with
  | _ x ih =>
    cases hf : σ.find? x with
    | none => rw [value_of_unbound hf, Term.subst]
    | some t =>
      rw [hσ.value_of_bound hf, h x t hf, apply, Term.subst_subst]
      exact Term.subst_congr fun y hy => ih y ⟨t, hf, hy⟩

/-- A solution does not notice whether the substitution is applied first. -/
theorem subst_apply (hσ : σ.Acyclic) (h : σ.Solves τ) (t : Term) :
    (σ.apply t).subst τ = t.subst τ := by
  rw [apply, Term.subst_subst]
  exact Term.subst_congr fun x _ => h.subst_value hσ x

end Solves

/-! ## Section 4: Looking through bindings -/

theorem Solves.subst_walk {τ : Ident → Term} (h : σ.Solves τ) (t : Term) :
    (σ.walk t).subst τ = t.subst τ := by
  have hfor : ∀ n t, (σ.walkFor n t).subst τ = t.subst τ := by
    intro n
    induction n with
    | zero => exact fun _ => rfl
    | succ n ih =>
      intro t
      cases t with
      | var x =>
        cases hf : σ.find? x with
        | none => simp [walkFor, hf]
        | some u => simp [walkFor, hf, ih, Term.subst, ← h x u hf]
      | const c => rfl
      | app f ts => rfl
  exact hfor σ.size t

/-- What is seen through the bindings is the term itself or stands in a binding. -/
theorem walk_eq_or_find? (σ : Substitution) (t : Term) :
    σ.walk t = t ∨ ∃ x, σ.find? x = some (σ.walk t) := by
  have hfor : ∀ n t, σ.walkFor n t = t ∨ ∃ x, σ.find? x = some (σ.walkFor n t) := by
    intro n
    induction n with
    | zero => exact fun _ => Or.inl rfl
    | succ n ih =>
      intro t
      cases t with
      | var x =>
        cases hf : σ.find? x with
        | none => exact Or.inl (by simp [walkFor, hf])
        | some u =>
          have hu : σ.walkFor (n + 1) (.var x) = σ.walkFor n u := by simp [walkFor, hf]
          rw [hu]
          rcases ih u with h | h
          · exact Or.inr ⟨x, by rw [h, hf]⟩
          · exact Or.inr h
      | const c => exact Or.inl rfl
      | app f ts => exact Or.inl rfl
  exact hfor σ.size t

/-- A variable that is seen through the bindings is unbound. -/
theorem Acyclic.unbound_of_walk (hσ : σ.Acyclic) (h : σ.walk t = .var x) : σ.find? x = none := by
  have hfor : ∀ n t, (∀ y ∈ t.vars, σ.rank y ≤ n) → σ.walkFor n t = .var x →
      σ.find? x = none := by
    intro n
    induction n with
    | zero =>
      intro t ht h
      obtain rfl : t = .var x := h
      have hx := hσ.follow_eq (Nat.zero_le 1) ht
      cases hf : σ.find? x with
      | none => rfl
      | some u =>
        -- a bound variable would have moved
        have hux : u = .var x := by simpa [follow, Term.subst, hf] using hx
        exact absurd (.single ⟨u, hf, by simp [hux, Term.vars]⟩) (hσ x)
    | succ n ih =>
      intro t ht h
      cases t with
      | var y =>
        cases hf : σ.find? y with
        | none =>
          obtain rfl : y = x := by simpa [walkFor, hf] using h
          exact hf
        | some u =>
          refine ih u (fun z hz => ?_) (by simpa [walkFor, hf] using h)
          exact Nat.le_of_lt_succ (Nat.lt_of_lt_of_le (hσ.rank_lt ⟨u, hf, hz⟩)
            (ht y (by simp [Term.vars])))
      | const c => simp [walkFor] at h
      | app f ts => simp [walkFor] at h
  exact hfor σ.size t (fun y _ => σ.rank_le_size y) h

/-- The occurs check through bindings finds a variable exactly if it is met from a variable of the
    term on. -/
theorem Acyclic.reaches_iff (hσ : σ.Acyclic) :
    σ.reaches x t = true ↔ ∃ y ∈ t.vars, Relation.ReflTransGen σ.Reads y x := by
  have hfor : ∀ n t, (∀ y ∈ t.vars, σ.rank y ≤ n) →
      (σ.reachesFor x n t = true ↔ ∃ y ∈ t.vars, Relation.ReflTransGen σ.Reads y x) := by
    intro n
    induction n with
    | zero =>
      intro t ht
      -- the variables of the term are unbound
      have hend : ∀ y ∈ t.vars, Relation.ReflTransGen σ.Reads y x → y = x := by
        intro y hy hyx
        rcases hyx.cases_head with heq | ⟨z, ⟨u, hu, -⟩, -⟩
        · exact heq
        · exact absurd (ht y hy) (Nat.not_le.mpr (rank_pos hu))
      simp only [reachesFor, Term.occurs, List.contains_iff_mem]
      constructor
      · exact fun hx => ⟨x, hx, .refl⟩
      · rintro ⟨y, hy, hyx⟩
        exact hend y hy hyx ▸ hy
    | succ n ih =>
      intro t ht
      simp only [reachesFor, List.any_eq_true, Bool.or_eq_true, decide_eq_true_eq]
      refine exists_congr fun y => and_congr_right fun hy => ?_
      rw [Relation.ReflTransGen.cases_head_iff]
      refine or_congr_right ?_
      cases hf : σ.find? y with
      | none => simp [Reads, hf]
      | some u =>
        have hu : ∀ z ∈ u.vars, σ.rank z ≤ n := fun z hz =>
          Nat.le_of_lt_succ (Nat.lt_of_lt_of_le (hσ.rank_lt ⟨u, hf, hz⟩) (ht y hy))
        simp [Reads, hf, ih u hu]
  exact hfor σ.size t fun y _ => σ.rank_le_size y

/-! ## Section 5: Restriction and equality -/

theorem find?_restrict (σ : Substitution) (xs : List Ident) (y : Ident) :
    (σ.restrict xs).find? y = if y ∈ xs ∧ σ.isBound y = true then some (σ.value y) else none := by
  -- the bindings made so far are kept for the variables that are still to come
  have hfold : ∀ ρ : Substitution,
      (xs.foldl (fun ρ x => if σ.isBound x then ρ.insert x (σ.value x) else ρ) ρ).find? y =
        if y ∈ xs ∧ σ.isBound y = true then some (σ.value y) else ρ.find? y := by
    induction xs with
    | nil => simp
    | cons x xs ih =>
      intro ρ
      rw [List.foldl_cons, ih]
      by_cases hyx : y = x
      · subst hyx
        by_cases hbound : σ.isBound y = true <;> simp [hbound, find?_insert]
      · by_cases hbound : σ.isBound x = true <;> simp [hbound, find?_insert, hyx]
  exact hfold empty

namespace Acyclic

/-- The values of variables mention unbound variables only, so no chain is longer than one. -/
theorem restrict (hσ : σ.Acyclic) (xs : List Ident) : (σ.restrict xs).Acyclic := by
  refine acyclic_of_rank (fun y => if σ.isBound y then 1 else 0) fun y z hyz => ?_
  obtain ⟨t, ht, hz⟩ := hyz
  rw [find?_restrict] at ht
  split at ht
  next hy =>
    obtain rfl := Option.some.inj ht
    have hunbound : σ.isBound z = false := by simp [isBound, hσ.unbound_of_mem_value hz]
    simp [hy.2, hunbound]
  next => cases ht

/-- Restriction keeps the values of the variables that it is made for. -/
theorem value_restrict (hσ : σ.Acyclic) {xs : List Ident} (hx : x ∈ xs) :
    (σ.restrict xs).value x = σ.value x := by
  cases hf : σ.find? x with
  | none =>
    have hnone : (σ.restrict xs).find? x = none := by simp [find?_restrict, isBound, hf]
    rw [value_of_unbound hnone, value_of_unbound hf]
  | some t =>
    have hsome : (σ.restrict xs).find? x = some (σ.value x) := by
      simp [find?_restrict, isBound, hf, hx]
    rw [(hσ.restrict xs).value_of_bound hsome]
    refine Term.subst_eq_self fun y hy => value_of_unbound ?_
    simp [find?_restrict, isBound, hσ.unbound_of_mem_value hy]

end Acyclic

/-- Equal substitutions bind the same variables to the same terms. -/
theorem find?_eq_of_beq {τ : Substitution} (h : (σ == τ) = true) : σ.find? = τ.find? := by
  change σ.same τ = true at h
  simp only [same, Bool.and_eq_true, decide_eq_true_eq, List.all_eq_true] at h
  obtain ⟨hsize, hbindings⟩ := h
  have hsub : σ.domain ⊆ τ.domain := by
    intro x hx
    obtain ⟨b, hb, rfl⟩ := List.mem_map.mp hx
    exact mem_domain_of_find? (hbindings b hb)
  -- there is no room for more variables on the other side
  have hperm : σ.domain.Perm τ.domain := by
    apply (List.subperm_of_subset σ.nodup hsub).perm_of_length_le
    simpa [domain, size] using hsize.ge
  funext x
  cases hf : σ.find? x with
  | none =>
    have hx : x ∉ τ.domain := fun hx => find?_eq_none_iff.mp hf (hperm.mem_iff.mpr hx)
    exact (find?_eq_none_iff.mpr hx).symm
  | some t => exact (hbindings _ (mem_bindings_of_find? hf)).symm

theorem value_eq_of_beq {τ : Substitution} (h : (σ == τ) = true) : σ.value = τ.value := by
  have hfind := find?_eq_of_beq h
  have hfollow : ∀ n t, σ.follow n t = τ.follow n t := by
    intro n
    induction n with
    | zero => exact fun _ => rfl
    | succ n ih =>
      intro t
      simp only [follow, hfind, ih]
  have hsize : σ.size = τ.size := by
    change σ.same τ = true at h
    simpa [same] using (Bool.and_eq_true_iff.mp h).1
  funext x
  rw [value, value, hsize, hfollow]

end Substitution

end Clausal
