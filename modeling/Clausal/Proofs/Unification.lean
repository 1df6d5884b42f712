import Clausal.Proofs.Substitution

/-!
# What unification computes

A successful run of unification is a sequence of moves on a list of equations: an equation whose two
sides look the same is dropped, a variable is bound, an equation between applications is replaced by
those between the arguments, and the sides of an equation may change places.  `Unification` is the
relation of such runs; it does not mention the depth that bounds the recursion.  Every fact about the
result is an induction on the moves.

## Main definitions

- `Unification`: successful runs
- `Substitution.Over`: the variables that a substitution is about
- `Atom.Proper`: the name of equality is used by equations only

## Main statements

- `unification_of_unifyList`: success is such a run
- `Unification.acyclic`, `Unification.keeps`, `Unification.over_result`
- `Unification.solves_iff`: the result is solved by the solutions of the equations and by no others
- `Literal.beq_subst_of_unify`: a unifier makes literals equal
-/

namespace Clausal

/-! ## Section 1: Successful runs -/

/-- A successful run of unification: from the first substitution, the equations lead to the
    second. -/
inductive Unification : Substitution → List (Term × Term) → Substitution → Prop
  | nil (σ : Substitution) : Unification σ [] σ
  | same {σ τ : Substitution} {s t : Term} {es : List (Term × Term)}
      (h : σ.walk s = σ.walk t) (rest : Unification σ es τ) : Unification σ ((s, t) :: es) τ
  | bind {σ ρ τ : Substitution} {s t : Term} {x : Ident} {es : List (Term × Term)}
      (hs : σ.walk s = .var x) (h : σ.bindValue? x (σ.walk t) = some ρ)
      (rest : Unification ρ es τ) : Unification σ ((s, t) :: es) τ
  | args {σ τ : Substitution} {s t : Term} {f : Ident} {as bs : List Term}
      {es : List (Term × Term)} (hs : σ.walk s = .app f as) (ht : σ.walk t = .app f bs)
      (hlen : as.length = bs.length) (rest : Unification σ (as.zip bs ++ es) τ) :
      Unification σ ((s, t) :: es) τ
  | swap {σ τ : Substitution} {s t : Term} {es : List (Term × Term)}
      (rest : Unification σ ((t, s) :: es) τ) : Unification σ ((s, t) :: es) τ

section Runs

variable {σ ρ τ : Substitution} {es : List (Term × Term)}

theorem unification_of_unifyArgs {step : Substitution → Term → Term → Option Substitution}
    (hstep : ∀ {σ ρ τ s t es}, step σ s t = some ρ → Unification ρ es τ →
      Unification σ ((s, t) :: es) τ)
    {as bs : List Term} (h : unifyArgs step σ as bs = some ρ) (rest : Unification ρ es τ) :
    Unification σ (as.zip bs ++ es) τ := by
  induction as generalizing σ bs with
  | nil =>
    obtain rfl : σ = ρ := by simpa [unifyArgs] using h
    exact rest
  | cons a as ih =>
    cases bs with
    | nil =>
      obtain rfl : σ = ρ := by simpa [unifyArgs] using h
      exact rest
    | cons b bs =>
      simp only [unifyArgs] at h
      split at h
      · cases h
      next σ' hσ' => exact hstep hσ' (ih h)

theorem unification_of_unifyTerm {n : Nat} {s t : Term} (h : unifyTerm n σ s t = some ρ)
    (rest : Unification ρ es τ) : Unification σ ((s, t) :: es) τ := by
  induction n generalizing σ ρ τ s t es with
  | zero => simp [unifyTerm] at h
  | succ n ih =>
    unfold unifyTerm at h
    split at h
    next hst =>
      obtain rfl := Option.some.inj h
      exact .same (congrArg σ.walk hst) rest
    split at h
    next x hs =>
      split at h
      next ht =>
        obtain rfl := Option.some.inj h
        exact .same (by rw [hs, ht]) rest
      next => exact .bind hs h rest
    next y ht _ => exact .swap (.bind ht h rest)
    next c d hs ht =>
      split at h
      next hcd =>
        obtain rfl := Option.some.inj h
        exact .same (by rw [hs, ht, hcd]) rest
      next => cases h
    next f as g bs hs ht =>
      split at h
      next hfg =>
        obtain ⟨rfl, hlen⟩ := hfg
        split at h
        · exact .swap (.args ht hs hlen.symm (unification_of_unifyArgs (fun h r => ih h r) h rest))
        · exact .args hs ht hlen (unification_of_unifyArgs (fun h r => ih h r) h rest)
      next => cases h
    next => cases h

/-- Whatever `unifyList` answers comes from a run on the equations between the terms. -/
theorem unification_of_unifyList {as bs : List Term} (h : unifyList σ as bs = some τ) :
    Unification σ (as.zip bs) τ := by
  have hrun := unification_of_unifyArgs (fun h r => unification_of_unifyTerm h r) h (.nil τ)
  rwa [List.append_nil] at hrun

end Runs

/-! ## Section 2: What a binding does -/

namespace Substitution

variable {σ ρ : Substitution} {x : Ident} {t : Term}

theorem bindValue?_eq_some : σ.bindValue? x t = some ρ ↔
    x ∉ (σ.apply t).vars ∧ ρ = σ.insert x (σ.apply t) := by
  simp only [bindValue?, Term.occurs, List.contains_iff_mem]
  split
  next h => simp [h]
  next h => simp [h, eq_comm]

theorem Acyclic.bindValue? (hσ : σ.Acyclic) (h : σ.bindValue? x t = some ρ) : ρ.Acyclic := by
  obtain ⟨hx, rfl⟩ := bindValue?_eq_some.mp h
  exact hσ.insert (fun _ => hσ.unbound_of_mem_apply) hx

theorem find?_of_bindValue? (hx : σ.find? x = none) (h : σ.bindValue? x t = some ρ) {y : Ident}
    {u : Term} (hy : σ.find? y = some u) : ρ.find? y = some u := by
  obtain ⟨-, rfl⟩ := bindValue?_eq_some.mp h
  rw [find?_insert, if_neg fun hyx => by simp [hyx, hx] at hy]
  exact hy

theorem solves_of_bindValue? (hσ : σ.Acyclic) (hx : σ.find? x = none)
    (h : σ.bindValue? x t = some ρ) (θ : Ident → Term) :
    ρ.Solves θ ↔ σ.Solves θ ∧ θ x = t.subst θ := by
  obtain ⟨-, rfl⟩ := bindValue?_eq_some.mp h
  rw [solves_insert hx]
  exact and_congr_right fun hθ => by rw [hθ.subst_apply hσ]

/-- The variables of a substitution, bound ones and those of the terms, are among the given ones. -/
def Over (p : Ident → Prop) (σ : Substitution) : Prop :=
  ∀ x t, σ.find? x = some t → p x ∧ ∀ y ∈ t.vars, p y

theorem over_empty (p : Ident → Prop) : empty.Over p := by
  intro x t h
  simp at h

theorem Over.walk {p : Ident → Prop} (h : σ.Over p) (ht : ∀ y ∈ t.vars, p y) :
    ∀ y ∈ (σ.walk t).vars, p y := by
  rcases σ.walk_eq_or_find? t with hw | ⟨x, hx⟩
  · rwa [hw]
  · exact (h x _ hx).2

theorem Over.value {p : Ident → Prop} (h : σ.Over p) (hσ : σ.Acyclic) (hx : p x) :
    ∀ y ∈ (σ.value x).vars, p y := by
  induction x using hσ.induction with
  | _ x ih =>
    cases hf : σ.find? x with
    | none =>
      rw [value_of_unbound hf]
      simpa [Term.vars] using hx
    | some t =>
      intro y hy
      rw [hσ.value_of_bound hf] at hy
      obtain ⟨z, hz, hy⟩ := Term.mem_vars_subst.mp hy
      exact ih z ⟨t, hf, hz⟩ ((h x t hf).2 z hz) y hy

theorem Over.mono {p q : Ident → Prop} (h : σ.Over p) (hpq : ∀ x, p x → q x) : σ.Over q :=
  fun x t hx => ⟨hpq x (h x t hx).1, fun y hy => hpq y ((h x t hx).2 y hy)⟩

/-- Whether bindings are solved depends on the values of their own variables only. -/
theorem Over.solves_congr {p : Ident → Prop} (h : σ.Over p) {θ υ : Ident → Term}
    (hυ : ∀ x, p x → υ x = θ x) (hθ : σ.Solves θ) : σ.Solves υ := by
  intro x t hx
  obtain ⟨hpx, hpt⟩ := h x t hx
  calc υ x = θ x := hυ x hpx
    _ = t.subst θ := hθ x t hx
    _ = t.subst υ := Term.subst_congr fun y hy => (hυ y (hpt y hy)).symm

theorem Over.bindValue? {p : Ident → Prop} (hp : σ.Over p) (hσ : σ.Acyclic) (hx : p x)
    (ht : ∀ y ∈ t.vars, p y) (h : σ.bindValue? x t = some ρ) : ρ.Over p := by
  obtain ⟨-, rfl⟩ := bindValue?_eq_some.mp h
  intro y u hy
  rw [find?_insert] at hy
  split at hy
  next hyx =>
    obtain rfl := Option.some.inj hy
    refine ⟨hyx ▸ hx, fun z hz => ?_⟩
    obtain ⟨w, hw, hz⟩ := Term.mem_vars_subst.mp hz
    exact hp.value hσ (ht w hw) z hz
  next => exact hp y u hy

end Substitution

/-! ## Section 3: What a run does -/

/-- Lists of terms get equal instances exactly if their terms do in pairs. -/
theorem map_subst_eq_iff {as bs : List Term} (hlen : as.length = bs.length) (θ : Ident → Term) :
    as.map (Term.subst θ) = bs.map (Term.subst θ) ↔
      ∀ e ∈ as.zip bs, e.1.subst θ = e.2.subst θ := by
  induction as generalizing bs with
  | nil =>
    cases bs with
    | nil => simp
    | cons b bs => simp at hlen
  | cons a as ih =>
    cases bs with
    | nil => simp at hlen
    | cons b bs => simp [ih (Nat.succ.inj hlen)]

namespace Unification

variable {σ τ : Substitution} {es : List (Term × Term)}

theorem acyclic (h : Unification σ es τ) (hσ : σ.Acyclic) : τ.Acyclic := by
  induction h with
  | nil => exact hσ
  | same _ _ ih => exact ih hσ
  | bind _ h _ ih => exact ih (hσ.bindValue? h)
  | args _ _ _ _ ih => exact ih hσ
  | swap _ ih => exact ih hσ

/-- Bindings that were there are kept. -/
theorem keeps (h : Unification σ es τ) (hσ : σ.Acyclic) {x : Ident} {t : Term}
    (hx : σ.find? x = some t) : τ.find? x = some t := by
  induction h with
  | nil => exact hx
  | same _ _ ih => exact ih hσ hx
  | bind hs h _ ih =>
    exact ih (hσ.bindValue? h) (Substitution.find?_of_bindValue? (hσ.unbound_of_walk hs) h hx)
  | args _ _ _ _ ih => exact ih hσ hx
  | swap _ ih => exact ih hσ hx

/-- The result has no variables but those of the beginning and of the equations. -/
theorem over_result (h : Unification σ es τ) (hσ : σ.Acyclic) {p : Ident → Prop} (hp : σ.Over p)
    (hes : ∀ e ∈ es, (∀ y ∈ e.1.vars, p y) ∧ ∀ y ∈ e.2.vars, p y) : τ.Over p := by
  induction h with
  | nil => exact hp
  | same _ _ ih => exact ih hσ hp fun e he => hes e (List.mem_cons_of_mem _ he)
  | bind hs h _ ih =>
    obtain ⟨hes, hrest⟩ := List.forall_mem_cons.mp hes
    have hx := hp.walk hes.1
    rw [hs] at hx
    exact ih (hσ.bindValue? h)
      (hp.bindValue? hσ (hx _ (by simp [Term.vars])) (hp.walk hes.2) h) hrest
  | args hs ht _ _ ih =>
    obtain ⟨hes, hrest⟩ := List.forall_mem_cons.mp hes
    have has := hp.walk hes.1
    have hbs := hp.walk hes.2
    simp only [hs, ht, Term.vars_app, List.mem_flatMap, forall_exists_index, and_imp] at has hbs
    refine ih hσ hp (List.forall_mem_append.mpr ⟨fun e he => ?_, hrest⟩)
    obtain ⟨ha, hb⟩ := List.of_mem_zip he
    exact ⟨fun y => has y _ ha, fun y => hbs y _ hb⟩
  | swap _ ih =>
    obtain ⟨hes, hrest⟩ := List.forall_mem_cons.mp hes
    exact ih hσ hp (List.forall_mem_cons.mpr ⟨hes.symm, hrest⟩)

/-- The result is solved by what solves the beginning and the equations, and by nothing else. -/
theorem solves_iff (h : Unification σ es τ) (hσ : σ.Acyclic) (θ : Ident → Term) :
    τ.Solves θ ↔ σ.Solves θ ∧ ∀ e ∈ es, e.1.subst θ = e.2.subst θ := by
  induction h with
  | nil => simp
  | same h _ ih =>
    rw [ih hσ, List.forall_mem_cons]
    refine and_congr_right fun hθ => (and_iff_right ?_).symm
    show Term.subst θ _ = Term.subst θ _
    rw [← hθ.subst_walk, h, hθ.subst_walk]
  | bind hs h _ ih =>
    rw [ih (hσ.bindValue? h), Substitution.solves_of_bindValue? hσ (hσ.unbound_of_walk hs) h,
      List.forall_mem_cons, and_assoc]
    refine and_congr_right fun hθ => and_congr_left fun _ => ?_
    rw [hθ.subst_walk, ← hθ.subst_walk (Prod.fst _), hs, Term.subst]
  | args hs ht hlen _ ih =>
    rw [ih hσ, List.forall_mem_append, List.forall_mem_cons]
    refine and_congr_right fun hθ => and_congr_left fun _ => ?_
    rw [← hθ.subst_walk (Prod.fst _), ← hθ.subst_walk (Prod.snd _), hs, ht, Term.subst_app,
      Term.subst_app, Term.app.injEq, eq_self, true_and, map_subst_eq_iff hlen]
  | swap _ ih =>
    rw [ih hσ, List.forall_mem_cons, List.forall_mem_cons]
    exact and_congr_right fun _ => and_congr_left fun _ => eq_comm

/-- The result makes the two sides of each equation equal. -/
theorem subst_value (h : Unification σ es τ) (hσ : σ.Acyclic) :
    ∀ e ∈ es, e.1.subst τ.value = e.2.subst τ.value :=
  ((h.solves_iff hσ τ.value).mp (h.acyclic hσ).solves_value).2

end Unification

/-! ## Section 4: Atoms and literals -/

/-- The name of equality is not used for an ordinary predicate. -/
def Atom.Proper : Atom → Prop
  | .pred p _ => p ≠ .equality
  | .eq _ _ => True

instance (a : Atom) : Decidable a.Proper :=
  match a with
  | .pred p _ => inferInstanceAs (Decidable (p ≠ .equality))
  | .eq _ _ => inferInstanceAs (Decidable True)

@[simp]
theorem Atom.proper_subst (θ : Ident → Term) (a : Atom) : (a.subst θ).Proper ↔ a.Proper := by
  cases a <;> rfl

/-- Proper atoms with the same symbol are of the same kind. -/
theorem Atom.isEq_eq_of_proper {a b : Atom} (ha : a.Proper) (hb : b.Proper)
    (h : a.symbol = b.symbol) : a.isEq = b.isEq := by
  cases a with
  | pred p as =>
    cases b with
    | pred q bs => rfl
    | eq l r => exact absurd h ha
  | eq l r =>
    cases b with
    | pred q bs => exact absurd h.symm hb
    | eq l' r' => rfl

/-- A unifier of atoms comes from a run on their arguments, in an order in which they may stand. -/
theorem Atom.unification_of_unify {σ τ : Substitution} {a b : Atom}
    (h : Atom.unify σ a b = some τ) : a.symbol = b.symbol ∧ a.args.length = b.args.length ∧
      ∃ ts, (ts = b.args ∨ a.isEq = true ∧ ts = b.args.reverse) ∧
        Unification σ (a.args.zip ts) τ := by
  unfold Atom.unify at h
  split at h
  next hab =>
    refine ⟨hab.1, hab.2, ?_⟩
    split at h
    next τ' h' =>
      obtain rfl := Option.some.inj h
      exact ⟨b.args, Or.inl rfl, unification_of_unifyList h'⟩
    next =>
      split at h
      next heq => exact ⟨b.args.reverse, Or.inr ⟨heq, rfl⟩, unification_of_unifyList h⟩
      next => cases h
  next => cases h

/-- A unifier is about the variables of the atoms that it unifies. -/
theorem Atom.over_of_unify {σ τ : Substitution} {a b : Atom} (hσ : σ.Acyclic) {p : Ident → Prop}
    (hp : σ.Over p) (ha : ∀ x ∈ a.vars, p x) (hb : ∀ x ∈ b.vars, p x)
    (h : Atom.unify σ a b = some τ) : τ.Acyclic ∧ τ.Over p := by
  obtain ⟨-, -, ts, hts, hrun⟩ := Atom.unification_of_unify h
  have hmem : ∀ t ∈ ts, t ∈ b.args := by
    rcases hts with rfl | ⟨-, rfl⟩
    · exact fun t => id
    · exact fun t => List.mem_reverse.mp
  refine ⟨hrun.acyclic hσ, hrun.over_result hσ hp fun e he => ?_⟩
  obtain ⟨hea, heb⟩ := List.of_mem_zip he
  exact ⟨fun y hy => ha y (List.mem_flatMap.mpr ⟨_, hea, hy⟩),
    fun y hy => hb y (List.mem_flatMap.mpr ⟨_, hmem _ heb, hy⟩)⟩

/-- A unifier makes proper atoms equal. -/
theorem Atom.beq_subst_of_unify {σ τ : Substitution} {a b : Atom} (hσ : σ.Acyclic) (ha : a.Proper)
    (hb : b.Proper) (h : Atom.unify σ a b = some τ) :
    (a.subst τ.value == b.subst τ.value) = true := by
  obtain ⟨hsymbol, hlen, ts, hts, hrun⟩ := Atom.unification_of_unify h
  have hkind := Atom.isEq_eq_of_proper ha hb hsymbol
  have heq := hrun.subst_value hσ
  cases a with
  | pred p as =>
    cases b with
    | pred q bs =>
      obtain rfl : ts = bs := by simpa [Atom.isEq, Atom.args] using hts
      obtain rfl : p = q := hsymbol
      refine Atom.beq_iff.mpr (Or.inl ?_)
      exact congrArg (Atom.pred p) ((map_subst_eq_iff hlen τ.value).mpr heq)
    | eq l r => cases hkind
  | eq l r =>
    cases b with
    | pred q bs => cases hkind
    | eq l' r' =>
      simp only [Atom.args, Atom.isEq, List.reverse_cons, List.reverse_nil, List.nil_append,
        List.cons_append, true_and] at hts heq
      rcases hts with rfl | rfl
      · simp only [List.zip_cons_cons, List.zip_nil_left, List.forall_mem_cons] at heq
        exact Atom.beq_iff.mpr (Or.inl (by simp only [Atom.subst, heq.1, heq.2.1]))
      · simp only [List.zip_cons_cons, List.zip_nil_left, List.forall_mem_cons] at heq
        refine Atom.beq_iff.mpr (Or.inr ⟨_, _, rfl, ?_⟩)
        simp only [Atom.subst, heq.1, heq.2.1]

theorem Literal.unify_eq_some {σ τ : Substitution} {l m : Literal} :
    l.unify σ m = some τ ↔ l.positive = m.positive ∧ l.atom.unify σ m.atom = some τ := by
  unfold Literal.unify
  split
  next h => simp [h]
  next h => simp [h]

/-- A unifier makes proper literals equal. -/
theorem Literal.beq_subst_of_unify {σ τ : Substitution} {l m : Literal} (hσ : σ.Acyclic)
    (hl : l.atom.Proper) (hm : m.atom.Proper) (h : l.unify σ m = some τ) :
    (l.subst τ.value == m.subst τ.value) = true := by
  obtain ⟨hpos, h⟩ := Literal.unify_eq_some.mp h
  exact Literal.beq_iff.mpr ⟨Atom.beq_subst_of_unify hσ hl hm h, hpos⟩

end Clausal
