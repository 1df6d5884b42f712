import Clausal.Proofs.Normal.Skolem

/-!
# Meaning of dropping universal quantifiers

The clauses of a formula are those of its matrix, where the universal quantifiers of the Skolem form
are gone.  Dropping a universal quantifier from one part of a disjunction is harmless as long as the
other part does not use its variable.  An equivalence whose sides are doubled does break this: both
parts of the disjunction `(F & ~G) | (G & ~F)` hold copies of the same quantifiers.  The two parts
still cannot both be refuted only by values that contradict each other, because one of `F`, `~F` and
one of `G`, `~G` fails by itself.  So the argument goes by recursion on the formula as it was before
equivalences were eliminated, for the formula and its negation at once.

## Main definitions

- `Formula.matrixAs`: the matrix of a formula or of its negation

## Main statements

- `Interpretation.refutable`: a false formula has a false instance of its matrix
- `Interpretation.holds_dropUniversals`
-/

namespace Clausal

universe u

namespace Formula

/-! ## Section 1: The matrix -/

/-- The matrix of a formula (`true`) or of its negation (`false`), with Skolem symbols from serial
    `n` on. -/
def matrixAs (origin : Option Nat) (b : Bool) (n : Nat) (us : List Term) (θ : Ident → Term)
    (f : Formula) : Formula :=
  ((f.eliminate.nnfAs b).skolemiseFrom origin n us θ).dropUniversals

theorem isNnf_skolemiseFrom {f : Formula} (hf : f.IsNnf) (origin : Option Nat) (n : Nat)
    (us : List Term) (θ : Ident → Term) : (f.skolemiseFrom origin n us θ).IsNnf := by
  induction f generalizing n us θ with
  | atom a => trivial
  | not f =>
    cases f with
    | atom a => trivial
    | _ => exact hf.elim
  | and f g ihf ihg | or f g ihf ihg => exact ⟨ihf hf.1 _ _ _, ihg hf.2 _ _ _⟩
  | imp f g | iff f g => exact hf.elim
  | all x f ih | ex x f ih => exact ih hf _ _ _

private theorem isMatrix_dropUniversals {f : Formula} (hf : f.IsNnf) (origin : Option Nat) (n : Nat)
    (us : List Term) (θ : Ident → Term) :
    (f.skolemiseFrom origin n us θ).dropUniversals.IsMatrix := by
  induction f generalizing n us θ with
  | atom a => trivial
  | not f =>
    cases f with
    | atom a => trivial
    | _ => exact hf.elim
  | and f g ihf ihg | or f g ihf ihg => exact ⟨ihf hf.1 _ _ _, ihg hf.2 _ _ _⟩
  | imp f g | iff f g => exact hf.elim
  | all x f ih | ex x f ih => exact ih hf _ _ _

theorem isMatrix_matrixAs (origin : Option Nat) (b : Bool) (n : Nat) (us : List Term)
    (θ : Ident → Term) (f : Formula) : (f.matrixAs origin b n us θ).IsMatrix :=
  isMatrix_dropUniversals (isNnf_nnfAs b _) _ _ _ _

theorem matrixAs_iff_true (origin : Option Nat) (n : Nat) (us : List Term) (θ : Ident → Term)
    (f g : Formula) : ∃ i j k, n ≤ i ∧ n ≤ j ∧ n ≤ k ∧ (Formula.iff f g).matrixAs origin true n us θ =
      .and (.or (f.matrixAs origin false n us θ) (g.matrixAs origin true i us θ))
        (.or (g.matrixAs origin false j us θ) (f.matrixAs origin true k us θ)) :=
  ⟨_, _, _, Nat.le_add_right n _, Nat.le_add_right n _,
    Nat.le_trans (Nat.le_add_right n _) (Nat.le_add_right _ _), rfl⟩

theorem matrixAs_iff_false (origin : Option Nat) (n : Nat) (us : List Term) (θ : Ident → Term)
    (f g : Formula) : ∃ i j k, n ≤ i ∧ n ≤ j ∧ n ≤ k ∧ (Formula.iff f g).matrixAs origin false n us θ =
      .or (.and (f.matrixAs origin true n us θ) (g.matrixAs origin false i us θ))
        (.and (g.matrixAs origin true j us θ) (f.matrixAs origin false k us θ)) :=
  ⟨_, _, _, Nat.le_add_right n _, Nat.le_add_right n _,
    Nat.le_trans (Nat.le_add_right n _) (Nat.le_add_right _ _), rfl⟩

/-! ## Section 2: Its atoms and variables -/

theorem atoms_dropUniversals (f : Formula) : f.dropUniversals.atoms = f.atoms := by
  induction f with
  | atom a => rfl
  | not f ih | all x f ih | ex x f ih => exact ih
  | and f g ihf ihg | or f g ihf ihg | imp f g ihf ihg | iff f g ihf ihg =>
    simp only [dropUniversals, atoms, ihf, ihg]

theorem exists_atom_of_mem_freeVars {f : Formula} {x : Ident} (hx : x ∈ f.freeVars) :
    ∃ a ∈ f.atoms, x ∈ a.vars := by
  induction f with
  | atom a => exact ⟨a, List.mem_singleton_self a, hx⟩
  | not f ih => exact ih hx
  | and f g ihf ihg | or f g ihf ihg | imp f g ihf ihg | iff f g ihf ihg =>
    rcases List.mem_append.mp hx with hx | hx
    · obtain ⟨a, ha, hx⟩ := ihf hx
      exact ⟨a, List.mem_append_left _ ha, hx⟩
    · obtain ⟨a, ha, hx⟩ := ihg hx
      exact ⟨a, List.mem_append_right _ ha, hx⟩
  | all y f ih | ex y f ih => exact ih (List.mem_filter.mp hx).1

theorem append_subset_append {α : Type} {l r m n : List α} (hl : l ⊆ m) (hr : r ⊆ n) :
    l ++ r ⊆ m ++ n :=
  List.append_subset.mpr
    ⟨List.subset_append_of_subset_left _ hl, List.subset_append_of_subset_right _ hr⟩

/-- Doubled sides of an equivalence add nothing that was not there. -/
theorem doubled_subset {α : Type} {l l' r r' m n : List α} (hl : l ⊆ m) (hr : r ⊆ n) (hl' : l' ⊆ m)
    (hr' : r' ⊆ n) : (l ++ r) ++ (r' ++ l') ⊆ m ++ n := by
  refine List.append_subset.mpr ⟨append_subset_append hl hr, List.append_subset.mpr ?_⟩
  exact ⟨List.subset_append_of_subset_right _ hr', List.subset_append_of_subset_left _ hl'⟩

theorem atoms_nnfAs_eliminate (b : Bool) (f : Formula) :
    (f.eliminate.nnfAs b).atoms ⊆ f.atoms := by
  induction f generalizing b with
  | atom a => cases b <;> exact List.Subset.refl _
  | not f ih | all x f ih | ex x f ih => cases b <;> exact ih _
  | and f g ihf ihg | or f g ihf ihg | imp f g ihf ihg =>
    cases b <;> exact append_subset_append (ihf _) (ihg _)
  | iff f g ihf ihg => cases b <;> exact doubled_subset (ihf _) (ihg _) (ihf _) (ihg _)

theorem bound_nnfAs_eliminate (b : Bool) (f : Formula) :
    (f.eliminate.nnfAs b).bound ⊆ f.bound := by
  induction f generalizing b with
  | atom a => cases b <;> exact List.Subset.refl _
  | not f ih => cases b <;> exact ih _
  | and f g ihf ihg | or f g ihf ihg | imp f g ihf ihg =>
    cases b <;> exact append_subset_append (ihf _) (ihg _)
  | iff f g ihf ihg => cases b <;> exact doubled_subset (ihf _) (ihg _) (ihf _) (ihg _)
  | all x f ih | ex x f ih => cases b <;> exact List.cons_subset_cons x (ih _)

/-- The variables of a matrix are the universal ones in scope and bound variables. -/
theorem mem_freeVars_matrixAs {origin : Option Nat} {b : Bool} {n : Nat} {ws B : List Ident}
    {θ : Ident → Term} (hθ : SkolemScope n ws B θ) {f : Formula} (hf : f.WellScoped B) {x : Ident}
    (hx : x ∈ (f.matrixAs origin b n (ws.map .var) θ).freeVars) : x ∈ B ∨ x ∈ f.bound := by
  obtain ⟨a, ha, hx⟩ := exists_atom_of_mem_freeVars hx
  rw [matrixAs, atoms_dropUniversals] at ha
  obtain ⟨c, -, τ, rfl, hvars, -⟩ := mem_atoms_skolemiseFrom hθ (hf.eliminate.nnfAs b) ha
  obtain ⟨y, hy, hx⟩ := Atom.mem_vars_subst.mp hx
  exact (hvars y hy x hx).imp (hθ.sub x) fun h => bound_nnfAs_eliminate b f h

end Formula

/-! ## Section 3: Truth -/

namespace Interpretation

variable {D : Type u} (I : Interpretation D)

/-- A formula in negation normal form is true only where it is without universal quantifiers. -/
theorem holds_dropUniversals {f : Formula} (hf : f.IsNnf) {v : Ident → D} (h : I.Holds v f) :
    I.Holds v f.dropUniversals := by
  induction f generalizing v with
  | atom a => exact h
  | not f =>
    cases f with
    | atom a => exact h
    | _ => exact hf.elim
  | and f g ihf ihg => exact ⟨ihf hf.1 h.1, ihg hf.2 h.2⟩
  | or f g ihf ihg => exact h.imp (ihf hf.1) (ihg hf.2)
  | imp f g | iff f g => exact hf.elim
  | all x f ih =>
    have hv := h (v x)
    rw [Function.update_eq_self] at hv
    exact ih hf hv
  | ex x f ih =>
    obtain ⟨d, hd⟩ := h
    exact ⟨d, ih hf hd⟩

variable {I}

/-- Some valuation that gives `B` the values that `v` gives falsifies a formula. -/
def Falsifiable (I : Interpretation D) (B : List Ident) (v : Ident → D) (f : Formula) : Prop :=
  ∃ w, (∀ x ∈ B, w x = v x) ∧ ¬ I.Holds w f

namespace Falsifiable

variable {B : List Ident} {v : Ident → D} {f g : Formula}

theorem mono (h : I.Falsifiable B v f) (hgf : ∀ w, I.Holds w g → I.Holds w f) :
    I.Falsifiable B v g :=
  h.imp fun w hw => ⟨hw.1, fun hg => hw.2 (hgf w hg)⟩

/-- Parts that share no variables besides the given ones are falsified together. -/
theorem or {X Y : List Ident} (hf : I.Falsifiable B v f) (hg : I.Falsifiable B v g)
    (hX : ∀ x ∈ f.freeVars, x ∈ B ∨ x ∈ X) (hY : ∀ x ∈ g.freeVars, x ∈ B ∨ x ∈ Y)
    (hXY : ∀ x ∈ Y, x ∉ X) : I.Falsifiable B v (.or f g) := by
  obtain ⟨wf, hwf, hf⟩ := hf
  obtain ⟨wg, hwg, hg⟩ := hg
  let w : Ident → D := fun x => if x ∈ X then wf x else wg x
  have hw : ∀ x ∈ B, w x = v x := by
    intro x hx
    by_cases hxX : x ∈ X <;> simp [w, hxX, hwf x hx, hwg x hx]
  refine ⟨w, hw, ?_⟩
  rintro (h | h)
  · refine hf ((I.holds_congr fun x hx => ?_).mp h)
    rcases hX x hx with hx | hx
    · rw [hw x hx, hwf x hx]
    · simp [w, hx]
  · refine hg ((I.holds_congr fun x hx => ?_).mp h)
    rcases hY x hx with hx | hx
    · rw [hw x hx, hwg x hx]
    · simp [w, hXY x hx]

end Falsifiable

/-- The values that a Skolem symbol gives to an existential variable. -/
theorem eval_skolem (I : Interpretation D) (v : Ident → D) (θ : Ident → Term) (x : Ident)
    (t : Term) :
    (fun y => I.eval v (if y = x then t else θ y)) =
      Function.update (fun y => I.eval v (θ y)) x (I.eval v t) := by
  funext y
  by_cases hyx : y = x <;> simp [hyx]

end Interpretation

/-! ## Section 4: From the matrix to the formula -/

namespace Interpretation

variable {D : Type u}

/-- Where the truth of a formula does not agree with a sign, the matrix of that sign has a false
    instance. -/
def Refutable (I : Interpretation D) (origin : Option Nat) (n : Nat) (ws B : List Ident)
    (θ : Ident → Term) (v : Ident → D) (f : Formula) : Prop :=
  ∀ b m, n ≤ m → ¬ (I.Holds (fun y => I.eval v (θ y)) f ↔ b = true) →
    I.Falsifiable B v (f.matrixAs origin b m (ws.map .var) θ)

namespace Refutable

variable {I : Interpretation D} {origin : Option Nat} {n : Nat} {ws B : List Ident}
  {θ : Ident → Term} {v : Ident → D} {f g : Formula}

private theorem atom (a : Atom) : I.Refutable origin n ws B θ v (.atom a) := by
  intro b m _ h
  rw [Holds, ← holdsAtom_subst] at h
  refine ⟨v, fun _ _ => rfl, ?_⟩
  cases b with
  | false =>
    show ¬ ¬ I.HoldsAtom v (a.subst θ)
    simpa using h
  | true =>
    show ¬ I.HoldsAtom v (a.subst θ)
    simpa using h

theorem not (hf : I.Refutable origin n ws B θ v f) : I.Refutable origin n ws B θ v (.not f) := by
  intro b m hm h
  cases b with
  | false => exact hf true m hm fun hv => h (by simpa [Holds] using hv)
  | true => exact hf false m hm fun hv => h (by simpa [Holds] using hv)

/-- A false conjunct is enough. -/
theorem conj (hf : I.Refutable origin n ws B θ v f) (hg : I.Refutable origin n ws B θ v g)
    {b c : Bool} {m k : Nat} (hm : n ≤ m) (hk : n ≤ k)
    (h : ¬ ((I.Holds (fun y => I.eval v (θ y)) f ↔ b = true) ∧
      (I.Holds (fun y => I.eval v (θ y)) g ↔ c = true))) :
    I.Falsifiable B v (.and (f.matrixAs origin b m (ws.map .var) θ)
      (g.matrixAs origin c k (ws.map .var) θ)) := by
  rcases not_and_or.mp h with h | h
  · exact (hf b m hm h).mono fun w hw => hw.1
  · exact (hg c k hk h).mono fun w hw => hw.2

/-- Two false disjuncts with different quantifiers are false together. -/
theorem disj (hf : I.Refutable origin n ws B θ v f) (hg : I.Refutable origin n ws B θ v g)
    (hθ : SkolemScope n ws B θ) (hsf : f.Separated B) (hsg : g.Separated B)
    (hfg : ∀ x ∈ g.bound, x ∉ f.bound) {b c : Bool} {m k : Nat} (hm : n ≤ m) (hk : n ≤ k)
    (hb : ¬ (I.Holds (fun y => I.eval v (θ y)) f ↔ b = true))
    (hc : ¬ (I.Holds (fun y => I.eval v (θ y)) g ↔ c = true)) :
    I.Falsifiable B v (.or (f.matrixAs origin b m (ws.map .var) θ)
      (g.matrixAs origin c k (ws.map .var) θ)) :=
  (hf b m hm hb).or (hg c k hk hc)
    (fun _ => Formula.mem_freeVars_matrixAs (hθ.mono hm) hsf.wellScoped)
    (fun _ => Formula.mem_freeVars_matrixAs (hθ.mono hk) hsg.wellScoped) hfg

private theorem and (hf : I.Refutable origin n ws B θ v f) (hg : I.Refutable origin n ws B θ v g)
    (hθ : SkolemScope n ws B θ) (hs : (Formula.and f g).Separated B) :
    I.Refutable origin n ws B θ v (.and f g) := by
  obtain ⟨hsf, hsg, hfg⟩ := hs.parts rfl rfl
  intro b m hm h
  have hk (k : Nat) : n ≤ m + k := Nat.le_trans hm (Nat.le_add_right m k)
  cases b with
  | true => exact hf.conj hg (b := true) (c := true) hm (hk _) (by simpa [Holds] using h)
  | false =>
    have hv : I.Holds (fun y => I.eval v (θ y)) f ∧ I.Holds (fun y => I.eval v (θ y)) g := by
      simpa [Holds] using h
    exact hf.disj hg hθ hsf hsg hfg (b := false) (c := false) hm (hk _) (by simpa using hv.1)
      (by simpa using hv.2)

private theorem or (hf : I.Refutable origin n ws B θ v f) (hg : I.Refutable origin n ws B θ v g)
    (hθ : SkolemScope n ws B θ) (hs : (Formula.or f g).Separated B) :
    I.Refutable origin n ws B θ v (.or f g) := by
  obtain ⟨hsf, hsg, hfg⟩ := hs.parts rfl rfl
  intro b m hm h
  have hk (k : Nat) : n ≤ m + k := Nat.le_trans hm (Nat.le_add_right m k)
  cases b with
  | true =>
    have hv : ¬ I.Holds (fun y => I.eval v (θ y)) f ∧ ¬ I.Holds (fun y => I.eval v (θ y)) g := by
      simpa [Holds] using h
    exact hf.disj hg hθ hsf hsg hfg (b := true) (c := true) hm (hk _) (by simpa using hv.1)
      (by simpa using hv.2)
  | false =>
    refine hf.conj hg (b := false) (c := false) hm (hk _) fun hv => h ?_
    simpa [Holds] using hv

private theorem imp (hf : I.Refutable origin n ws B θ v f) (hg : I.Refutable origin n ws B θ v g)
    (hθ : SkolemScope n ws B θ) (hs : (Formula.imp f g).Separated B) :
    I.Refutable origin n ws B θ v (.imp f g) := by
  obtain ⟨hsf, hsg, hfg⟩ := hs.parts rfl rfl
  intro b m hm h
  have hk (k : Nat) : n ≤ m + k := Nat.le_trans hm (Nat.le_add_right m k)
  cases b with
  | true =>
    have hv : I.Holds (fun y => I.eval v (θ y)) f ∧ ¬ I.Holds (fun y => I.eval v (θ y)) g := by
      simpa [Holds] using h
    exact hf.disj hg hθ hsf hsg hfg (b := false) (c := true) hm (hk _) (by simpa using hv.1)
      (by simpa using hv.2)
  | false =>
    refine hf.conj hg (b := true) (c := false) hm (hk _) fun hv => h ?_
    simpa [Holds] using hv

/-- Each of `F`, `~F`, `G`, `~G` occurs once, and where `F` and `G` have the same truth value, two of
    them that are false belong to different sides. -/
theorem iff (hf : I.Refutable origin n ws B θ v f) (hg : I.Refutable origin n ws B θ v g)
    (hθ : SkolemScope n ws B θ) (hs : (Formula.iff f g).Separated B) :
    I.Refutable origin n ws B θ v (.iff f g) := by
  obtain ⟨hsf, hsg, hfg⟩ := hs.parts rfl rfl
  intro b m hm h
  have hor (b c : Bool) {i j : Nat} (hi : m ≤ i) (hj : m ≤ j) :=
    hf.disj hg hθ hsf hsg hfg (b := b) (c := c) (Nat.le_trans hm hi) (Nat.le_trans hm hj)
  cases b with
  | true =>
    obtain ⟨i, j, k, hi, hj, hk, heq⟩ :=
      Formula.matrixAs_iff_true origin m (ws.map .var) θ f g
    rw [heq]
    by_cases hv : I.Holds (fun y => I.eval v (θ y)) f
    · have hw : ¬ I.Holds (fun y => I.eval v (θ y)) g := by simpa [Holds, hv] using h
      refine (hor false true (Nat.le_refl m) hi (by simpa using hv) (by simpa using hw)).mono ?_
      exact fun w hw => hw.1
    · have hw : I.Holds (fun y => I.eval v (θ y)) g := by simpa [Holds, hv] using h
      refine (hor true false hk hj (by simpa using hv) (by simpa using hw)).mono ?_
      exact fun w hw => hw.2.symm
  | false =>
    obtain ⟨i, j, k, hi, hj, hk, heq⟩ :=
      Formula.matrixAs_iff_false origin m (ws.map .var) θ f g
    rw [heq]
    by_cases hv : I.Holds (fun y => I.eval v (θ y)) f
    · have hw : I.Holds (fun y => I.eval v (θ y)) g := by simpa [Holds, hv] using h
      refine (hor false false hk hi (by simpa using hv) (by simpa using hw)).mono ?_
      exact fun w hw => hw.symm.imp And.right And.right
    · have hw : ¬ I.Holds (fun y => I.eval v (θ y)) g := by simpa [Holds, hv] using h
      refine (hor true true (Nat.le_refl m) hj (by simpa using hv) (by simpa using hw)).mono ?_
      exact fun w hw => hw.imp And.left And.left

/-- A universal variable takes the value that makes the body false. -/
theorem universal {x : Ident} (hθ : SkolemScope n ws B θ) (hx : x ∉ B) {d : D}
    (hf : I.Refutable origin n (ws ++ [x]) (x :: B) θ (Function.update v x d) f) {b : Bool} {m : Nat}
    (hm : n ≤ m)
    (h : ¬ (I.Holds (Function.update (fun y => I.eval v (θ y)) x d) f ↔ b = true)) :
    I.Falsifiable B v (f.matrixAs origin b m (ws.map .var ++ [.var x]) θ) := by
  rw [← hθ.eval_update hx] at h
  obtain ⟨w, hw, hfalse⟩ := hf b m hm h
  rw [List.map_append] at hfalse
  refine ⟨w, fun y hy => ?_, hfalse⟩
  have hyx : y ≠ x := fun e => hx (e ▸ hy)
  rw [hw y (List.mem_cons_of_mem _ hy), Function.update_of_ne hyx]

/-- An existential variable has the value of its Skolem term. -/
theorem existential {x : Ident}
    (hf : I.Refutable origin (n + 1) ws (x :: B)
      (fun y => if y = x then .app (.skolem n x origin) (ws.map .var) else θ y) v f) {b : Bool}
    (h : ∀ d, ¬ (I.Holds (Function.update (fun y => I.eval v (θ y)) x d) f ↔ b = true)) :
    I.Falsifiable B v (f.matrixAs origin b (n + 1) (ws.map .var)
      fun y => if y = x then .app (.skolem n x origin) (ws.map .var) else θ y) := by
  have hv := h (I.eval v (.app (.skolem n x origin) (ws.map .var)))
  rw [← eval_skolem] at hv
  obtain ⟨w, hw, hfalse⟩ := hf b (n + 1) (Nat.le_refl _) hv
  exact ⟨w, fun y hy => hw y (List.mem_cons_of_mem _ hy), hfalse⟩

end Refutable

/-- The matrix of a formula with separate quantifiers has a false instance wherever the formula is
    false, and so has the matrix of the negation wherever the formula is true. -/
theorem refutable (I : Interpretation D) (origin : Option Nat) {n : Nat} {ws B : List Ident}
    {θ : Ident → Term} (hθ : SkolemScope n ws B θ) {f : Formula} (hs : f.Separated B)
    (v : Ident → D) : I.Refutable origin n ws B θ v f := by
  induction f generalizing n ws B θ v with
  | atom a => exact .atom a
  | not f ih => exact .not (ih hθ ⟨hs.free, hs.nodup, hs.fresh⟩ v)
  | and f g ihf ihg =>
    obtain ⟨hf, hg, -⟩ := hs.parts rfl rfl
    exact .and (ihf hθ hf v) (ihg hθ hg v) hθ hs
  | or f g ihf ihg =>
    obtain ⟨hf, hg, -⟩ := hs.parts rfl rfl
    exact .or (ihf hθ hf v) (ihg hθ hg v) hθ hs
  | imp f g ihf ihg =>
    obtain ⟨hf, hg, -⟩ := hs.parts rfl rfl
    exact .imp (ihf hθ hf v) (ihg hθ hg v) hθ hs
  | iff f g ihf ihg =>
    obtain ⟨hf, hg, -⟩ := hs.parts rfl rfl
    exact .iff (ihf hθ hf v) (ihg hθ hg v) hθ hs
  | all x f ih =>
    obtain ⟨hx, hf⟩ := hs.body rfl rfl
    intro b m hm h
    cases b with
    | true =>
      obtain ⟨d, hd⟩ : ∃ d, ¬ I.Holds (Function.update (fun y => I.eval v (θ y)) x d) f := by
        simpa [Holds] using h
      exact Refutable.universal hθ hx (ih (hθ.all hx) hf _) hm (by simpa using hd)
    | false =>
      have hall : ∀ d, I.Holds (Function.update (fun y => I.eval v (θ y)) x d) f := by
        simpa [Holds] using h
      exact Refutable.existential (ih ((hθ.mono hm).ex x origin) hf v) (by simpa using hall)
  | ex x f ih =>
    obtain ⟨hx, hf⟩ := hs.body rfl rfl
    intro b m hm h
    cases b with
    | true =>
      have hnone : ∀ d, ¬ I.Holds (Function.update (fun y => I.eval v (θ y)) x d) f := by
        simpa [Holds] using h
      exact Refutable.existential (ih ((hθ.mono hm).ex x origin) hf v) (by simpa using hnone)
    | false =>
      obtain ⟨d, hd⟩ : ∃ d, I.Holds (Function.update (fun y => I.eval v (θ y)) x d) f := by
        simpa [Holds] using h
      exact Refutable.universal hθ hx (ih (hθ.all hx) hf _) hm (by simpa using hd)

end Interpretation

end Clausal
