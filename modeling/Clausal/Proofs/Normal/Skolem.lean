import Clausal.Normal.Matrix
import Clausal.Normal.Skolem
import Clausal.Proofs.Normal.Matrix
import Clausal.Proofs.Normal.Negation
import Clausal.Proofs.Normal.Standard

/-!
# Meaning of Skolem forms

A Skolem symbol is a choice of witnesses.  Its arguments are all the universal variables in whose
scope the existential quantifier stands, so the witness may depend on their values and on nothing
else.  Any interpretation can therefore be changed on the Skolem symbols alone so that the Skolem
form holds wherever the formula does.

## Main definitions

- `SkolemScope`: what holds of the replacement of existential variables on the way down a formula
- `Formula.skolems`: the Skolem symbols of a formula

## Main statements

- `Interpretation.exists_skolem`: suitable witnesses exist
- `Formula.mem_atoms_skolemiseFrom`: the atoms of a Skolem form are instances of the given ones
-/

namespace Clausal

universe u

/-! ## Section 1: Replacements on the way down -/

/-- On the way down a formula, `B` are the variables met so far and `ws` the universal ones among
    them.  `θ` leaves new variables alone and puts terms over `ws` for those of `B`, built with
    function symbols handed out before `n`. -/
structure SkolemScope (n : Nat) (ws B : List Ident) (θ : Ident → Term) : Prop where
  unbound : ∀ y, y ∉ B → θ y = .var y
  vars : ∀ y ∈ B, ∀ z ∈ (θ y).vars, z ∈ ws
  sub : ∀ z ∈ ws, z ∈ B
  below : ∀ y, ∀ g ∈ (θ y).functions, g.Below n

namespace SkolemScope

variable {n : Nat} {ws B : List Ident} {θ : Ident → Term} {x : Ident}

/-- Before anything is replaced, the given variables are the free ones. -/
theorem start (n : Nat) (ws : List Ident) : SkolemScope n ws ws .var where
  unbound _ _ := rfl
  vars y hy z hz := by
    have hz : z = y := by simpa [Term.vars] using hz
    exact hz ▸ hy
  sub _ hz := hz
  below _ g hg := by simp [Term.functions] at hg

theorem mono {m : Nat} (h : SkolemScope n ws B θ) (hnm : n ≤ m) : SkolemScope m ws B θ :=
  { h with below := fun y g hg => (h.below y g hg).mono hnm }

/-- A universal quantifier adds its variable to the arguments of further Skolem symbols. -/
theorem all (h : SkolemScope n ws B θ) (hx : x ∉ B) : SkolemScope n (ws ++ [x]) (x :: B) θ where
  unbound y hy := h.unbound y fun hB => hy (List.mem_cons_of_mem _ hB)
  vars y hy z hz := by
    rcases List.mem_cons.mp hy with rfl | hy
    · rw [h.unbound y hx] at hz
      exact List.mem_append_right _ hz
    · exact List.mem_append_left _ (h.vars y hy z hz)
  sub z hz := by
    rcases List.mem_append.mp hz with hz | hz
    · exact List.mem_cons_of_mem _ (h.sub z hz)
    · exact List.mem_singleton.mp hz ▸ List.mem_cons_self
  below := h.below

/-- An existential quantifier replaces its variable by a new symbol. -/
theorem ex (h : SkolemScope n ws B θ) (x : Ident) (origin : Option Nat) :
    SkolemScope (n + 1) ws (x :: B)
      (fun y => if y = x then .app (.skolem n x origin) (ws.map .var) else θ y) where
  unbound y hy := by
    have hyx : y ≠ x := fun e => hy (e ▸ List.mem_cons_self)
    rw [if_neg hyx, h.unbound y fun hB => hy (List.mem_cons_of_mem _ hB)]
  vars y hy z hz := by
    by_cases hyx : y = x
    · simpa [hyx, Term.vars] using hz
    · rw [if_neg hyx] at hz
      exact h.vars y ((List.mem_cons.mp hy).resolve_left hyx) z hz
  sub z hz := List.mem_cons_of_mem _ (h.sub z hz)
  below y g hg := by
    by_cases hyx : y = x
    · have hg : g = .skolem n x origin := by simpa [hyx, Term.functions] using hg
      exact hg ▸ Nat.lt_succ_self n
    · rw [if_neg hyx] at hg
      exact (h.below y g hg).mono (Nat.le_succ n)

/-- A variable that is bound anew gets its value, and no replacement notices. -/
theorem eval_update (h : SkolemScope n ws B θ) (hx : x ∉ B) {D : Type u} (I : Interpretation D)
    (v : Ident → D) (d : D) :
    (fun y => I.eval (Function.update v x d) (θ y)) =
      Function.update (fun y => I.eval v (θ y)) x d := by
  funext y
  by_cases hyx : y = x
  · simp [hyx, h.unbound x hx]
  · rw [Function.update_of_ne hyx]
    refine I.eval_congr fun z hz => Function.update_of_ne ?_ _ _
    rintro rfl
    by_cases hy : y ∈ B
    · exact hx (h.sub z (h.vars y hy z hz))
    · rw [h.unbound y hy] at hz
      exact hyx (List.mem_singleton.mp hz).symm

end SkolemScope

/-! ## Section 2: Well-scoped formulas -/

namespace Interpretation

variable {D : Type u} (I : Interpretation D)

/-- The truth of a well-scoped formula depends on the given variables only. -/
theorem holds_congr_of_wellScoped {B : List Ident} {f : Formula} (hf : f.WellScoped B)
    {v w : Ident → D} (h : ∀ x ∈ B, v x = w x) : I.Holds v f ↔ I.Holds w f := by
  have under {x : Ident} {B : List Ident} {v w : Ident → D} (h : ∀ y ∈ B, v y = w y) (d : D) :
      ∀ y ∈ x :: B, Function.update v x d y = Function.update w x d y := by
    intro y hy
    by_cases hyx : y = x
    · simp [hyx]
    · simpa [hyx] using h y ((List.mem_cons.mp hy).resolve_left hyx)
  induction f generalizing B v w with
  | atom a => exact I.holdsAtom_congr fun x hx => h x (hf x hx)
  | not f ih => exact not_congr (ih hf h)
  | and f g ihf ihg => exact and_congr (ihf hf.1 h) (ihg hf.2 h)
  | or f g ihf ihg => exact or_congr (ihf hf.1 h) (ihg hf.2 h)
  | imp f g ihf ihg => exact imp_congr (ihf hf.1 h) (ihg hf.2 h)
  | iff f g ihf ihg => exact iff_congr (ihf hf.1 h) (ihg hf.2 h)
  | all x f ih => exact forall_congr' fun d => ih hf.2 (under h d)
  | ex x f ih => exact exists_congr fun d => ih hf.2 (under h d)

end Interpretation

namespace Formula

theorem WellScoped.eliminate {B : List Ident} {f : Formula} (hf : f.WellScoped B) :
    f.eliminate.WellScoped B := by
  induction f generalizing B with
  | atom a => exact hf
  | not f ih => exact ih hf
  | and f g ihf ihg | or f g ihf ihg | imp f g ihf ihg => exact ⟨ihf hf.1, ihg hf.2⟩
  | iff f g ihf ihg => exact ⟨⟨ihf hf.1, ihg hf.2⟩, ⟨ihg hf.2, ihf hf.1⟩⟩
  | all x f ih | ex x f ih => exact ⟨hf.1, ih hf.2⟩

theorem WellScoped.nnfAs {B : List Ident} {f : Formula} (hf : f.WellScoped B) (b : Bool) :
    (f.nnfAs b).WellScoped B := by
  induction f generalizing B b with
  | atom a => cases b <;> exact hf
  | not f ih => cases b <;> exact ih hf _
  | and f g ihf ihg | or f g ihf ihg | imp f g ihf ihg =>
    cases b <;> exact ⟨ihf hf.1 _, ihg hf.2 _⟩
  | iff f g ihf ihg =>
    cases b with
    | false => exact ⟨⟨ihf hf.1 _, ihg hf.2 _⟩, ⟨ihf hf.1 _, ihg hf.2 _⟩⟩
    | true => exact ⟨⟨ihf hf.1 _, ihg hf.2 _⟩, ⟨ihg hf.2 _, ihf hf.1 _⟩⟩
  | all x f ih | ex x f ih => cases b <;> exact ⟨hf.1, ih hf.2 _⟩

end Formula

/-! ## Section 3: The symbols and atoms of a Skolem form -/

namespace Formula

/-- The Skolem symbols of a formula whose first one has serial `n`. -/
def skolems (origin : Option Nat) : Nat → Formula → List Ident
  | _, .atom _ => []
  | n, .not f | n, .all _ f => f.skolems origin n
  | n, .and f g | n, .or f g | n, .imp f g | n, .iff f g =>
    f.skolems origin n ++ g.skolems origin (n + f.existentials)
  | n, .ex x f => .skolem n x origin :: f.skolems origin (n + 1)

theorem mem_skolems {origin : Option Nat} {n : Nat} {f : Formula} {g : Ident}
    (hg : g ∈ f.skolems origin n) :
    ∃ k x, g = .skolem k x origin ∧ n ≤ k ∧ k < n + f.existentials := by
  induction f generalizing n with
  | atom a => simp [skolems] at hg
  | not f ih | all x f ih => exact ih hg
  | and f g ihf ihg | or f g ihf ihg | imp f g ihf ihg | iff f g ihf ihg =>
    rcases List.mem_append.mp hg with hg | hg
    · obtain ⟨k, x, rfl, hk, hk'⟩ := ihf hg
      exact ⟨k, x, rfl, hk, by simp only [existentials]; omega⟩
    · obtain ⟨k, x, rfl, hk, hk'⟩ := ihg hg
      exact ⟨k, x, rfl, by omega, by simp only [existentials]; omega⟩
  | ex x f ih =>
    rcases List.mem_cons.mp hg with rfl | hg
    · exact ⟨n, x, rfl, Nat.le_refl n, by simp only [existentials]; omega⟩
    · obtain ⟨k, y, rfl, hk, hk'⟩ := ih hg
      exact ⟨k, y, rfl, by omega, by simp only [existentials]; omega⟩

/-- The Skolem symbols from serial `n` on are different from all names handed out before. -/
theorem not_mem_skolems_of_below {origin : Option Nat} {n : Nat} {f : Formula} {g : Ident}
    (hg : g.Below n) : g ∉ f.skolems origin n := by
  intro h
  obtain ⟨k, x, rfl, hk, -⟩ := mem_skolems h
  exact absurd hg (Nat.not_lt.mpr hk)

/-- Every atom of a Skolem form is an instance of an atom of the formula, in universal variables
    and with function symbols handed out by then. -/
theorem mem_atoms_skolemiseFrom {origin : Option Nat} {n : Nat} {ws B : List Ident}
    {θ : Ident → Term} (hθ : SkolemScope n ws B θ) {f : Formula} (hf : f.WellScoped B) {a : Atom}
    (ha : a ∈ (f.skolemiseFrom origin n (ws.map .var) θ).atoms) :
    ∃ b ∈ f.atoms, ∃ τ : Ident → Term, a = b.subst τ ∧
      (∀ y ∈ b.vars, ∀ z ∈ (τ y).vars, z ∈ ws ∨ z ∈ f.bound) ∧
      ∀ y, ∀ g ∈ (τ y).functions, g.Below (n + f.existentials) := by
  induction f generalizing n ws B θ with
  | atom b =>
    refine ⟨b, List.mem_singleton_self b, θ, List.mem_singleton.mp ha, ?_, hθ.below⟩
    exact fun y hy z hz => Or.inl (hθ.vars y (hf y hy) z hz)
  | not f ih => exact ih hθ hf ha
  | and f g ihf ihg | or f g ihf ihg | imp f g ihf ihg | iff f g ihf ihg =>
    rcases List.mem_append.mp ha with ha | ha
    · obtain ⟨b, hb, τ, rfl, hvars, hfun⟩ := ihf hθ hf.1 ha
      refine ⟨b, List.mem_append_left _ hb, τ, rfl, fun y hy z hz => ?_, fun y g hg => ?_⟩
      · exact (hvars y hy z hz).imp id (List.mem_append_left _)
      · exact (hfun y g hg).mono (by simp only [existentials]; omega)
    · obtain ⟨b, hb, τ, rfl, hvars, hfun⟩ := ihg (hθ.mono (Nat.le_add_right _ _)) hf.2 ha
      refine ⟨b, List.mem_append_right _ hb, τ, rfl, fun y hy z hz => ?_, fun y g hg => ?_⟩
      · exact (hvars y hy z hz).imp id (List.mem_append_right _)
      · exact (hfun y g hg).mono (by simp only [existentials]; omega)
  | all x f ih =>
    rw [skolemiseFrom, ← List.map_singleton, ← List.map_append] at ha
    obtain ⟨b, hb, τ, rfl, hvars, hfun⟩ := ih (hθ.all hf.1) hf.2 ha
    refine ⟨b, hb, τ, rfl, fun y hy z hz => ?_, hfun⟩
    rcases hvars y hy z hz with hz | hz
    · rcases List.mem_append.mp hz with hz | hz
      · exact Or.inl hz
      · exact Or.inr (List.mem_singleton.mp hz ▸ List.mem_cons_self)
    · exact Or.inr (List.mem_cons_of_mem _ hz)
  | ex x f ih =>
    obtain ⟨b, hb, τ, rfl, hvars, hfun⟩ := ih (hθ.ex x origin) hf.2 ha
    refine ⟨b, hb, τ, rfl, fun y hy z hz => ?_, fun y g hg => ?_⟩
    · exact (hvars y hy z hz).imp id (List.mem_cons_of_mem _)
    · exact (hfun y g hg).mono (by simp only [existentials]; omega)

/-- The function symbols of a Skolem form have been handed out when it is complete. -/
theorem functions_skolemiseFrom {origin : Option Nat} {n : Nat} {ws B : List Ident}
    {θ : Ident → Term} (hθ : SkolemScope n ws B θ) {f : Formula} (hf : f.WellScoped B)
    (hn : ∀ g ∈ f.functions, g.Below n) {g : Ident}
    (hg : g ∈ (f.skolemiseFrom origin n (ws.map .var) θ).functions) :
    g.Below (n + f.existentials) := by
  obtain ⟨a, ha, hg⟩ := List.mem_flatMap.mp hg
  obtain ⟨b, hb, τ, rfl, -, hfun⟩ := mem_atoms_skolemiseFrom hθ hf ha
  rcases Atom.mem_functions_subst hg with hg | ⟨y, -, hg⟩
  · exact (hn g (List.mem_flatMap.mpr ⟨b, hb, hg⟩)).mono (Nat.le_add_right _ _)
  · exact hfun y g hg

end Formula

/-! ## Section 4: Witnesses -/

namespace Interpretation

variable {D : Type u} {origin : Option Nat} {n : Nat} {ws B : List Ident} {θ : Ident → Term}

/-- A formula over old symbols does not notice a change of new ones. -/
theorem SameExcept.holds_scope {new : Ident → Prop} {I J : Interpretation D}
    (h : SameExcept new I J) (hθ : SkolemScope n ws B θ) (hnew : ∀ g, g.Below n → ¬ new g)
    {f : Formula} (hn : ∀ g ∈ f.functions, g.Below n) (v : Ident → D) :
    J.Holds (fun y => J.eval v (θ y)) f ↔ I.Holds (fun y => I.eval v (θ y)) f := by
  have heval : (fun y => J.eval v (θ y)) = fun y => I.eval v (θ y) :=
    funext fun y => h.eval v fun g hg => hnew g (hθ.below y g hg)
  rw [heval, h.holds _ fun g hg => hnew g (hn g hg)]

/-- A function of the universal variables in scope that yields witnesses wherever there are any. -/
theorem exists_witness (I : Interpretation D) (hθ : SkolemScope n ws B θ) {x : Ident} {f : Formula}
    (hf : f.WellScoped (x :: B)) :
    ∃ F : List D → D, ∀ v, I.Holds (fun y => I.eval v (θ y)) (.ex x f) →
      I.Holds (Function.update (fun y => I.eval v (θ y)) x (F (ws.map v))) f := by
  have hchoice : ∀ ds : List D, ∃ d : D, ∀ v, ws.map v = ds →
      I.Holds (fun y => I.eval v (θ y)) (.ex x f) →
      I.Holds (Function.update (fun y => I.eval v (θ y)) x d) f := by
    intro ds
    by_cases h : ∃ v, ws.map v = ds ∧ I.Holds (fun y => I.eval v (θ y)) (.ex x f)
    · obtain ⟨w, rfl, d, hd⟩ := h
      refine ⟨d, fun v hv _ => (I.holds_congr_of_wellScoped hf fun y hy => ?_).mp hd⟩
      -- `v` and `w` agree on `ws`, and nothing else is read
      by_cases hyx : y = x
      · simp [hyx]
      · have hyB := (List.mem_cons.mp hy).resolve_left hyx
        rw [Function.update_of_ne hyx, Function.update_of_ne hyx]
        exact I.eval_congr fun z hz => (List.map_inj_left.mp hv z (hθ.vars y hyB z hz)).symm
    · exact ⟨I.const .null, fun v hv hex => absurd ⟨v, hv, hex⟩ h⟩
  obtain ⟨F, hF⟩ := Classical.axiomOfChoice hchoice
  exact ⟨F, fun v => hF _ v rfl⟩

/-- `J` gives the Skolem symbols of `f` from serial `n` on witnesses that are right in `I`. -/
structure Witnesses (origin : Option Nat) (n : Nat) (ws : List Ident) (θ : Ident → Term)
    (f : Formula) (I J : Interpretation D) : Prop where
  same : SameExcept (· ∈ f.skolems origin n) I J
  holds : ∀ v, I.Holds (fun y => I.eval v (θ y)) f →
    J.Holds v (f.skolemiseFrom origin n (ws.map .var) θ)

/-- Witnesses for one formula and, after it, for another one are witnesses for both. -/
theorem Witnesses.both (hθ : SkolemScope n ws B θ) {f g : Formula} (hf : f.WellScoped B)
    (hnf : ∀ i ∈ f.functions, i.Below n) (hng : ∀ i ∈ g.functions, i.Below n)
    {I J K : Interpretation D} (hJ : Witnesses origin n ws θ f I J)
    (hK : Witnesses origin (n + f.existentials) ws θ g J K) :
    SameExcept (· ∈ f.skolems origin n ++ g.skolems origin (n + f.existentials)) I K ∧
      (∀ v, I.Holds (fun y => I.eval v (θ y)) f →
        K.Holds v (f.skolemiseFrom origin n (ws.map .var) θ)) ∧
      ∀ v, I.Holds (fun y => I.eval v (θ y)) g →
        K.Holds v (g.skolemiseFrom origin (n + f.existentials) (ws.map .var) θ) := by
  refine ⟨(hJ.same.trans hK.same).mono fun i hi => List.mem_append.mpr hi,
    fun v hv => ?_, fun v hv => ?_⟩
  · refine (hK.same.holds v fun i hi => ?_).mpr (hJ.holds v hv)
    exact Formula.not_mem_skolems_of_below (Formula.functions_skolemiseFrom hθ hf hnf hi)
  · refine hK.holds v ((hJ.same.holds_scope hθ ?_ hng v).mpr hv)
    exact fun _ => Formula.not_mem_skolems_of_below

/-- Witnesses for the body of an existential formula, where the new symbol has taken the values of
    chosen witnesses, are witnesses for the formula. -/
theorem Witnesses.ex (hθ : SkolemScope n ws B θ) {x : Ident} {f : Formula}
    (hn : ∀ g ∈ f.functions, g.Below n) {I K : Interpretation D} {F : List D → D}
    (hF : ∀ v, I.Holds (fun y => I.eval v (θ y)) (.ex x f) →
      I.Holds (Function.update (fun y => I.eval v (θ y)) x (F (ws.map v))) f)
    (hK : Witnesses origin (n + 1) ws
      (fun y => if y = x then .app (.skolem n x origin) (ws.map .var) else θ y) f
      { I with func := Function.update I.func (.skolem n x origin) F } K) :
    Witnesses origin n ws θ (.ex x f) I K := by
  let J : Interpretation D := { I with func := Function.update I.func (.skolem n x origin) F }
  have hJ : SameExcept (· = .skolem n x origin) I J :=
    ⟨rfl, rfl, rfl, fun g hg => Function.update_of_ne hg _ _⟩
  have hold : ∀ g : Ident, g.Below n → g ≠ .skolem n x origin := by
    rintro _ hg rfl
    exact Nat.lt_irrefl n hg
  refine ⟨(hJ.trans hK.same).mono fun g hg => List.mem_cons.mpr hg, fun v hv => hK.holds v ?_⟩
  have heval : (fun y => J.eval v
      (if y = x then .app (.skolem n x origin) (ws.map .var) else θ y)) =
      Function.update (fun y => I.eval v (θ y)) x (F (ws.map v)) := by
    funext y
    by_cases hyx : y = x
    · simp [hyx, J, Function.comp_def]
    · rw [if_neg hyx, Function.update_of_ne hyx]
      exact hJ.eval v fun g hg => hold g (hθ.below y g hg)
  have hfun : ∀ g ∈ f.functions, g ≠ .skolem n x origin := fun g hg => hold g (hn g hg)
  rw [heval]
  exact (hJ.holds _ hfun).mpr (hF v hv)

/-- Every interpretation can be changed on the Skolem symbols of a formula alone so that the Skolem
    form is true wherever the formula is. -/
theorem exists_skolem {f : Formula} (hnnf : f.IsNnf) (hθ : SkolemScope n ws B θ)
    (hf : f.WellScoped B) (hn : ∀ g ∈ f.functions, g.Below n) (I : Interpretation D) :
    ∃ J, Witnesses origin n ws θ f I J := by
  induction f generalizing n ws B θ I with
  | atom a => exact ⟨I, .refl _ I, fun v hv => (I.holdsAtom_subst v θ a).mpr hv⟩
  | not f =>
    cases f with
    | atom a => exact ⟨I, .refl _ I, fun v hv => mt (I.holdsAtom_subst v θ a).mp hv⟩
    | _ => exact hnnf.elim
  | and f g ihf ihg =>
    -- the symbols of the left part come first, then those of the right part
    obtain ⟨hnf, hng⟩ := Formula.forall_functions_append.mp hn
    obtain ⟨J, hJ⟩ := ihf hnnf.1 hθ hf.1 hnf I
    obtain ⟨K, hK⟩ := ihg hnnf.2 (hθ.mono (Nat.le_add_right n f.existentials)) hf.2
      (fun i hi => (hng i hi).mono (Nat.le_add_right _ _)) J
    obtain ⟨hsame, hleft, hright⟩ := hJ.both hθ hf.1 hnf hng hK
    exact ⟨K, hsame, fun v hv => ⟨hleft v hv.1, hright v hv.2⟩⟩
  | or f g ihf ihg =>
    obtain ⟨hnf, hng⟩ := Formula.forall_functions_append.mp hn
    obtain ⟨J, hJ⟩ := ihf hnnf.1 hθ hf.1 hnf I
    obtain ⟨K, hK⟩ := ihg hnnf.2 (hθ.mono (Nat.le_add_right n f.existentials)) hf.2
      (fun i hi => (hng i hi).mono (Nat.le_add_right _ _)) J
    obtain ⟨hsame, hleft, hright⟩ := hJ.both hθ hf.1 hnf hng hK
    exact ⟨K, hsame, fun v hv => hv.imp (hleft v) (hright v)⟩
  | imp f g | iff f g => exact hnnf.elim
  | all x f ih =>
    obtain ⟨J, hJ⟩ := ih hnnf (hθ.all hf.1) hf.2 hn I
    refine ⟨J, hJ.same, fun v hv d => ?_⟩
    rw [← List.map_singleton, ← List.map_append]
    refine hJ.holds (Function.update v x d) ?_
    rw [hθ.eval_update hf.1]
    exact hv d
  | ex x f ih =>
    obtain ⟨F, hF⟩ := I.exists_witness hθ hf.2
    obtain ⟨K, hK⟩ := ih hnnf (hθ.ex x origin) hf.2 (fun g hg => (hn g hg).mono (Nat.le_succ n)) _
    have hbody : ∀ g ∈ f.functions, g.Below n := hn
    exact ⟨K, .ex hθ hbody hF hK⟩

end Interpretation

end Clausal
