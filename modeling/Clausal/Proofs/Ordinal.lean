import Clausal.Ordinal
import Clausal.Proofs.Matching
import Clausal.Proofs.Semantics
import Mathlib.Algebra.Group.End
import Mathlib.Data.Fintype.Sum
import Mathlib.Data.Set.Function

/-!
# Terms up to renaming

Two terms are renamings of each other if one is turned into the other by replacing variables one for
one.  Ordinal forms decide this, and whether a term is an instance of another does not depend on the
names of the variables of either.

## Main definitions

- `Term.RenamesTo`: one-for-one replacement of variables, with a decision procedure
- `Term.Numbered`: the variables of a term are natural numbers, as in ordinal form

## Main statements

- `exists_perm_of_injOn`, `Term.renamesTo_iff_exists_perm`: one-for-one replacement is a permutation of
  all names
- `Term.ordinalise_eq_iff`: equal ordinal forms are renamings
- `Term.isInstanceOf_iff`: matching decides instances
- `Term.isInstanceOf_ordinalise`: instances are seen on ordinal forms
-/

namespace Clausal

/-! ## Section 1: Permutations of names -/

/-- Names that are replaced one for one are replaced by a permutation of all names. -/
theorem exists_perm_of_injOn {xs : List Ident} {f : Ident → Ident}
    (hf : Set.InjOn f {x | x ∈ xs}) : ∃ π : Equiv.Perm Ident, ∀ x ∈ xs, π x = f x := by
  classical
  -- the old names and the new ones together are permuted, the others stay
  let s := xs.toFinset ∪ xs.toFinset.image f
  have hold : ∀ x ∈ xs, x ∈ s := fun x hx => by simp [s, hx]
  have hnew : ∀ x ∈ xs, f x ∈ s := fun x hx =>
    Finset.mem_union_right _ (Finset.mem_image_of_mem f (List.mem_toFinset.mpr hx))
  let old : Finset s := Finset.univ.filter fun x => x.1 ∈ xs
  have himage : old.image (fun x => f x.1) ⊆ s := by
    intro y hy
    obtain ⟨x, hx, rfl⟩ := Finset.mem_image.mp hy
    exact hnew x.1 (Finset.mem_filter.mp hx).2
  have hinj : Set.InjOn (fun x : s => f x.1) old := by
    intro x hx y hy hxy
    exact Subtype.ext (hf (Finset.mem_filter.mp hx).2 (Finset.mem_filter.mp hy).2 hxy)
  obtain ⟨g, hg⟩ := Finset.exists_equiv_extend_of_card_eq (Fintype.card_coe s) himage hinj
  refine ⟨Equiv.Perm.ofSubtype g, fun x hx => ?_⟩
  rw [Equiv.Perm.ofSubtype_apply_of_mem g (hold x hx)]
  exact hg ⟨x, hold x hx⟩ (by simp [old, hx])

namespace Term

/-! ## Section 2: Renaming -/

variable {s t u : Term}

/-- A term with its variables renamed. -/
def rename (ρ : Ident → Ident) (t : Term) : Term :=
  t.subst fun x => .var (ρ x)

/-- The variables of the first term can be replaced one for one so that it becomes the second. -/
def RenamesTo (s t : Term) : Prop :=
  ∃ ρ : Ident → Ident, Set.InjOn ρ {x | x ∈ s.vars} ∧ s.rename ρ = t

theorem vars_rename (ρ : Ident → Ident) (t : Term) : (t.rename ρ).vars = t.vars.map ρ := by
  induction t using Term.induction with
  | var x => rfl
  | const c => rfl
  | app f ts ih =>
    simp only [rename, subst_app, vars_app, List.flatMap_map, List.map_flatMap]
    exact List.flatMap_congr ih

theorem rename_rename (ρ τ : Ident → Ident) (t : Term) :
    (t.rename ρ).rename τ = t.rename (τ ∘ ρ) :=
  subst_subst _ _ t

private theorem rename_eq_self {ρ : Ident → Ident} (h : ∀ x ∈ t.vars, ρ x = x) : t.rename ρ = t :=
  subst_eq_self fun x hx => congrArg Term.var (h x hx)

theorem RenamesTo.symm (h : s.RenamesTo t) : t.RenamesTo s := by
  obtain ⟨ρ, hρ, rfl⟩ := h
  have hinv : Set.LeftInvOn (Function.invFunOn ρ {x | x ∈ s.vars}) ρ {x | x ∈ s.vars} :=
    hρ.leftInvOn_invFunOn
  refine ⟨Function.invFunOn ρ {x | x ∈ s.vars}, ?_, ?_⟩
  · intro y hy z hz hyz
    obtain ⟨x, hx, rfl⟩ := List.mem_map.mp (vars_rename ρ s ▸ hy)
    obtain ⟨x', hx', rfl⟩ := List.mem_map.mp (vars_rename ρ s ▸ hz)
    rw [hinv hx, hinv hx'] at hyz
    rw [hyz]
  · rw [rename_rename]
    exact rename_eq_self fun x hx => hinv hx

private theorem RenamesTo.trans (h : s.RenamesTo t) (h' : t.RenamesTo u) : s.RenamesTo u := by
  obtain ⟨ρ, hρ, rfl⟩ := h
  obtain ⟨τ, hτ, rfl⟩ := h'
  refine ⟨τ ∘ ρ, ?_, (rename_rename ρ τ s).symm⟩
  apply hτ.comp hρ
  intro x hx
  simpa [vars_rename] using ⟨x, hx, rfl⟩

/-- Terms are renamings of each other if and only if a permutation of all names turns one into the
    other. -/
theorem renamesTo_iff_exists_perm : s.RenamesTo t ↔ ∃ π : Equiv.Perm Ident, s.rename π = t := by
  constructor
  · rintro ⟨ρ, hρ, rfl⟩
    obtain ⟨π, hπ⟩ := exists_perm_of_injOn hρ
    exact ⟨π, subst_congr fun x hx => congrArg Term.var (hπ x hx)⟩
  · rintro ⟨π, h⟩
    exact ⟨π, π.injective.injOn, h⟩

/-! ## Section 3: Ordinal form -/

theorem renamesTo_ordinalise (t : Term) : t.RenamesTo t.ordinalise := by
  refine ⟨ordinalIn (dedup t.vars), fun x hx y _ hxy => ?_, rfl⟩
  have hidx : (dedup t.vars).idxOf x = (dedup t.vars).idxOf y :=
    Int.ofNat.inj (Ident.num.inj hxy)
  exact (List.idxOf_inj (mem_dedup_iff.mpr hx)).mp hidx

/-- Terms have the same ordinal form if and only if they are renamings of each other. -/
theorem ordinalise_eq_iff : s.ordinalise = t.ordinalise ↔ s.RenamesTo t := by
  constructor
  · intro h
    exact s.renamesTo_ordinalise.trans (h ▸ t.renamesTo_ordinalise.symm)
  · intro h
    obtain ⟨π, rfl⟩ := renamesTo_iff_exists_perm.mp h
    -- a permutation keeps all names apart, so the new names have the places of the old ones
    have hπ : KeepsEq π := keepsEq_of_injective π.injective
    rw [ordinalise, ordinalise, vars_rename, hπ.dedup_map, rename, subst_subst]
    refine subst_congr fun x _ => congrArg Term.var (congrArg Ident.num ?_)
    rw [hπ.idxOf_map]

instance (s t : Term) : Decidable (s.RenamesTo t) :=
  decidable_of_iff _ ordinalise_eq_iff

/-- The variables of a term are natural numbers. -/
def Numbered (t : Term) : Prop :=
  ∀ x ∈ t.vars, ∃ n : Nat, x = .num n

theorem numbered_ordinalise (t : Term) : t.ordinalise.Numbered := by
  intro x hx
  have hx : x ∈ (t.rename (ordinalIn (dedup t.vars))).vars := hx
  obtain ⟨y, -, rfl⟩ := List.mem_map.mp (vars_rename _ t ▸ hx)
  exact ⟨_, rfl⟩

/-! ## Section 4: Instances -/

/-- A term is an instance of another if it is obtained from it by replacing variables. -/
theorem isInstanceOf_iff : t.isInstanceOf s = true ↔ ∃ ρ, s.subst ρ = t := by
  rw [isInstanceOf, Option.isSome_iff_exists]
  constructor
  · rintro ⟨τ, hτ⟩
    obtain ⟨ρ, hρ⟩ := τ.exists_agrees
    exact ⟨ρ, ((agrees_of_match? hτ).mp hρ).2⟩
  · rintro ⟨ρ, rfl⟩
    exact exists_match? (Substitution.agrees_empty ρ) s

/-- The names of variables have no bearing on instances. -/
theorem RenamesTo.isInstanceOf {s' t' : Term} (hs : s.RenamesTo s') (ht : t.RenamesTo t')
    (h : t.isInstanceOf s = true) : t'.isInstanceOf s' = true := by
  obtain ⟨ρ, hρ⟩ := isInstanceOf_iff.mp h
  obtain ⟨ν, -, rfl⟩ := ht
  obtain ⟨ν', -, rfl⟩ := hs.symm
  -- back to the old names of `s`, then the instance, then the new names of `t`
  refine isInstanceOf_iff.mpr ⟨fun x => (ρ (ν' x)).rename ν, ?_⟩
  show s'.subst (fun x => (ρ (ν' x)).subst fun y => .var (ν y)) = t.subst fun y => .var (ν y)
  rw [← hρ, rename, subst_subst, subst_subst]
  rfl

theorem isInstanceOf_ordinalise (s t : Term) :
    t.ordinalise.isInstanceOf s.ordinalise = t.isInstanceOf s := by
  rw [Bool.eq_iff_iff]
  exact ⟨s.renamesTo_ordinalise.symm.isInstanceOf t.renamesTo_ordinalise.symm,
    s.renamesTo_ordinalise.isInstanceOf t.renamesTo_ordinalise⟩

end Term

end Clausal
