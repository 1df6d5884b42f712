import Clausal.Proofs.Relabelling.Expression
import Mathlib.Order.Basic

/-!
# Supplies in step

A supply hands out serials and places in increasing order.  Two supplies are in step under a
relabelling if it takes whatever the first one hands out from now on to what the second one hands
out.  They stay so as long as both are used in the same way.

When the second supply is used alone, the relabelling has to be changed for what is still to come.
What has been handed out keeps its labels.

## Main definitions

- `Shifts`, `Relabelling.Aligned`: supplies in step
- `Relabelling.Relates`: equal results up to labels, with supplies in step
- `Relabelling.AgreesBelow`: equal labels for all that a supply has handed out

## Main statements

- `Relabelling.Relates.flatMap`, `Clause.relates_renameApart`
- `Relabelling.exists_aligned`: the second supply may go ahead
- `Relabelling.exists_bridge`: from one image to another one
-/

namespace Clausal

/-! ## Section 1: Numbers -/

/-- A map that takes the numbers from `m` on to those from `m'` on, in order, and the earlier ones
    to earlier ones. -/
structure Shifts (g : Nat → Nat) (m m' : Nat) : Prop where
  below : ∀ i < m, g i < m'
  beyond : ∀ i, g (m + i) = m' + i

section Shifts

variable {g g₁ g₂ : Nat → Nat} {m m' : Nat}

theorem Shifts.add (h : Shifts g m m') (k : Nat) : Shifts g (m + k) (m' + k) := by
  constructor
  · intro i hi
    by_cases him : i < m
    · exact Nat.lt_of_lt_of_le (h.below i him) (Nat.le_add_right _ _)
    · obtain ⟨j, rfl⟩ := Nat.exists_eq_add_of_le (Nat.not_lt.mp him)
      rw [h.beyond]
      omega
  · intro i
    rw [Nat.add_assoc, h.beyond, Nat.add_assoc]

/-- A map of the numbers below `m` can be continued by a shift. -/
theorem exists_shifts (hg : Function.Injective g) (hbelow : ∀ i < m, g i < m') :
    ∃ g', Function.Injective g' ∧ (∀ i < m, g' i = g i) ∧ Shifts g' m m' := by
  refine ⟨fun i => if i < m then g i else m' + (i - m), ?_, fun i hi => if_pos hi, ?_, ?_⟩
  · intro i j hij
    dsimp only at hij
    split at hij <;> split at hij
    next => exact hg hij
    next hi _ => have := hbelow i hi; omega
    next _ hj => have := hbelow j hj; omega
    next => omega
  · intro i hi
    simpa [hi] using hbelow i hi
  · intro i
    rw [if_neg (by omega), Nat.add_sub_cancel_left]

/-- What two maps make of the numbers below `m` can be taken from one to the other. -/
theorem exists_bridging (h₁ : Function.Injective g₁) (h₂ : Function.Injective g₂)
    (hbelow : ∀ i < m, g₂ i < m') :
    ∃ g, Function.Injective g ∧ ∀ i < m, g (g₁ i) = g₂ i := by
  classical
  -- numbers that are not met go where none of the others goes
  let g (n : Nat) : Nat := if h : ∃ i < m, g₁ i = n then g₂ h.choose else m' + n
  have hmet : ∀ i < m, g (g₁ i) = g₂ i := by
    intro i hi
    have h : ∃ j < m, g₁ j = g₁ i := ⟨i, hi, rfl⟩
    show dite _ _ _ = _
    rw [dif_pos h, h₁ h.choose_spec.2]
  have hother : ∀ n, (¬ ∃ i < m, g₁ i = n) → g n = m' + n := fun n h => dif_neg h
  refine ⟨g, ?_, hmet⟩
  intro a b hab
  by_cases ha : ∃ i < m, g₁ i = a <;> by_cases hb : ∃ j < m, g₁ j = b
  · obtain ⟨i, hi, rfl⟩ := ha
    obtain ⟨j, hj, rfl⟩ := hb
    rw [hmet i hi, hmet j hj] at hab
    rw [h₂ hab]
  · obtain ⟨i, hi, rfl⟩ := ha
    rw [hmet i hi, hother b hb] at hab
    have := hbelow i hi
    omega
  · obtain ⟨j, hj, rfl⟩ := hb
    rw [hother a ha, hmet j hj] at hab
    have := hbelow j hj
    omega
  · rw [hother a ha, hother b hb] at hab
    omega

end Shifts

/-! ## Section 2: Supplies -/

/-- A supply comes before another one if that has handed out at least as many serials and places. -/
instance : Preorder Names where
  le s s' := s.next ≤ s'.next ∧ s.sources.size ≤ s'.sources.size
  le_refl s := ⟨Nat.le_refl _, Nat.le_refl _⟩
  le_trans _ _ _ h h' := ⟨Nat.le_trans h.1 h'.1, Nat.le_trans h.2 h'.2⟩

namespace Relabelling

variable {π π' : Relabelling} {s s' : Names}

/-- The relabelling takes what `s` hands out from now on to what `s'` hands out. -/
structure Aligned (π : Relabelling) (s s' : Names) : Prop where
  serials : Shifts π.serial s.next s'.next
  places : Shifts π.place s.sources.size s'.sources.size

theorem Aligned.skip (h : π.Aligned s s') (n : Nat) : π.Aligned (s.skip n) (s'.skip n) :=
  ⟨h.serials.add n, h.places⟩

theorem Aligned.record (h : π.Aligned s s') (n n' : Node) :
    π.Aligned (s.record n) (s'.record n') := by
  refine ⟨h.serials, ?_⟩
  simpa [Names.record] using h.places.add 1

/-- The same labels for all that a supply has handed out. -/
structure AgreesBelow (s : Names) (π π' : Relabelling) : Prop where
  serials : ∀ i < s.next, π.serial i = π'.serial i
  places : ∀ i < s.sources.size, π.place i = π'.place i

theorem AgreesBelow.rfl : AgreesBelow s π π :=
  ⟨fun _ _ => Eq.refl _, fun _ _ => Eq.refl _⟩

theorem AgreesBelow.mono (h : AgreesBelow s' π π') (hle : s ≤ s') : AgreesBelow s π π' :=
  ⟨fun i hi => h.serials i (Nat.lt_of_lt_of_le hi hle.1),
    fun i hi => h.places i (Nat.lt_of_lt_of_le hi hle.2)⟩

theorem AgreesBelow.trans {π'' : Relabelling} (h : AgreesBelow s π π')
    (h' : AgreesBelow s π' π'') : AgreesBelow s π π'' :=
  ⟨fun i hi => (h.serials i hi).trans (h'.serials i hi),
    fun i hi => (h.places i hi).trans (h'.places i hi)⟩

/-- If two relabellings keep what a supply has handed out, so does the way from one to the other. -/
theorem AgreesBelow.of_trans {π₁ π₂ : Relabelling} (h : AgreesBelow s (π₁.trans π) π₂)
    (h₁ : AgreesBelow s π₁ .refl) (h₂ : AgreesBelow s π₂ .refl) : AgreesBelow s π .refl := by
  constructor
  · intro i hi
    have hi' : π.serial (π₁.serial i) = π₂.serial i := h.serials i hi
    rw [h₁.serials i hi, h₂.serials i hi] at hi'
    exact hi'
  · intro i hi
    have hi' : π.place (π₁.place i) = π₂.place i := h.places i hi
    rw [h₁.places i hi, h₂.places i hi] at hi'
    exact hi'

/-- The second supply may be any one that knows all that has been handed out. -/
theorem exists_aligned (hserials : ∀ i < s.next, π.serial i < s'.next)
    (hplaces : ∀ i < s.sources.size, π.place i < s'.sources.size) :
    ∃ π', AgreesBelow s π' π ∧ π'.Aligned s s' := by
  obtain ⟨g, hg, hgπ, hshift⟩ := exists_shifts π.serial_injective hserials
  obtain ⟨k, hk, hkπ, hshift'⟩ := exists_shifts π.place_injective hplaces
  exact ⟨⟨g, k, hg, hk⟩, ⟨hgπ, hkπ⟩, ⟨hshift, hshift'⟩⟩

/-- What two relabellings make of what a supply has handed out differs by a relabelling. -/
theorem exists_bridge (π₁ : Relabelling) {π₂ : Relabelling} (h : π₂.Aligned s s') :
    ∃ π, AgreesBelow s (π₁.trans π) π₂ := by
  obtain ⟨g, hg, hgπ⟩ :=
    exists_bridging π₁.serial_injective π₂.serial_injective h.serials.below
  obtain ⟨k, hk, hkπ⟩ := exists_bridging π₁.place_injective π₂.place_injective h.places.below
  exact ⟨⟨g, k, hg, hk⟩, ⟨hgπ, hkπ⟩⟩

/-! ## Section 3: Results -/

/-- The second result is the image of the first one, and the supplies that are left are in step. -/
structure Relates (π : Relabelling) {α β : Type} (f : α → β) (x : α × Names) (y : β × Names) :
    Prop where
  value : y.1 = f x.1
  names : π.Aligned x.2 y.2

/-- What is done for each element of a list in step is done for the list in step. -/
theorem Relates.flatMap {α α' β β' : Type} {f : α → α'} {k : β → β'}
    {g : Names → α → List β × Names} {g' : Names → α' → List β' × Names}
    (hg : ∀ {s s'} (a : α), π.Aligned s s' → π.Relates (List.map k) (g s a) (g' s' (f a)))
    (h : π.Aligned s s') (l : List α) :
    π.Relates (List.map k) (s.flatMap g l) (s'.flatMap g' (l.map f)) := by
  induction l generalizing s s' with
  | nil => exact ⟨rfl, h⟩
  | cons a l ih =>
    have ha := hg a h
    have hl := ih ha.names
    refine ⟨?_, hl.names⟩
    show (g' s' (f a)).1 ++ ((g' s' (f a)).2.flatMap g' (l.map f)).1 =
      ((g s a).1 ++ ((g s a).2.flatMap g l).1).map k
    rw [ha.value, hl.value, List.map_append]

end Relabelling

open Relabelling

variable {π : Relabelling} {s s' : Names}

private theorem relabel_freshVariable (h : π.Aligned s s') (xs : List Ident) (x : Ident) :
    (freshVariable s xs x).relabel π =
      freshVariable s' (xs.map (Ident.relabel π)) (x.relabel π) := by
  rw [freshVariable, Ident.relabel_renewed, h.serials.beyond, freshVariable,
    (Ident.keepsEq_relabel π).idxOf_map]

theorem Clause.relates_renameApart (h : π.Aligned s s') (c : Clause) :
    π.Relates (relabel π) (c.renameApart s) ((c.relabel π).renameApart s') := by
  constructor
  · symm
    refine relabel_subst π fun x _ => ?_
    rw [Term.relabel_var, relabel_freshVariable h, vars_relabel]
  · simp only [renameApart, vars_relabel, List.length_map]
    exact h.skip _

end Clausal
