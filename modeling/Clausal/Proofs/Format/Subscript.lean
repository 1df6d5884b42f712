import Clausal.Proofs.Format.Label

/-!
# Subscripted labels

A scope of subscripts gives a new scalar its text with the first subscript that makes an unused label.
The search tries one number after the other and knows no bound; it ends because different numbers have
different subscripts and only finitely many labels are in use.  Adding a subscript to a text is not
one-to-one: `x` with the subscript 11 and `x₁` with the subscript 1 are the same label.  So labels are
kept apart by looking at all that have been given before, whatever they were given to.

Search, calls and sequences of calls are described here as they go: a derivation of `SeeksSubscript`,
`GivesSubscript` or `GivesSubscripts` is a search, a call or a sequence of calls that ends.

## Main definitions

- `SeeksSubscript`: the search for an unused subscript
- `GivesSubscript`, `GivesSubscripts`: one call and a sequence of calls in a scope of subscripts

## Main statements

- `seeksSubscript_iff`: the search ends, and where it does
- `givesSubscript_iff`, `GivesSubscripts.labelScalars_eq`: calls end with the labels that are computed
- `subscript_labels_injective`
-/

namespace Clausal

/-! ## Section 1: The search for an unused subscript -/

/-- The search for a number whose subscript makes an unused label goes on from the first number, one by
    one, and ends at the second. -/
inductive SeeksSubscript (used : List String) (base : String) : Nat → Nat → Prop
  | unused {k : Nat} (h : base ++ subscriptText k ∉ used) : SeeksSubscript used base k k
  | used {k n : Nat} (h : base ++ subscriptText k ∈ used)
      (next : SeeksSubscript used base (k + 1) n) : SeeksSubscript used base k n

section Search

variable {used : List String} {base : String} {k n m : Nat}

private theorem SeeksSubscript.unique (h : SeeksSubscript used base k n)
    (h' : SeeksSubscript used base k m) : m = n := by
  induction h with
  | unused hk =>
    cases h' with
    | unused => rfl
    | used hk' => exact absurd hk' hk
  | used hk _ ih =>
    cases h' with
    | unused hk' => exact absurd hk hk'
    | used _ next => exact ih next

/-- A bounded search that ends with an unused label is a search that ends. -/
theorem seeksSubscript_firstSubscript
    (h : base ++ subscriptText (firstSubscript used base n k) ∉ used) :
    SeeksSubscript used base k (firstSubscript used base n k) := by
  induction n generalizing k with
  | zero => exact .unused h
  | succ n ih =>
    rw [firstSubscript] at h ⊢
    split at h
    next hk =>
      rw [if_pos hk]
      exact .used (by simpa using hk) (ih h)
    next hk =>
      rw [if_neg hk]
      exact .unused h

/-- The search ends, and only at the number that is computed. -/
theorem seeksSubscript_iff :
    SeeksSubscript used base 1 n ↔ n = firstSubscript used base used.length 1 := by
  have hends := seeksSubscript_firstSubscript (base_subscript_notMem used base)
  constructor
  · exact fun h => hends.unique h
  · rintro rfl
    exact hends

end Search

/-! ## Section 2: Calls -/

/-- A call for the label of a scalar, where the first table says which labels have been given, ends with
    a label and with the second table. -/
inductive GivesSubscript (given : List (ScalarKey × String)) (i : Scalar) :
    String → List (ScalarKey × String) → Prop
  | again {l : String} (h : given.lookup i.key = some l) : GivesSubscript given i l given
  | new {n : Nat} (h : given.lookup i.key = none)
      (search : SeeksSubscript (given.map Prod.snd) i.text 1 n) :
      GivesSubscript given i (i.text ++ subscriptText n)
        ((i.key, i.text ++ subscriptText n) :: given)

/-- Calls for the labels of scalars, one after the other, end with labels and with a table. -/
inductive GivesSubscripts : List (ScalarKey × String) → List Scalar → List String →
    List (ScalarKey × String) → Prop
  | nil {given : List (ScalarKey × String)} : GivesSubscripts given [] [] given
  | cons {given given' given'' : List (ScalarKey × String)} {i : Scalar} {is : List Scalar}
      {l : String} {ls : List String} (head : GivesSubscript given i l given')
      (tail : GivesSubscripts given' is ls given'') :
      GivesSubscripts given (i :: is) (l :: ls) given''

section Calls

variable {given given' : List (ScalarKey × String)} {i : Scalar} {is : List Scalar} {l : String}
  {ls : List String}

/-- A call ends as it is computed, and in no other way. -/
theorem givesSubscript_iff : GivesSubscript given i l given' ↔
    LabelScope.label i (.subscript given) = (.ok l, .subscript given') := by
  cases hi : given.lookup i.key with
  | some m =>
    have hlabel : LabelScope.label i (.subscript given) = (.ok m, .subscript given) := by
      simp [LabelScope.label, hi]
    rw [hlabel]
    constructor
    · intro h
      cases h with
      | again h => rw [Option.some.inj (hi.symm.trans h)]
      | new h => simp [hi] at h
    · intro h
      obtain ⟨⟨⟩, ⟨⟩⟩ := Prod.mk.inj h
      exact .again hi
  | none =>
    let n := firstSubscript (given.map Prod.snd) i.text (given.map Prod.snd).length 1
    have hlabel : LabelScope.label i (.subscript given) =
        (.ok (i.text ++ subscriptText n), .subscript ((i.key, i.text ++ subscriptText n) :: given)) := by
      simp only [LabelScope.label, hi, n]
    rw [hlabel]
    constructor
    · intro h
      cases h with
      | again h => simp [hi] at h
      | new _ search => rw [seeksSubscript_iff.mp search]
    · intro h
      obtain ⟨⟨⟩, ⟨⟩⟩ := Prod.mk.inj h
      exact .new hi (seeksSubscript_iff.mpr rfl)

private theorem exists_givesSubscript (given : List (ScalarKey × String)) (i : Scalar) :
    ∃ l given', GivesSubscript given i l given' := by
  rcases LabelScope.label_subscript_cases i given with ⟨l, -, hl⟩ | ⟨l, -, -, -, hl⟩
  · exact ⟨l, given, givesSubscript_iff.mpr hl⟩
  · exact ⟨l, _, givesSubscript_iff.mpr hl⟩

private theorem exists_givesSubscripts (given : List (ScalarKey × String)) (is : List Scalar) :
    ∃ ls given', GivesSubscripts given is ls given' := by
  induction is generalizing given with
  | nil => exact ⟨[], given, .nil⟩
  | cons i is ih =>
    obtain ⟨l, given', hl⟩ := exists_givesSubscript given i
    obtain ⟨ls, given'', hls⟩ := ih given'
    exact ⟨l :: ls, given'', .cons hl hls⟩

/-- Calls end with the labels that are computed. -/
theorem GivesSubscripts.labelScalars_eq (h : GivesSubscripts given is ls given') :
    labelScalars is (.subscript given) = (.ok ls, .subscript given') := by
  induction h with
  | nil => rfl
  | cons head _ ih =>
    exact labelScalars_cons_eq_ok.mpr ⟨_, _, _, givesSubscript_iff.mp head, ih, rfl⟩

end Calls

/-! ## Section 3: Labels of a scope -/

/-- Whatever scalars are asked for one after the other in a scope of subscripts, every call ends.  There
    are no other labels than those that are computed, one for each call, and two calls have the same
    label exactly if they are for the same scalar. -/
theorem subscript_labels_injective (is : List Scalar) :
    ∃ ls given, GivesSubscripts [] is ls given ∧
      (∀ ls' given', GivesSubscripts [] is ls' given' → ls' = ls ∧ given' = given) ∧
      labelScalars is Labeller.subscript.scope = (.ok ls, .subscript given) ∧
      ls.length = is.length ∧
      ∀ p ∈ is.zip ls, ∀ q ∈ is.zip ls, (p.1 == q.1) = true ↔ p.2 = q.2 := by
  obtain ⟨ls, given, hcalls⟩ := exists_givesSubscripts [] is
  have hlabels := hcalls.labelScalars_eq
  have hstart : (LabelScope.subscript []).Subscripted := .intro .nil nofun
  obtain ⟨hgiven, -, hall⟩ := labelScalars_keeps (fun i _ _ hs => hs.label i) hstart hlabels
  obtain ⟨hlen, hzip⟩ := List.forall₂_iff_zip.mp hall
  refine ⟨ls, given, hcalls, fun ls' given' h => ?_, hlabels, hlen.symm, fun p hp q hq => ?_⟩
  · have hsame := h.labelScalars_eq.symm.trans hlabels
    obtain ⟨⟨⟩, ⟨⟩⟩ := Prod.mk.inj hsame
    exact ⟨rfl, rfl⟩
  · have hp : given.lookup p.1.key = some p.2 := hzip hp
    have hq : given.lookup q.1.key = some q.2 := hzip hq
    have hkey : (p.1 == q.1) = true ↔ p.1.key = q.1.key := decide_eq_true_iff
    rw [hkey]
    constructor
    · intro h
      exact Option.some.inj (hp.symm.trans (h ▸ hq))
    · intro h
      exact hgiven.key_eq hp (h ▸ hq)

/-- The name `x₁`, eleven variables made from `x`, and the name again. -/
def subscriptedName : List Scalar :=
  .ident (.name "x₁") :: ((List.range 11).map fun k => .ident (.standard k (.name "x") none)) ++
    [.ident (.name "x₁")]

/-- The name `x₁` gets the label `x₁₁` and keeps it, so the eleventh variable is not called that. -/
theorem subscript_labels_injective_subscriptedName :
    let ls := ["x₁₁", "x₁", "x₂", "x₃", "x₄", "x₅", "x₆", "x₇", "x₈", "x₉", "x₁₀", "x₁₂", "x₁₁"]
    (∃ given, GivesSubscripts [] subscriptedName ls given) ∧
      ∀ p ∈ subscriptedName.zip ls, ∀ q ∈ subscriptedName.zip ls, (p.1 == q.1) = true ↔ p.2 = q.2 := by
  intro ls
  obtain ⟨ls', given, hcalls, -, hlabels, -, hiff⟩ := subscript_labels_injective subscriptedName
  have hcomputed : (labelScalars subscriptedName Labeller.subscript.scope).1 = .ok ls := by
    decide +kernel
  rw [hlabels] at hcomputed
  obtain rfl : ls' = ls := Except.ok.inj hcomputed
  exact ⟨⟨given, hcalls⟩, hiff⟩

end Clausal
