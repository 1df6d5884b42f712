import Clausal.Format.Formula
import Mathlib.Data.List.Nodup
import Mathlib.Data.List.Perm.Subperm

/-!
# Labels are kept, and kept apart

In any scope a scalar that has been given a label gets the same one whenever it is asked for again.
A label set and a scope of subscripts give no label twice.  For subscripts this rests on the search
for an unused number: as different numbers have different subscripts, it finds one after at most as
many steps as there are labels.

The default labeller draws on three sources that know nothing of each other: the text of a name,
subscripted texts, and a list of labels.  It gives no label twice to identifiers of one kind.  Labels
of different kinds may coincide, but not if no name is in the list, and if neither names nor the
labels in the list end in subscript digits.

## Main definitions

- `LabelScope.given?`: the label that a scalar has been given
- `LabelScope.Subscripted`, `LabelScope.Drawn`: scopes that give no label twice
- `LabelScope.FromDefault`: the scopes of the default labeller
- `Unmixed`: names and labels that cannot be taken for labels of another kind

## Main statements

- `base_subscript_notMem`: the search for a subscript finds an unused one
- `LabelScope.given?_label`, `LabelScope.given?_mono`: labels are kept
- `LabelScope.Subscripted.label`, `LabelScope.Drawn.label`: further labels are kept apart as well
- `default_labels_unique`, `default_labels_clash`: when default labels are unique
-/

namespace Clausal

/-! ## Section 1: Subscripts -/

/-- Whether a character is a subscript digit. -/
def isSubscript (c : Char) : Bool :=
  '₀' ≤ c && c ≤ '₉'

/-- Whether a text ends in a subscript digit. -/
def endsInSubscript (s : String) : Bool :=
  s.toList.getLast?.any isSubscript

/-- What holds of the ten digits holds of every digit. -/
theorem forall_of_isDigit {P : Char → Prop} (h : ∀ n < 10, P (Char.ofNat (48 + n))) {c : Char}
    (hc : c.isDigit) : P c := by
  have hrange : 48 ≤ c.toNat ∧ c.toNat ≤ 57 := by
    simpa [Char.isDigit, UInt32.le_iff_toNat_le] using hc
  have hP := h (c.toNat - 48) (by omega)
  rwa [Nat.add_sub_cancel' hrange.1, Char.ofNat_toNat] at hP

theorem isSubscript_subscriptDigit {c : Char} (hc : c.isDigit) : isSubscript (subscriptDigit c) :=
  forall_of_isDigit (P := fun c => isSubscript (subscriptDigit c)) (by decide) hc

/-- The decimal digit of a subscript digit. -/
def plainDigit (c : Char) : Char :=
  Char.ofNat ('0'.toNat + (c.toNat - '₀'.toNat))

theorem plainDigit_subscriptDigit {c : Char} (hc : c.isDigit) : plainDigit (subscriptDigit c) = c :=
  forall_of_isDigit (P := fun c => plainDigit (subscriptDigit c) = c) (by decide) hc

theorem isDigit_of_mem_toDigits {n : Nat} {c : Char} (h : c ∈ Nat.toDigits 10 n) : c.isDigit :=
  Nat.isDigit_of_mem_toDigits (by decide) (by decide) h

/-- A number can be read off its subscript. -/
theorem subscriptText_injective : Function.Injective subscriptText := by
  have hread : ∀ n, (subscriptText n).toList.map plainDigit = Nat.toDigits 10 n := by
    intro n
    rw [subscriptText, String.toList_ofList, List.map_map]
    have hsame : ∀ c ∈ Nat.toDigits 10 n, (plainDigit ∘ subscriptDigit) c = id c := by
      intro c hc
      rw [Function.comp_apply, plainDigit_subscriptDigit (isDigit_of_mem_toDigits hc), id]
    rw [List.map_congr_left hsame, List.map_id]
  intro m n h
  calc m = Nat.ofDigitChars 10 (Nat.toDigits 10 m) 0 := Nat.ofDigitChars_ten_toDigits.symm
    _ = Nat.ofDigitChars 10 (Nat.toDigits 10 n) 0 := by rw [← hread, h, hread]
    _ = n := Nat.ofDigitChars_ten_toDigits

private theorem endsInSubscript_append_subscriptText (base : String) (n : Nat) :
    endsInSubscript (base ++ subscriptText n) := by
  cases hc : (Nat.toDigits 10 n).getLast? with
  | none => exact absurd (List.getLast?_eq_none_iff.mp hc) Nat.toDigits_ne_nil
  | some c =>
    have hdigit := isDigit_of_mem_toDigits (List.mem_of_getLast? hc)
    simp [endsInSubscript, subscriptText, List.getLast?_append, List.getLast?_map, hc,
      isSubscript_subscriptDigit hdigit]

/-! ## Section 2: The search for an unused subscript -/

/-- If the number that is found makes a used label, then so do all those that were tried. -/
theorem forall_mem_of_firstSubscript_mem {used : List String} {base : String} {n k : Nat}
    (h : base ++ subscriptText (firstSubscript used base n k) ∈ used) :
    ∀ i ≤ n, base ++ subscriptText (k + i) ∈ used := by
  induction n generalizing k with
  | zero =>
    intro i hi
    obtain rfl : i = 0 := by omega
    exact h
  | succ n ih =>
    rw [firstSubscript] at h
    split at h
    next hk =>
      intro i hi
      cases i with
      | zero => simpa using hk
      | succ i =>
        have := ih h i (by omega)
        rwa [Nat.add_right_comm, Nat.add_assoc] at this
    next hk => exact absurd h (by simpa using hk)

/-- The search finds an unused label: more numbers are tried than there are labels. -/
theorem base_subscript_notMem (used : List String) (base : String) :
    base ++ subscriptText (firstSubscript used base used.length 1) ∉ used := by
  intro h
  -- if the last number tried makes a used label, then one more labels are used than there are
  let tried := (List.range (used.length + 1)).map fun i => base ++ subscriptText (1 + i)
  have hinj : Function.Injective fun i => base ++ subscriptText (1 + i) := by
    intro i j hij
    have := subscriptText_injective ((String.append_right_inj base).mp hij)
    omega
  have hnodup : tried.Nodup := List.nodup_range.map hinj
  have hsubset : tried ⊆ used := by
    intro l hl
    obtain ⟨i, hi, rfl⟩ := List.mem_map.mp hl
    exact forall_mem_of_firstSubscript_mem h i (Nat.le_of_lt_succ (List.mem_range.mp hi))
  have hlength := (hnodup.subperm hsubset).length_le
  simp only [tried, List.length_map, List.length_range] at hlength
  omega

/-! ## Section 3: Labels are kept -/

namespace LabelScope

/-- The label that a scalar has been given in a scope; plain texts need not be given. -/
def given? (i : Scalar) : LabelScope → Option String
  | .plain => some i.text
  | .labelSet _ _ given => given.lookup i.key
  | .subscript given => given.lookup i.key
  | .byKind text num standard skolem =>
    match i with
    | .ident (.name _) => text.given? i
    | .ident (.num _) => num.given? i
    | .ident (.standard _ _ _) => standard.given? i
    | .ident (.skolem _ _ _) => skolem.given? i
    | _ => some i.text

/-- A subscripted label is an old one, or a new one that no other scalar has. -/
theorem label_subscript_cases (i : Scalar) (given : List (ScalarKey × String)) :
    (∃ l, given.lookup i.key = some l ∧ label i (.subscript given) = (.ok l, .subscript given)) ∨
    ∃ l, given.lookup i.key = none ∧ l ∉ given.map Prod.snd ∧ endsInSubscript l ∧
      label i (.subscript given) = (.ok l, .subscript ((i.key, l) :: given)) := by
  cases h : given.lookup i.key with
  | some l => exact .inl ⟨l, rfl, by simp [label, h]⟩
  | none =>
    let used := given.map Prod.snd
    let l := i.text ++ subscriptText (firstSubscript used i.text used.length 1)
    exact .inr ⟨l, rfl, base_subscript_notMem used i.text, endsInSubscript_append_subscriptText _ _,
      by simp only [label, h, used, l]⟩

/-- A label of a list is an old one, or the next one of the list, if there is one. -/
theorem label_labelSet_cases (i : Scalar) (left : List String) (total : Nat)
    (given : List (ScalarKey × String)) :
    (∃ l, given.lookup i.key = some l ∧
      label i (.labelSet left total given) = (.ok l, .labelSet left total given)) ∨
    (∃ l left', given.lookup i.key = none ∧ left = l :: left' ∧
      label i (.labelSet left total given) = (.ok l, .labelSet left' total ((i.key, l) :: given))) ∨
    (given.lookup i.key = none ∧ left = [] ∧
      label i (.labelSet left total given) =
        (.error (.exhausted total), .labelSet left total given)) := by
  cases h : given.lookup i.key with
  | some l => exact .inl ⟨l, rfl, by simp [label, h]⟩
  | none =>
    cases left with
    | nil => exact .inr (.inr ⟨rfl, rfl, by simp [label, h]⟩)
    | cons l left => exact .inr (.inl ⟨l, left, rfl, rfl, by simp [label, h]⟩)

theorem lookup_cons_of_lookup {given : List (ScalarKey × String)} {k k' : ScalarKey} {l m : String}
    (hk : given.lookup k = none) (hk' : given.lookup k' = some m) :
    List.lookup k' ((k, l) :: given) = some m := by
  have hne : (k' == k) = false := by
    rw [beq_eq_false_iff_ne]
    rintro rfl
    rw [hk] at hk'
    cases hk'
  rw [List.lookup_cons, hne]
  exact hk'

/-- A scope by kinds keeps a label if each of its parts does. -/
theorem given?_byKind_mono {text num standard skolem text' num' standard' skolem' : LabelScope}
    {j : Scalar} {m : String} (ht : text.given? j = some m → text'.given? j = some m)
    (hn : num.given? j = some m → num'.given? j = some m)
    (hs : standard.given? j = some m → standard'.given? j = some m)
    (hk : skolem.given? j = some m → skolem'.given? j = some m)
    (h : (byKind text num standard skolem).given? j = some m) :
    (byKind text' num' standard' skolem').given? j = some m := by
  rcases j with (_ | _ | _ | _ | _ | _) | _ | _
  case ident.name => exact ht h
  case ident.num => exact hn h
  case ident.standard => exact hs h
  case ident.skolem => exact hk h
  all_goals exact h

/-- A label that has been given stays given, whatever is labelled next. -/
theorem given?_mono {i j : Scalar} {s : LabelScope} {m : String} (h : s.given? j = some m) :
    (s.label i).2.given? j = some m := by
  induction s with
  | plain => exact h
  | labelSet left total given =>
    rcases label_labelSet_cases i left total given with ⟨l, -, hl⟩ | ⟨l, left', hnew, -, hl⟩ |
      ⟨-, -, hl⟩
    · rwa [hl]
    · rw [hl]
      exact lookup_cons_of_lookup hnew h
    · rwa [hl]
  | subscript given =>
    rcases label_subscript_cases i given with ⟨l, -, hl⟩ | ⟨l, hnew, -, -, hl⟩
    · rwa [hl]
    · rw [hl]
      exact lookup_cons_of_lookup hnew h
  | byKind text num standard skolem iht ihn ihs ihk =>
    -- only the part for the kind of `i` changes
    rcases i with (_ | _ | _ | _ | _ | _) | _ | _
    case ident.name => exact given?_byKind_mono iht id id id h
    case ident.num => exact given?_byKind_mono id ihn id id h
    case ident.standard => exact given?_byKind_mono id id ihs id h
    case ident.skolem => exact given?_byKind_mono id id id ihk h
    all_goals exact h

/-- A label that is given has been given afterwards. -/
theorem given?_label {i : Scalar} {s : LabelScope} {l : String} (h : (s.label i).1 = .ok l) :
    (s.label i).2.given? i = some l := by
  induction s with
  | plain => exact congrArg some (Except.ok.inj h)
  | labelSet left total given =>
    rcases label_labelSet_cases i left total given with ⟨m, hm, hl⟩ | ⟨m, left', -, -, hl⟩ |
      ⟨-, -, hl⟩
    · rw [hl] at h ⊢
      exact hm.trans (congrArg some (Except.ok.inj h))
    · rw [hl] at h ⊢
      simpa [given?] using h
    · rw [hl] at h
      cases h
  | subscript given =>
    rcases label_subscript_cases i given with ⟨m, hm, hl⟩ | ⟨m, -, -, -, hl⟩
    · rw [hl] at h ⊢
      exact hm.trans (congrArg some (Except.ok.inj h))
    · rw [hl] at h ⊢
      simpa [given?] using h
  | byKind text num standard skolem iht ihn ihs ihk =>
    rcases i with (_ | _ | _ | _ | _ | _) | _ | _
    case ident.name => exact iht h
    case ident.num => exact ihn h
    case ident.standard => exact ihs h
    case ident.skolem => exact ihk h
    all_goals exact congrArg some (Except.ok.inj h)

end LabelScope

/-! ## Section 4: Several labels -/

namespace Labelling

variable {α β : Type} {s s' : LabelScope}

theorem pure_eq_ok {a b : α} : (pure a : Labelling α) s = (.ok b, s') ↔ a = b ∧ s = s' := by
  constructor
  · intro h
    exact ⟨Except.ok.inj (congrArg Prod.fst h), congrArg Prod.snd h⟩
  · rintro ⟨rfl, rfl⟩
    rfl

theorem bind_eq_ok {m : Labelling α} {f : α → Labelling β} {b : β} :
    (m >>= f) s = (.ok b, s') ↔ ∃ a t, m s = (.ok a, t) ∧ f a t = (.ok b, s') := by
  have hbind : (m >>= f) s = ExceptT.bindCont f (m s).1 (m s).2 := rfl
  rw [hbind]
  rcases m s with ⟨e | a, t⟩
  · constructor
    · intro h
      cases congrArg Prod.fst h
    · rintro ⟨a, t', h, -⟩
      cases congrArg Prod.fst h
  · constructor
    · exact fun h => ⟨a, t, rfl, h⟩
    · rintro ⟨a', t', h, hf⟩
      obtain rfl := Except.ok.inj (congrArg Prod.fst h)
      obtain rfl : t = t' := congrArg Prod.snd h
      exact hf

end Labelling

/-- The labels of scalars, given one after the other. -/
def labelScalars (is : List Scalar) : Labelling (List String) :=
  is.mapM fun i s => s.label i

theorem labelScalars_cons_eq_ok {i : Scalar} {is : List Scalar} {s s' : LabelScope}
    {ls : List String} : labelScalars (i :: is) s = (.ok ls, s') ↔
      ∃ l t ls', s.label i = (.ok l, t) ∧ labelScalars is t = (.ok ls', s') ∧ l :: ls' = ls := by
  simp only [labelScalars, List.mapM_cons, Labelling.bind_eq_ok, Labelling.pure_eq_ok]
  constructor
  · rintro ⟨l, t, hl, ls', t', hrest, rfl, rfl⟩
    exact ⟨l, t, ls', hl, hrest, rfl⟩
  · rintro ⟨l, t, ls', hl, hrest, rfl⟩
    exact ⟨l, t, hl, ls', s', hrest, rfl, rfl⟩

/-- After a sequence of calls without an error, everything that a call keeps still holds, and every
    label that was given before or during the calls has been given. -/
theorem labelScalars_keeps {P : LabelScope → Prop} {is : List Scalar}
    (hstep : ∀ i ∈ is, ∀ s, P s → P (s.label i).2) {ls : List String} {s s' : LabelScope} (hs : P s)
    (h : labelScalars is s = (.ok ls, s')) :
    P s' ∧ (∀ j m, s.given? j = some m → s'.given? j = some m) ∧
      List.Forall₂ (fun i l => s'.given? i = some l) is ls := by
  induction is generalizing s ls with
  | nil =>
    obtain ⟨rfl, rfl⟩ := Labelling.pure_eq_ok.mp h
    exact ⟨hs, fun _ _ h => h, .nil⟩
  | cons i is ih =>
    obtain ⟨l, t, ls, hl, hrest, rfl⟩ := labelScalars_cons_eq_ok.mp h
    obtain rfl : (s.label i).2 = t := congrArg Prod.snd hl
    obtain ⟨hi, his⟩ := List.forall_mem_cons.mp hstep
    obtain ⟨hP, hkept, hall⟩ := ih his (hi s hs) hrest
    refine ⟨hP, fun j m hj => hkept j m (LabelScope.given?_mono hj), .cons ?_ hall⟩
    exact hkept _ _ (LabelScope.given?_label (congrArg Prod.fst hl))

/-- The labels of identifiers, given one after the other. -/
def labelAll (is : List Ident) : Labelling (List String) :=
  is.mapM labelOf

theorem labelAll_keeps {P : LabelScope → Prop} (hstep : ∀ s i, P s → P (s.label (.ident i)).2)
    {is : List Ident} {ls : List String} {s s' : LabelScope} (hs : P s)
    (h : labelAll is s = (.ok ls, s')) :
    P s' ∧ (∀ j m, s.given? j = some m → s'.given? j = some m) ∧
      List.Forall₂ (fun i l => s'.given? (.ident i) = some l) is ls := by
  have hscalars : labelScalars (is.map .ident) s = (.ok ls, s') := by
    rw [labelScalars, List.mapM_map]
    exact h
  have hsteps : ∀ i ∈ is.map Scalar.ident, ∀ s, P s → P (s.label i).2 :=
    List.forall_mem_map.mpr fun i _ s => hstep s i
  obtain ⟨hP, hkept, hall⟩ := labelScalars_keeps hsteps hs hscalars
  exact ⟨hP, hkept, List.forall₂_map_left_iff.mp hall⟩

/-! ## Section 5: Labels are kept apart -/

theorem mem_of_lookup {given : List (ScalarKey × String)} {k : ScalarKey} {l : String}
    (h : given.lookup k = some l) : (k, l) ∈ given := by
  obtain ⟨before, after, rfl, -⟩ := List.lookup_eq_some_iff.mp h
  simp

/-- In a table without repeated labels a label has one key. -/
theorem key_unique {given : List (ScalarKey × String)} (hgiven : (given.map Prod.snd).Nodup)
    {k k' : ScalarKey} {l : String} (h : given.lookup k = some l) (h' : given.lookup k' = some l) :
    k = k' := by
  have heq := List.inj_on_of_nodup_map hgiven (mem_of_lookup h) (mem_of_lookup h') rfl
  exact congrArg Prod.fst heq

namespace LabelScope

/-- A scope of subscripts whose labels are all different and end in subscripts. -/
inductive Subscripted : LabelScope → Prop
  | intro {given : List (ScalarKey × String)} : (given.map Prod.snd).Nodup →
      (∀ l ∈ given.map Prod.snd, endsInSubscript l) → Subscripted (.subscript given)

/-- A scope of labels from a list, which are all different, given or not. -/
inductive Drawn (labels : List String) : LabelScope → Prop
  | intro {left : List String} {total : Nat} {given : List (ScalarKey × String)} :
      (left ++ given.map Prod.snd).Nodup → (∀ l ∈ left ++ given.map Prod.snd, l ∈ labels) →
      Drawn labels (.labelSet left total given)

/-- A scope of the default labeller. -/
inductive FromDefault (labels : List String) : LabelScope → Prop
  | intro {standard skolem : LabelScope} : standard.Subscripted → skolem.Drawn labels →
      FromDefault labels (.byKind .plain .plain standard skolem)

variable {labels : List String} {s : LabelScope} {l : String}

theorem Subscripted.label (h : s.Subscripted) (i : Scalar) : (s.label i).2.Subscripted := by
  obtain @⟨given, hnodup, hends⟩ := h
  rcases label_subscript_cases i given with ⟨l, -, hl⟩ | ⟨l, -, hnew, hsub, hl⟩
  · rw [hl]
    exact .intro hnodup hends
  · rw [hl]
    apply Subscripted.intro
    · exact List.nodup_cons.mpr ⟨hnew, hnodup⟩
    · exact List.forall_mem_cons.mpr ⟨hsub, hends⟩

theorem Subscripted.key_eq (h : s.Subscripted) {i j : Scalar} (hi : s.given? i = some l)
    (hj : s.given? j = some l) : i.key = j.key := by
  obtain ⟨hnodup, -⟩ := h
  exact key_unique hnodup hi hj

theorem Subscripted.endsInSubscript (h : s.Subscripted) {i : Scalar} (hi : s.given? i = some l) :
    endsInSubscript l := by
  obtain ⟨-, hends⟩ := h
  exact hends l (List.mem_map_of_mem (mem_of_lookup hi))

theorem Drawn.label (h : s.Drawn labels) (i : Scalar) : (s.label i).2.Drawn labels := by
  obtain @⟨left, total, given, hnodup, hlabels⟩ := h
  rcases label_labelSet_cases i left total given with ⟨l, -, hl⟩ | ⟨l, left', -, rfl, hl⟩ | ⟨-, -, hl⟩
  · rw [hl]
    exact .intro hnodup hlabels
  · -- the label moves from the unused ones to the given ones
    have hperm : (left' ++ l :: given.map Prod.snd).Perm (l :: left' ++ given.map Prod.snd) :=
      List.perm_middle
    rw [hl]
    apply Drawn.intro
    · exact hperm.nodup_iff.mpr hnodup
    · exact fun m hm => hlabels m (hperm.mem_iff.mp hm)
  · rw [hl]
    exact .intro hnodup hlabels

private theorem Drawn.key_eq (h : s.Drawn labels) {i j : Scalar} (hi : s.given? i = some l)
    (hj : s.given? j = some l) : i.key = j.key := by
  obtain ⟨hnodup, -⟩ := h
  exact key_unique (List.nodup_append.mp hnodup).2.1 hi hj

private theorem Drawn.mem_labels (h : s.Drawn labels) {i : Scalar} (hi : s.given? i = some l) :
    l ∈ labels := by
  obtain ⟨-, hlabels⟩ := h
  exact hlabels l (List.mem_append_right _ (List.mem_map_of_mem (mem_of_lookup hi)))

theorem FromDefault.start (h : labels.Nodup) : (defaultLabeller labels).scope.FromDefault labels := by
  apply FromDefault.intro
  · exact .intro .nil nofun
  · exact .intro (by simpa using h) (by simp)

private theorem FromDefault.label (h : s.FromDefault labels) (i : Ident) :
    (s.label (.ident i)).2.FromDefault labels := by
  obtain ⟨hstandard, hskolem⟩ := h
  cases i with
  | standard k of origin => exact .intro (hstandard.label _) hskolem
  | skolem k of origin => exact .intro hstandard (hskolem.label _)
  | _ => exact .intro hstandard hskolem

end LabelScope

/-! ## Section 6: Default labels -/

/-- Whether an identifier is a text or a name introduced in normalisation. -/
def Ident.isTextOrFresh : Ident → Bool
  | .name _ | .standard _ _ _ | .skolem _ _ _ => true
  | _ => false

/-- The texts that the default labeller may give to an identifier. -/
def Ident.MayShow (labels : List String) (l : String) : Ident → Prop
  | .name t => t = l
  | .standard _ _ _ => endsInSubscript l
  | .skolem _ _ _ => l ∈ labels
  | _ => True

/-- No text that is used as a name is in the list of labels, and neither such texts nor the labels end
    in a subscript digit. -/
structure Unmixed (labels : List String) (is : List Ident) : Prop where
  name_notMem : ∀ t, .name t ∈ is → t ∉ labels
  name_plain : ∀ t, .name t ∈ is → endsInSubscript t = false
  label_plain : ∀ l ∈ labels, endsInSubscript l = false

section Default

variable {labels : List String} {s : LabelScope} {i j : Ident} {l : String}

private theorem LabelScope.FromDefault.mayShow (h : s.FromDefault labels)
    (hi : s.given? (.ident i) = some l) : i.MayShow labels l := by
  obtain ⟨hstandard, hskolem⟩ := h
  cases i with
  | name t => exact Option.some.inj hi
  | standard k of origin => exact hstandard.endsInSubscript hi
  | skolem k of origin => exact hskolem.mem_labels hi
  | _ => trivial

/-- In a default scope different identifiers of one kind have different labels. -/
theorem LabelScope.FromDefault.eq_of_sameKind (h : s.FromDefault labels)
    (hi : s.given? (.ident i) = some l) (hj : s.given? (.ident j) = some l)
    (hkind : i.isTextOrFresh) (hsame : i.ctorIdx = j.ctorIdx) : i = j := by
  obtain ⟨hstandard, hskolem⟩ := h
  cases i <;> cases j <;> simp only [Ident.isTextOrFresh, Bool.false_eq_true] at hkind <;>
    try cases hsame
  case name.name => exact congrArg Ident.name (Option.some.inj (hi.trans hj.symm))
  case standard.standard => exact ScalarKey.ident.inj (hstandard.key_eq hi hj)
  case skolem.skolem => exact ScalarKey.ident.inj (hskolem.key_eq hi hj)

/-- Where names and labels are not mixed, the kind of an identifier can be read off its label. -/
theorem Unmixed.sameKind {is : List Ident} (h : Unmixed labels is) (hi : i ∈ is) (hj : j ∈ is)
    (hki : i.isTextOrFresh) (hkj : j.isTextOrFresh) (hil : i.MayShow labels l)
    (hjl : j.MayShow labels l) : i.ctorIdx = j.ctorIdx := by
  obtain ⟨hnotMem, hname, hlabel⟩ := h
  cases i <;> cases j <;> simp only [Ident.isTextOrFresh, Bool.false_eq_true] at hki hkj <;>
    grind [Ident.MayShow]

end Default

/-- As long as the list of labels lasts, equal identifiers get equal default labels, and different
    identifiers of one kind get different ones.  If identifiers of two kinds get one label, then it is
    the text of the name, ends in a subscript, or is in the list, as the kinds say; so this does not
    happen where names and labels are not mixed. -/
theorem default_labels_unique {labels : List String} {is : List Ident} {ls : List String}
    {s : LabelScope} (hlabels : labels.Nodup) (his : ∀ i ∈ is, i.isTextOrFresh)
    (h : labelAll is (defaultLabeller labels).scope = (.ok ls, s)) :
    ls.length = is.length ∧
    (∀ p ∈ is.zip ls, ∀ q ∈ is.zip ls, p.1 = q.1 → p.2 = q.2) ∧
    (∀ p ∈ is.zip ls, ∀ q ∈ is.zip ls, p.2 = q.2 → p.1 = q.1 ∨ p.1.ctorIdx ≠ q.1.ctorIdx ∧
      p.1.MayShow labels p.2 ∧ q.1.MayShow labels p.2) ∧
    (Unmixed labels is → ∀ p ∈ is.zip ls, ∀ q ∈ is.zip ls, p.2 = q.2 → p.1 = q.1) := by
  obtain ⟨hs, -, hall⟩ := labelAll_keeps (fun _ i hs => hs.label i)
    (LabelScope.FromDefault.start hlabels) h
  have hgiven : ∀ p ∈ is.zip ls, s.given? (.ident p.1) = some p.2 :=
    fun p hp => (List.forall₂_iff_zip.mp hall).2 hp
  have hmem : ∀ p ∈ is.zip ls, p.1 ∈ is := fun p hp => (List.of_mem_zip hp).1
  have heq : ∀ p ∈ is.zip ls, ∀ q ∈ is.zip ls, p.2 = q.2 → p.1.ctorIdx = q.1.ctorIdx →
      p.1 = q.1 := by
    intro p hp q hq hl hkind
    exact hs.eq_of_sameKind (hgiven p hp) (hl ▸ hgiven q hq) (his _ (hmem p hp)) hkind
  have hshow : ∀ p ∈ is.zip ls, p.1.MayShow labels p.2 := fun p hp => hs.mayShow (hgiven p hp)
  refine ⟨hall.length_eq.symm, ?_, ?_, ?_⟩
  · intro p hp q hq hi
    exact Option.some.inj ((hgiven p hp).symm.trans (hi ▸ hgiven q hq))
  · intro p hp q hq hl
    by_cases hkind : p.1.ctorIdx = q.1.ctorIdx
    · exact .inl (heq p hp q hq hl hkind)
    · exact .inr ⟨hkind, hshow p hp, hl ▸ hshow q hq⟩
  · intro hunmixed p hp q hq hl
    have hkind := hunmixed.sameKind (hmem p hp) (hmem q hq) (his _ (hmem p hp)) (his _ (hmem q hq))
      (hshow p hp) (hl ▸ hshow q hq)
    exact heq p hp q hq hl hkind

/-- A name, two variables made from it, and a Skolem symbol that is asked for twice. -/
def namedAndFresh : List Ident :=
  [.name "x", .standard 0 (.name "x") none, .skolem 0 (.name "y") none, .standard 1 (.name "x") none,
    .skolem 0 (.name "y") none]

theorem default_labels_unique_namedAndFresh :
    ∃ s, labelAll namedAndFresh (defaultLabeller ["A", "B"]).scope =
        (.ok ["x", "x₁", "A", "x₂", "A"], s) ∧
      ∀ p ∈ namedAndFresh.zip ["x", "x₁", "A", "x₂", "A"],
        ∀ q ∈ namedAndFresh.zip ["x", "x₁", "A", "x₂", "A"], p.2 = q.2 → p.1 = q.1 := by
  have hlabels : labelAll namedAndFresh (defaultLabeller ["A", "B"]).scope =
      (.ok ["x", "x₁", "A", "x₂", "A"], (labelAll namedAndFresh (defaultLabeller ["A", "B"]).scope).2) :=
    Prod.ext (by decide) rfl
  have hunmixed : Unmixed ["A", "B"] namedAndFresh :=
    ⟨by simp [namedAndFresh], by simp [namedAndFresh]; decide, by decide⟩
  exact ⟨_, hlabels, (default_labels_unique (by decide) (by decide) hlabels).2.2.2 hunmixed⟩

/-- A Skolem symbol gets a label that is also a name, and a subscripted variable a text that is also a
    name. -/
theorem default_labels_clash :
    (labelAll [.name "A", .skolem 0 (.name "y") none] (defaultLabeller ["A", "B"]).scope).1 =
        .ok ["A", "A"] ∧
      (labelAll [.standard 0 (.name "x") none, .name "x₁"] (defaultLabeller ["A", "B"]).scope).1 =
        .ok ["x₁", "x₁"] := by
  refine ⟨?_, ?_⟩ <;> decide

end Clausal
