import Clausal.Index.Trie
import Mathlib.Data.List.Perm.Basic

/-!
# What tries store

A trie whose entries are lists stores each of their elements under the keys that lead to it.  The
items of a trie are these elements with their keys, in any order.  Changing the entry of a node
changes the items under its keys and no others, also where nodes are made or dropped on the way.

A trie finds an item again if no node has two children with the same key.

## Main definitions

- `Trie.items`, `Forest.items`: what is stored, with the keys that lead to it
- `Forest.Unique`: no node has two children with the same key

## Main statements

- `Forest.exists_items_alter`: changing one child leaves the items of the others
- `Trie.items_alter`, `Trie.exists_prune`: storing and dropping one item
- `Trie.exists_get?_of_mem_items`, `Trie.mem_items_of_get?`: an item is found at its keys
- `Trie.place_of_get?_eq_some`, `Trie.place_of_get?_eq_none`: putting an entry at a node of its own
-/

namespace Clausal

open scoped List

variable {κ β : Type}

/-! ## Section 1: Items -/

/-- Items one level further down, below the key `k`. -/
def itemsUnder (k : κ) (is : List (List κ × β)) : List (List κ × β) :=
  is.map fun i => (k :: i.1, i.2)

/-- What is stored at and below children, with the keys that lead to it. -/
def Forest.items : Forest κ (List β) → List (List κ × β)
  | .nil => []
  | .cons k es below rest =>
    itemsUnder k (es.map (fun b => ([], b)) ++ below.items) ++ rest.items

/-- What is stored at and below a node, with the keys that lead to it. -/
def Trie.items (t : Trie κ (List β)) : List (List κ × β) :=
  t.entry.map (fun b => ([], b)) ++ t.children.items

/-- What is stored at and below a node, if there is one. -/
def Trie.itemsOf : Option (Trie κ (List β)) → List (List κ × β)
  | none => []
  | some t => t.items

theorem itemsUnder_perm {k : κ} {is js : List (List κ × β)} (h : is.Perm js) :
    (itemsUnder k is).Perm (itemsUnder k js) :=
  h.map _

theorem itemsUnder_cons (k : κ) (ks : List κ) (b : β) (is : List (List κ × β)) :
    itemsUnder k ((ks, b) :: is) = (k :: ks, b) :: itemsUnder k is := rfl

theorem mem_itemsUnder {k : κ} {is : List (List κ × β)} {i : List κ × β} :
    i ∈ itemsUnder k is ↔ ∃ ks, i.1 = k :: ks ∧ (ks, i.2) ∈ is := by
  obtain ⟨ks, b⟩ := i
  simp only [itemsUnder, List.mem_map, Prod.mk.injEq, Prod.exists]
  constructor
  · rintro ⟨ks, b, hmem, rfl, rfl⟩
    exact ⟨ks, rfl, hmem⟩
  · rintro ⟨ks, rfl, hmem⟩
    exact ⟨ks, b, hmem, rfl, rfl⟩

theorem Forest.items_cons (k : κ) (es : List β) (below rest : Forest κ (List β)) :
    (Forest.cons k es below rest).items =
      itemsUnder k (Trie.items ⟨es, below⟩) ++ rest.items := rfl

/-- The items of children are those of each child. -/
theorem Forest.items_eq_flatMap (F : Forest κ (List β)) :
    F.items = F.toList.flatMap fun c => itemsUnder c.1 c.2.items := by
  induction F with
  | nil => rfl
  | cons k es below rest _ ih => rw [items_cons, toList, List.flatMap_cons, ih]

private theorem Trie.items_eq_nil {t : Trie κ (List β)} (hentry : t.entry = [])
    (hchildren : t.children.isNil = true) : t.items = [] := by
  obtain ⟨es, below⟩ := t
  cases below with
  | nil =>
    obtain rfl : es = [] := hentry
    rfl
  | cons k es' below' rest => cases hchildren

theorem map_snd_itemsUnder (k : κ) (is : List (List κ × β)) :
    (itemsUnder k is).map Prod.snd = is.map Prod.snd := by
  simp [itemsUnder]

/-- A condition on the paths below a key is one on the rest of these paths. -/
theorem filter_itemsUnder (p : List κ → Bool) (k : κ) (is : List (List κ × β)) :
    (itemsUnder k is).filter (fun i => p i.1) =
      itemsUnder k (is.filter fun i => p (k :: i.1)) := by
  rw [itemsUnder, List.filter_map]
  rfl

theorem Forest.ne_nil_of_mem_items {F : Forest κ (List β)} {i : List κ × β} (hi : i ∈ F.items) :
    i.1 ≠ [] := by
  rw [items_eq_flatMap] at hi
  obtain ⟨c, -, hi⟩ := List.mem_flatMap.mp hi
  obtain ⟨ks, hks, -⟩ := mem_itemsUnder.mp hi
  rw [hks]
  exact List.cons_ne_nil _ _

/-- Only the entry of a node itself is stored under the empty path. -/
theorem Trie.map_snd_filter_isEmpty (t : Trie κ (List β)) :
    (t.items.filter fun i => i.1.isEmpty).map Prod.snd = t.entry := by
  have hentry : (t.entry.map fun b => (([] : List κ), b)).filter (fun i => i.1.isEmpty) =
      t.entry.map fun b => ([], b) := by
    simp [List.filter_eq_self]
  have hbelow : t.children.items.filter (fun i => i.1.isEmpty) = [] := by
    rw [List.filter_eq_nil_iff]
    intro i hi
    simpa using Forest.ne_nil_of_mem_items hi
  rw [Trie.items, List.filter_append, hentry, hbelow, List.append_nil, List.map_map]
  exact List.map_id _

/-- A condition that the empty path does not fulfil concerns only the children. -/
theorem Trie.filter_items_of_nil {p : List κ → Bool} (hp : p [] = false) (t : Trie κ (List β)) :
    t.items.filter (fun i => p i.1) = t.children.items.filter fun i => p i.1 := by
  have hentry : (t.entry.map fun b => (([] : List κ), b)).filter (fun i => p i.1) = [] := by
    simp [List.filter_eq_nil_iff, hp]
  rw [Trie.items, List.filter_append, hentry, List.nil_append]

/-! ## Section 2: Changes -/

variable [BEq κ]

/-- Changing the child with a key leaves the items of all other children. -/
theorem Forest.exists_items_alter [LawfulBEq κ] (k : κ) (F : Forest κ (List β)) :
    ∃ others, F.items.Perm (itemsUnder k (Trie.itemsOf (F.find? k)) ++ others) ∧
      ∀ f, (F.alter k f).items.Perm (itemsUnder k (Trie.itemsOf (f (F.find? k))) ++ others) := by
  induction F with
  | nil =>
    refine ⟨[], List.Perm.refl _, fun f => ?_⟩
    unfold alter find?
    cases f none with
    | none => exact List.Perm.refl _
    | some c => exact List.Perm.refl _
  | cons key es below rest _ ih =>
    by_cases hkey : (key == k) = true
    · obtain rfl := eq_of_beq hkey
      have hfind : (cons key es below rest).find? key = some ⟨es, below⟩ := if_pos BEq.rfl
      refine ⟨rest.items, ?_, fun f => ?_⟩
      · rw [hfind]
        exact List.Perm.refl _
      · rw [hfind, alter, if_pos BEq.rfl]
        cases f (some ⟨es, below⟩) with
        | none => exact List.Perm.refl _
        | some c => exact List.Perm.refl _
    · -- the child that is changed comes later, so this one is among the others
      obtain ⟨others, hitems, halter⟩ := ih
      have hfind : (cons key es below rest).find? k = rest.find? k := if_neg hkey
      refine ⟨itemsUnder key (Trie.items ⟨es, below⟩) ++ others, ?_, fun f => ?_⟩
      · rw [hfind, items_cons]
        exact (hitems.append_left _).trans (List.perm_append_comm_assoc _ _ _)
      · rw [hfind, alter, if_neg hkey, items_cons]
        exact ((halter f).append_left _).trans (List.perm_append_comm_assoc _ _ _)

namespace Trie

/-- Storing an element adds one item. -/
theorem items_alter [LawfulBEq κ] (t : Trie κ (List β)) (p : List κ) (b : β) :
    (t.alter [] (· ++ [b]) p).items.Perm ((p, b) :: t.items) := by
  induction p generalizing t with
  | nil =>
    show ((t.entry ++ [b]).map (fun b => (([] : List κ), b)) ++ t.children.items).Perm _
    rw [List.map_append, List.append_assoc]
    exact List.perm_middle
  | cons k ks ih =>
    obtain ⟨others, hitems, halter⟩ := t.children.exists_items_alter k
    have hchild : itemsOf (t.children.find? k) = ((t.children.find? k).getD (leaf [])).items := by
      cases t.children.find? k with
      | none => rfl
      | some c => rfl
    have hnew := itemsUnder_perm (k := k) (ih ((t.children.find? k).getD (leaf [])))
    rw [itemsUnder_cons, ← hchild] at hnew
    have halter : (t.alter [] (· ++ [b]) (k :: ks)).children.items ~
        itemsUnder k (((t.children.find? k).getD (leaf [])).alter [] (· ++ [b]) ks).items ++
          others := halter _
    calc (t.alter [] (· ++ [b]) (k :: ks)).items
        _ ~ t.entry.map (fun b => ([], b)) ++ ((k :: ks, b) ::
            (itemsUnder k (itemsOf (t.children.find? k)) ++ others)) :=
          (halter.trans (hnew.append_right others)).append_left _
        _ ~ t.entry.map (fun b => ([], b)) ++ ((k :: ks, b) :: t.children.items) :=
          (hitems.symm.cons _).append_left _
        _ ~ (k :: ks, b) :: t.items := List.perm_middle

theorem prune_eq_none {ε : Type} {isEmpty : ε → Bool} {f : ε → Option ε} {t : Trie κ ε}
    {p : List κ} (h : ∀ e, t.get? p = some e → f e = none) : t.prune isEmpty f p = none := by
  induction p generalizing t with
  | nil => rw [prune, h t.entry rfl, Option.map_none]
  | cons k ks ih =>
    unfold get? at h
    unfold prune
    cases hfind : t.children.find? k with
    | none => rfl
    | some c =>
      rw [hfind] at h
      simp only [ih h]

/-- Dropping an element takes one item away, also if nodes without items are dropped with it. -/
theorem exists_prune [LawfulBEq κ] {t : Trie κ (List β)} {p : List κ} {es es' : List β}
    {f : List β → Option (List β)} {b : β} (hget : t.get? p = some es) (hf : f es = some es')
    (hes : es.Perm (b :: es')) :
    ∃ t', t.prune List.isEmpty f p = some t' ∧ t.items.Perm ((p, b) :: t'.items) := by
  induction p generalizing t with
  | nil =>
    obtain rfl : t.entry = es := Option.some.inj hget
    refine ⟨_, by rw [prune, hf, Option.map_some], ?_⟩
    exact (hes.map fun b => (([] : List κ), b)).append_right _
  | cons k ks ih =>
    unfold get? at hget
    unfold prune
    cases hfind : t.children.find? k with
    | none =>
      rw [hfind] at hget
      cases hget
    | some c =>
      rw [hfind] at hget
      obtain ⟨c', hprune, hdrop⟩ := ih hget
      obtain ⟨others, hitems, halter⟩ := t.children.exists_items_alter k
      rw [hfind] at hitems
      have hdrop := itemsUnder_perm (k := k) hdrop
      rw [itemsUnder_cons] at hdrop
      -- a child that is dropped has no items
      have hchild : itemsOf (if c'.entry.isEmpty && c'.children.isNil then none else some c') =
          c'.items := by
        split
        next hempty =>
          rw [Bool.and_eq_true, List.isEmpty_iff] at hempty
          exact (items_eq_nil hempty.1 hempty.2).symm
        next => rfl
      simp only [hprune]
      refine ⟨_, rfl, ?_⟩
      have hshrunk := halter fun _ =>
        if c'.entry.isEmpty && c'.children.isNil then none else some c'
      rw [hchild] at hshrunk
      calc t.items
          _ ~ t.entry.map (fun b => ([], b)) ++ ((k :: ks, b) ::
              (itemsUnder k c'.items ++ others)) :=
            (hitems.trans (hdrop.append_right others)).append_left _
          _ ~ t.entry.map (fun b => ([], b)) ++ ((k :: ks, b) :: (t.children.alter k fun _ =>
              if c'.entry.isEmpty && c'.children.isNil then none else some c').items) :=
            (hshrunk.symm.cons _).append_left _
          _ ~ _ := List.perm_middle

end Trie

/-! ## Section 3: Keys of children -/

namespace Forest

/-- No two children have the same key, and so on below them. -/
def Unique : Forest κ (List β) → Prop
  | .nil => True
  | .cons k _ below rest => rest.find? k = none ∧ below.Unique ∧ rest.Unique

variable {F : Forest κ (List β)} {k : κ}

theorem Unique.find? (h : F.Unique) {c : Trie κ (List β)} (hc : F.find? k = some c) :
    c.children.Unique := by
  induction F with
  | nil => cases hc
  | cons key es below rest _ ih =>
    obtain ⟨-, hbelow, hrest⟩ := h
    unfold Forest.find? at hc
    split at hc
    next =>
      obtain rfl := Option.some.inj hc
      exact hbelow
    next => exact ih hrest hc

/-- The items below a key are those of the child that is found there. -/
theorem Unique.exists_child [LawfulBEq κ] (h : F.Unique) {ks : List κ} {b : β}
    (hmem : (k :: ks, b) ∈ F.items) :
    ∃ c, F.find? k = some c ∧ (ks, b) ∈ c.items := by
  induction F with
  | nil => exact absurd hmem List.not_mem_nil
  | cons key es below rest _ ih =>
    obtain ⟨hkey, -, hrest⟩ := h
    unfold Forest.find?
    rw [items_cons] at hmem
    rcases List.mem_append.mp hmem with hmem | hmem
    · obtain ⟨ks', heq, hmem⟩ := mem_itemsUnder.mp hmem
      obtain ⟨rfl, rfl⟩ := List.cons.inj heq
      exact ⟨_, if_pos BEq.rfl, hmem⟩
    · obtain ⟨c, hc, hmem⟩ := ih hrest hmem
      refine ⟨c, ?_, hmem⟩
      rw [if_neg, hc]
      intro hbeq
      simp [← eq_of_beq hbeq, hkey] at hc

private theorem find?_alter_of_ne [LawfulBEq κ] {k' : κ} (hk : ¬ (k == k') = true)
    (f : Option (Trie κ (List β)) → Option (Trie κ (List β))) :
    (F.alter k f).find? k' = F.find? k' := by
  induction F with
  | nil =>
    unfold alter
    cases f none with
    | none => rfl
    | some c => exact if_neg hk
  | cons key es below rest _ ih =>
    unfold alter
    split
    next hkey =>
      obtain rfl := eq_of_beq hkey
      have hrest : (cons key es below rest).find? k' = rest.find? k' := if_neg hk
      rw [hrest]
      cases f (some ⟨es, below⟩) with
      | none => rfl
      | some c => exact if_neg hk
    next =>
      unfold find?
      rw [ih]

/-- Changing a child keeps keys unique if the new child has unique keys below it. -/
theorem Unique.alter [LawfulBEq κ] (h : F.Unique)
    {f : Option (Trie κ (List β)) → Option (Trie κ (List β))}
    (hf : ∀ c, f (F.find? k) = some c → c.children.Unique) : (F.alter k f).Unique := by
  induction F with
  | nil =>
    unfold Forest.alter
    split
    next => trivial
    next c hc => exact ⟨rfl, hf c hc, trivial⟩
  | cons key es below rest _ ih =>
    obtain ⟨hkey, hbelow, hrest⟩ := h
    unfold Forest.alter
    unfold Forest.find? at hf
    split
    next heq =>
      rw [if_pos heq] at hf
      split
      next => exact hrest
      next c hc => exact ⟨hkey, hf c hc, hrest⟩
    next hne =>
      rw [if_neg hne] at hf
      exact ⟨(find?_alter_of_ne (mt BEq.symm hne) f).trans hkey, hbelow, ih hrest hf⟩

end Forest

namespace Trie

variable {t : Trie κ (List β)}

/-- Where keys are unique, every item is found at its keys. -/
theorem exists_get?_of_mem_items [LawfulBEq κ] (h : t.children.Unique) {p : List κ} {b : β}
    (hmem : (p, b) ∈ t.items) : ∃ es, t.get? p = some es ∧ b ∈ es := by
  induction p generalizing t with
  | nil =>
    refine ⟨t.entry, rfl, ?_⟩
    rcases List.mem_append.mp hmem with hmem | hmem
    · obtain ⟨b', hb', heq⟩ := List.mem_map.mp hmem
      exact (Prod.mk.inj heq).2 ▸ hb'
    · -- items of children have a key
      rw [Forest.items_eq_flatMap] at hmem
      obtain ⟨c, -, hmem⟩ := List.mem_flatMap.mp hmem
      obtain ⟨ks, heq, -⟩ := mem_itemsUnder.mp hmem
      cases heq
  | cons k ks ih =>
    have hmem : (k :: ks, b) ∈ t.children.items := by
      rcases List.mem_append.mp hmem with hmem | hmem
      · obtain ⟨b', -, heq⟩ := List.mem_map.mp hmem
        cases heq
      · exact hmem
    obtain ⟨c, hc, hmem⟩ := h.exists_child hmem
    obtain ⟨es, hes, hb⟩ := ih (h.find? hc) hmem
    exact ⟨es, by rw [get?, hc]; exact hes, hb⟩

theorem unique_alter [LawfulBEq κ] (h : t.children.Unique) (new : List β) (f : List β → List β)
    (p : List κ) :
    (t.alter new f p).children.Unique := by
  induction p generalizing t with
  | nil => exact h
  | cons k ks ih =>
    refine h.alter fun c hc => ?_
    obtain rfl := Option.some.inj hc
    apply ih
    cases hfind : t.children.find? k with
    | none => trivial
    | some c => exact h.find? hfind

theorem unique_prune [LawfulBEq κ] (h : t.children.Unique) {isEmpty : List β → Bool}
    {f : List β → Option (List β)} {p : List κ} {t' : Trie κ (List β)}
    (ht : t.prune isEmpty f p = some t') : t'.children.Unique := by
  induction p generalizing t t' with
  | nil =>
    obtain ⟨e, -, rfl⟩ := Option.map_eq_some_iff.mp ht
    exact h
  | cons k ks ih =>
    unfold prune at ht
    split at ht
    next => cases ht
    next c hfind =>
      split at ht
      next => cases ht
      next c' hprune =>
        obtain rfl := Option.some.inj ht
        refine h.alter fun c hc => ?_
        split at hc
        next => cases hc
        next =>
          obtain rfl := Option.some.inj hc
          exact ih (h.find? hfind) hprune

/-- What is found at its keys is among the items. -/
theorem mem_items_of_get? [LawfulBEq κ] {p : List κ} {es : List β} {b : β} (h : t.get? p = some es)
    (hb : b ∈ es) : (p, b) ∈ t.items := by
  induction p generalizing t with
  | nil =>
    obtain rfl : t.entry = es := Option.some.inj h
    exact List.mem_append_left _ (List.mem_map_of_mem hb)
  | cons k ks ih =>
    unfold get? at h
    cases hfind : t.children.find? k with
    | none => simp [hfind] at h
    | some c =>
      rw [hfind] at h
      obtain ⟨others, hitems, -⟩ := t.children.exists_items_alter k
      rw [hfind] at hitems
      apply List.mem_append_right
      apply hitems.mem_iff.mpr
      exact List.mem_append_left _ (mem_itemsUnder.mpr ⟨ks, rfl, ih h⟩)

end Trie

/-! ## Section 4: Entries of another type -/

section Map

variable {ε ε' : Type} {g : ε → ε'}

/-- The same children with other entries. -/
def Forest.map (g : ε → ε') : Forest κ ε → Forest κ ε'
  | .nil => .nil
  | .cons k e below rest => .cons k (g e) (below.map g) (rest.map g)

/-- The same node with other entries. -/
def Trie.map (g : ε → ε') (t : Trie κ ε) : Trie κ ε' :=
  ⟨g t.entry, t.children.map g⟩

private theorem Forest.find?_map (F : Forest κ ε) (k : κ) :
    (F.map g).find? k = (F.find? k).map (Trie.map g) := by
  induction F with
  | nil => rfl
  | cons key e below rest _ ih =>
    rw [map, find?, find?]
    split
    next => rfl
    next => exact ih

/-- Entries may be changed before or after a child is. -/
theorem Forest.map_alter {F : Forest κ ε} {k : κ} {f : Option (Trie κ ε) → Option (Trie κ ε)}
    {f' : Option (Trie κ ε') → Option (Trie κ ε')}
    (h : (f (F.find? k)).map (Trie.map g) = f' ((F.find? k).map (Trie.map g))) :
    (F.alter k f).map g = (F.map g).alter k f' := by
  induction F with
  | nil =>
    have h : (f none).map (Trie.map g) = f' none := h
    rw [map, alter, alter, ← h]
    cases f none <;> rfl
  | cons key e below rest _ ih =>
    rw [map, alter, alter]
    by_cases hkey : (key == k) = true
    · have hfind : (cons key e below rest).find? k = some ⟨e, below⟩ := if_pos hkey
      rw [hfind] at h
      have h : (f (some ⟨e, below⟩)).map (Trie.map g) = f' (some ⟨g e, below.map g⟩) := h
      rw [if_pos hkey, if_pos hkey, ← h]
      cases f (some ⟨e, below⟩) <;> rfl
    · have hfind : (cons key e below rest).find? k = rest.find? k := if_neg hkey
      rw [hfind] at h
      rw [if_neg hkey, if_neg hkey, map, ih h]

/-- What a change does to a child depends only on what is found there. -/
theorem Forest.alter_congr {F : Forest κ ε} {k : κ} {f f' : Option (Trie κ ε) → Option (Trie κ ε)}
    (h : f (F.find? k) = f' (F.find? k)) : F.alter k f = F.alter k f' := by
  induction F with
  | nil =>
    have h : f none = f' none := h
    rw [alter, alter, h]
  | cons key e below rest _ ih =>
    rw [alter, alter]
    by_cases hkey : (key == k) = true
    · have hfind : (cons key e below rest).find? k = some ⟨e, below⟩ := if_pos hkey
      rw [hfind] at h
      rw [if_pos hkey, if_pos hkey, h]
    · have hfind : (cons key e below rest).find? k = rest.find? k := if_neg hkey
      rw [hfind] at h
      rw [if_neg hkey, if_neg hkey, ih h]

theorem Forest.alter_eq_self {F : Forest κ ε} {k : κ} {c : Trie κ ε} (h : F.find? k = some c) :
    (F.alter k fun _ => some c) = F := by
  induction F with
  | nil => simp [find?] at h
  | cons key e below rest _ ih =>
    unfold find? at h
    rw [alter]
    split at h
    next hkey =>
      obtain rfl := Option.some.inj h
      rw [if_pos hkey]
    next hkey => rw [if_neg hkey, ih h]

/-- The child that is changed is found. -/
theorem Forest.find?_alter_self [ReflBEq κ] (F : Forest κ ε) (k : κ)
    (u : Option (Trie κ ε) → Trie κ ε) :
    (F.alter k fun c => some (u c)).find? k = some (u (F.find? k)) := by
  induction F with
  | nil => exact if_pos BEq.rfl
  | cons key e below rest _ ih =>
    rw [alter]
    split
    next hkey =>
      rw [find?, if_pos hkey, find?, if_pos hkey]
    next hkey => rw [find?, if_neg hkey, ih, find?, if_neg hkey]

/-- Two changes of one child are one change. -/
theorem Forest.alter_alter [ReflBEq κ] (F : Forest κ ε) (k : κ) (u : Option (Trie κ ε) → Trie κ ε)
    (f : Option (Trie κ ε) → Option (Trie κ ε)) :
    (F.alter k fun c => some (u c)).alter k f = F.alter k fun c => f (some (u c)) := by
  induction F with
  | nil => exact if_pos BEq.rfl
  | cons key e below rest _ ih =>
    rw [alter, alter]
    by_cases hkey : (key == k) = true
    · rw [if_pos hkey, if_pos hkey, alter, if_pos hkey]
    · rw [if_neg hkey, if_neg hkey, alter, if_neg hkey, ih]

namespace Trie

variable {t : Trie κ ε} {p : List κ} {new e : ε}

/-- The entry that is changed is found. -/
theorem get?_alter [ReflBEq κ] (new : ε) (f : ε → ε) (p : List κ) (t : Trie κ ε) :
    (t.alter new f p).get? p = some (f ((t.get? p).getD new)) := by
  induction p generalizing t with
  | nil => rfl
  | cons k ks ih =>
    rw [alter, get?, get?, Forest.find?_alter_self]
    dsimp only
    rw [ih]
    cases t.children.find? k with
    | some c => rfl
    | none => cases ks <;> rfl

/-- Two changes of one entry are one change. -/
theorem alter_alter [ReflBEq κ] (new : ε) (g f : ε → ε) (p : List κ) (t : Trie κ ε) :
    (t.alter new g p).alter new f p = t.alter new (fun e => f (g e)) p := by
  induction p generalizing t with
  | nil => rfl
  | cons k ks ih =>
    rw [alter, alter, Forest.alter_alter, alter]
    simp only [Option.getD_some, ih]

/-- Where there is a node, leaving its entry as it is changes nothing. -/
theorem alter_id (h : t.get? p = some e) : t.alter new id p = t := by
  induction p generalizing t with
  | nil => rfl
  | cons k ks ih =>
    unfold get? at h
    cases hfind : t.children.find? k with
    | none => simp [hfind] at h
    | some c =>
      rw [hfind] at h
      have hsame : t.children.alter k (fun c => some (alter new id ks (c.getD (leaf new)))) =
          t.children.alter k fun _ => some c := by
        refine Forest.alter_congr ?_
        rw [hfind, Option.getD_some, ih h]
      rw [alter, hsame, Forest.alter_eq_self hfind]

private theorem get?_leaf {e' : ε} (h : (leaf new).get? p = some e') : e' = new := by
  cases p with
  | nil => exact (Option.some.inj h).symm
  | cons k ks => simp [get?, leaf, Forest.find?] at h

theorem get?_map (t : Trie κ ε) (p : List κ) : (t.map g).get? p = (t.get? p).map g := by
  induction p generalizing t with
  | nil => rfl
  | cons k ks ih =>
    rw [get?, get?, map, Forest.find?_map]
    cases t.children.find? k with
    | none => rfl
    | some c => exact ih c

/-- Entries may be changed before or after the entry of one node is. -/
theorem map_alter {f : ε → ε} {f' : ε' → ε'} (hnew : g (f new) = f' (g new))
    (h : ∀ e, t.get? p = some e → g (f e) = f' (g e)) :
    (t.alter new f p).map g = (t.map g).alter (g new) f' p := by
  induction p generalizing t with
  | nil =>
    rw [alter, alter, map, h t.entry rfl]
    rfl
  | cons k ks ih =>
    rw [alter, alter, map, map]
    congr 1
    refine Forest.map_alter (congrArg some ?_)
    unfold get? at h
    cases hfind : t.children.find? k with
    | none =>
      refine ih fun e he => ?_
      rw [get?_leaf he, hnew]
    | some c =>
      rw [hfind] at h
      exact ih h

/-- An entry that is to be put where a node is already is not put there, and nothing changes. -/
theorem place_of_get?_eq_some {e' : ε} (hp : p ≠ []) (h : t.get? p = some e') :
    t.place new e p = (false, t) := by
  induction p generalizing t with
  | nil => exact absurd rfl hp
  | cons k ks ih =>
    unfold get? at h
    cases hfind : t.children.find? k with
    | none => simp [hfind] at h
    | some c =>
      rw [hfind] at h
      cases ks with
      | nil => simp [place, hfind]
      | cons k' ks =>
        have hchild := ih (List.cons_ne_nil _ _) h
        simp only [place, hfind, Option.getD_some, hchild, Forest.alter_eq_self hfind]

/-- An entry that is put where no node is changes what is stored there and nothing else. -/
theorem place_of_get?_eq_none (h : t.get? p = none) :
    t.place new e p = (true, t.alter new (fun _ => e) p) := by
  induction p generalizing t with
  | nil => simp [get?] at h
  | cons k ks ih =>
    unfold get? at h
    cases ks with
    | nil =>
      cases hfind : t.children.find? k with
      | some c => simp [hfind, get?] at h
      | none =>
        rw [place, hfind, if_neg (by simp), alter]
        refine congrArg (fun F => (true, (⟨t.entry, F⟩ : Trie κ ε))) (Forest.alter_congr ?_)
        rw [hfind]
        rfl
    | cons k' ks =>
      have hchild : ((t.children.find? k).getD (leaf new)).get? (k' :: ks) = none := by
        cases hfind : t.children.find? k with
        | none => rfl
        | some c =>
          rw [hfind] at h
          exact h
      rw [place, ih hchild, alter]
      exact congrArg (fun F => (true, (⟨t.entry, F⟩ : Trie κ ε))) (Forest.alter_congr rfl)

end Trie

end Map

end Clausal
