import Clausal.Index.FeatureVector
import Clausal.Proofs.Index.Feature
import Clausal.Proofs.Index.Trie

/-!
# Walks through a feature vector index

A walk below a vector, and a walk above one, visits the nodes of a trie that the vectors on the way
do not rule out.  What it finds is what is stored under the paths that it reaches, each item once;
which paths those are depends on the path alone, and not on the rest of the trie.

Among ascending vectors the walk below a vector reaches all that it dominates, and the walk above a
vector all that dominate it.

## Main definitions

- `FeatureScheme.Ascends`: the features of a vector ascend strictly
- `reachesBelow`, `reachesAbove`: whether a walk reaches the node at the end of a path

## Main statements

- `FeatureIndex.belowVector_perm`, `FeatureIndex.aboveVector_perm`: what walks find
- `reachesBelow_of_dominated`, `reachesAbove_of_dominated`: what walks do not miss
- `dominated_of_reachesBelow`: what the walk below a vector rules out
-/

namespace Clausal

open scoped List

variable {φ α β : Type} {s : FeatureScheme φ}

/-! ## Section 1: Filters -/

/-- Two exclusive conditions split what fulfils either of them. -/
theorem filter_or_perm {p q : β → Bool} {l : List β} (h : ∀ a ∈ l, p a = true → q a = false) :
    l.filter (fun a => p a || q a) ~ l.filter p ++ l.filter q := by
  induction l with
  | nil => exact List.Perm.refl _
  | cons a l ih =>
    obtain ⟨ha, hl⟩ := List.forall_mem_cons.mp h
    have ih := ih hl
    cases hp : p a with
    | true =>
      rw [List.filter_cons_of_pos (by simp [hp]), List.filter_cons_of_pos hp,
        List.filter_cons_of_neg (by simp [ha hp])]
      exact ih.cons a
    | false =>
      cases hq : q a with
      | true =>
        rw [List.filter_cons_of_pos (by simp [hq]), List.filter_cons_of_neg (by simp [hp]),
          List.filter_cons_of_pos hq]
        exact (ih.cons a).trans List.perm_middle.symm
      | false =>
        rw [List.filter_cons_of_neg (by simp [hp, hq]), List.filter_cons_of_neg (by simp [hp]),
          List.filter_cons_of_neg (by simp [hq])]
        exact ih

private theorem flatMap_filter_eq {γ : Type} (p : β → Bool) (g : β → List γ) (l : List β) :
    (l.filter p).flatMap g = l.flatMap fun a => if p a then g a else [] := by
  induction l with
  | nil => rfl
  | cons a l ih =>
    cases hp : p a with
    | true => rw [List.filter_cons_of_pos hp, List.flatMap_cons, List.flatMap_cons, ih, if_pos hp]
    | false =>
      rw [List.filter_cons_of_neg (by simp [hp]), List.flatMap_cons, ih, if_neg (by simp [hp]),
        List.nil_append]

/-! ## Section 2: Ascending vectors -/

/-- The features of a vector ascend strictly. -/
def FeatureScheme.Ascends (s : FeatureScheme φ) (v : List (Component φ)) : Prop :=
  v.Pairwise fun a b => s.compare a.1 b.1 = .lt

/-- Whether the walk below a vector reaches the node at the end of a path: it passes over components
    of the vector, and it follows the path where a component has the same feature and is no
    smaller. -/
def reachesBelow (s : FeatureScheme φ) : List (Component φ) → List (Component φ) → Bool
  | [], p => p.isEmpty
  | _ :: v, [] => reachesBelow s v []
  | (f, n) :: v, (g, m) :: p =>
    ((s.compare g f).isEq && m ≤ n && reachesBelow s v p) || reachesBelow s v ((g, m) :: p)

/-- Whether the walk above a vector reaches the node at the end of a path: it passes over components
    of the path until one has the first feature of the vector and is no smaller. -/
def reachesAbove (s : FeatureScheme φ) : List (Component φ) → List (Component φ) → Bool
  | _, [] => true
  | [], _ :: _ => false
  | (g, m) :: p, (f, n) :: v =>
    match s.compare g f with
    | .lt => reachesAbove s p ((f, n) :: v)
    | .eq => n ≤ m && reachesAbove s p v
    | .gt => false

/-- Whether the walk follows a path from the first component of the vector on. -/
def followsBelow (s : FeatureScheme φ) (f : φ) (n : Nat) (v : List (Component φ)) :
    List (Component φ) → Bool
  | [] => false
  | (g, m) :: p => (s.compare g f).isEq && m ≤ n && reachesBelow s v p

theorem reachesBelow_cons (f : φ) (n : Nat) (v p : List (Component φ)) :
    reachesBelow s ((f, n) :: v) p = (followsBelow s f n v p || reachesBelow s v p) := by
  cases p <;> rfl

/-- The walk below a vector reaches only what it dominates. -/
theorem dominated_of_reachesBelow [Std.LawfulEqCmp s.compare] {v p : List (Component φ)}
    (h : reachesBelow s v p = true) : ∀ e ∈ p, ∃ n, (e.1, n) ∈ v ∧ e.2 ≤ n := by
  induction v generalizing p with
  | nil =>
    obtain rfl : p = [] := List.isEmpty_iff.mp h
    simp
  | cons a v ih =>
    obtain ⟨f, n⟩ := a
    rw [reachesBelow_cons, Bool.or_eq_true] at h
    rcases h with h | h
    · cases p with
      | nil => cases h
      | cons b p =>
        obtain ⟨g, m⟩ := b
        rw [followsBelow, Bool.and_eq_true, Bool.and_eq_true, decide_eq_true_eq] at h
        obtain ⟨⟨hgf, hmn⟩, h⟩ := h
        obtain rfl : g = f := by simpa using hgf
        refine List.forall_mem_cons.mpr ⟨⟨n, List.mem_cons_self, hmn⟩, fun e he => ?_⟩
        obtain ⟨k, hk, hek⟩ := ih h e he
        exact ⟨k, List.mem_cons_of_mem _ hk, hek⟩
    · intro e he
      obtain ⟨k, hk, hek⟩ := ih h e he
      exact ⟨k, List.mem_cons_of_mem _ hk, hek⟩

section Dominated

variable [Std.TransCmp s.compare] {v p : List (Component φ)}

namespace FeatureScheme

theorem compare_self (f : φ) : s.compare f f = .eq :=
  Std.ReflCmp.compare_self

theorem ne_of_lt {f g : φ} (h : s.compare f g = .lt) : f ≠ g := by
  rintro rfl
  rw [compare_self] at h
  cases h

private theorem not_lt_of_lt {f g : φ} (h : s.compare f g = .lt) : s.compare g f ≠ .lt := by
  rw [Std.OrientedCmp.gt_iff_lt.mpr h]
  exact Ordering.noConfusion

end FeatureScheme

/-- A component with another feature does not help to dominate a vector. -/
theorem dominated_of_cons {f : φ} {k : Nat} (hne : ∀ e ∈ p, e.1 ≠ f)
    (h : ∀ e ∈ p, ∃ n, (e.1, n) ∈ (f, k) :: v ∧ e.2 ≤ n) :
    ∀ e ∈ p, ∃ n, (e.1, n) ∈ v ∧ e.2 ≤ n := by
  intro e he
  obtain ⟨n, hn, hle⟩ := h e he
  rcases List.mem_cons.mp hn with heq | hmem
  · exact absurd (Prod.mk.inj heq).1 (hne e he)
  · exact ⟨n, hmem, hle⟩

namespace FeatureScheme.Ascends

/-- The first feature has no second component. -/
theorem eq_of_mem {f : φ} {n n' : Nat} (hv : s.Ascends ((f, n) :: v)) (h : (f, n') ∈ (f, n) :: v) :
    n' = n := by
  rcases List.mem_cons.mp h with heq | hmem
  · exact (Prod.mk.inj heq).2
  · exact absurd rfl (ne_of_lt ((List.pairwise_cons.mp hv).1 (f, n') hmem))

theorem ne_of_mem {f : φ} {n : Nat} (hv : s.Ascends ((f, n) :: v)) : ∀ e ∈ v, e.1 ≠ f :=
  fun e he => (ne_of_lt ((List.pairwise_cons.mp hv).1 e he)).symm

/-- A feature that comes before the first one is not there. -/
theorem ne_of_lt_head {a : Component φ} {f : φ} (hv : s.Ascends (a :: v))
    (h : s.compare f a.1 = .lt) : ∀ e ∈ a :: v, e.1 ≠ f := by
  rintro e he rfl
  rcases List.mem_cons.mp he with rfl | he
  · exact ne_of_lt h rfl
  · exact not_lt_of_lt h ((List.pairwise_cons.mp hv).1 e he)

end FeatureScheme.Ascends

/-- The walk below a vector reaches all that it dominates. -/
theorem reachesBelow_of_dominated (hv : s.Ascends v) (hp : s.Ascends p)
    (h : ∀ e ∈ p, ∃ n, (e.1, n) ∈ v ∧ e.2 ≤ n) : reachesBelow s v p = true := by
  induction v generalizing p with
  | nil =>
    cases p with
    | nil => rfl
    | cons e p =>
      obtain ⟨n, hn, -⟩ := h e List.mem_cons_self
      cases hn
  | cons a v ih =>
    obtain ⟨f, n⟩ := a
    obtain ⟨hf, hvs⟩ := List.pairwise_cons.mp hv
    cases p with
    | nil => exact ih hvs List.Pairwise.nil (by simp)
    | cons b p =>
      obtain ⟨g, m⟩ := b
      obtain ⟨n', hn', hle⟩ := h (g, m) List.mem_cons_self
      rw [reachesBelow_cons, Bool.or_eq_true]
      by_cases hgf : g = f
      · -- the walk follows the path here
        subst hgf
        have hmn : m ≤ n := hv.eq_of_mem hn' ▸ hle
        have hrest : reachesBelow s v p = true :=
          ih hvs hp.of_cons (dominated_of_cons hp.ne_of_mem (List.forall_mem_cons.mp h).2)
        left
        simp [followsBelow, FeatureScheme.compare_self, hmn, hrest]
      · -- all features of the path come later than the component that is passed over
        right
        have hfg : s.compare f g = .lt := by
          rcases List.mem_cons.mp hn' with heq | hmem
          · exact absurd (Prod.mk.inj heq).1 hgf
          · exact hf _ hmem
        exact ih hvs hp (dominated_of_cons (hp.ne_of_lt_head hfg) h)

/-- The walk above a vector reaches all that dominate it. -/
theorem reachesAbove_of_dominated [Std.LawfulEqCmp s.compare] (hp : s.Ascends p) (hv : s.Ascends v)
    (h : ∀ e ∈ v, ∃ n, (e.1, n) ∈ p ∧ e.2 ≤ n) : reachesAbove s p v = true := by
  induction p generalizing v with
  | nil =>
    cases v with
    | nil => rfl
    | cons e v =>
      obtain ⟨n, hn, -⟩ := h e List.mem_cons_self
      cases hn
  | cons b p ih =>
    obtain ⟨g, m⟩ := b
    obtain ⟨hg, hps⟩ := List.pairwise_cons.mp hp
    cases v with
    | nil => rfl
    | cons a v =>
      obtain ⟨f, n⟩ := a
      obtain ⟨m', hm', hle⟩ := h (f, n) List.mem_cons_self
      unfold reachesAbove
      cases hcmp : s.compare g f with
      | lt =>
        -- all features of the vector come later than the one that is passed over
        exact ih hps hv (dominated_of_cons (hv.ne_of_lt_head hcmp) h)
      | eq =>
        obtain rfl : g = f := Std.LawfulEqCmp.eq_of_compare hcmp
        have hnm : n ≤ m := hp.eq_of_mem hm' ▸ hle
        have hrest : reachesAbove s p v = true :=
          ih hps hv.of_cons (dominated_of_cons hv.ne_of_mem (List.forall_mem_cons.mp h).2)
        simp [hnm, hrest]
      | gt =>
        -- the path would have had the first feature of the vector before
        rcases List.mem_cons.mp hm' with heq | hmem
        · obtain ⟨rfl, -⟩ := Prod.mk.inj heq
          rw [FeatureScheme.compare_self] at hcmp
          cases hcmp
        · have hlt := hg _ hmem
          rw [hcmp] at hlt
          cases hlt

end Dominated

/-! ## Section 3: What walks find -/

namespace FeatureIndex

private theorem entriesBelow_perm (F : Forest (Component φ) (Entries α)) :
    entriesBelow F ~ F.items.map Prod.snd := by
  induction F with
  | nil => exact List.Perm.refl _
  | cons k es below rest hbelow hrest =>
    rw [entriesBelow, Forest.items_cons, List.map_append, map_snd_itemsUnder, Trie.items,
      List.map_append, List.map_map]
    refine List.perm_append_comm.trans (List.Perm.append ?_ hrest)
    exact List.Perm.append (by simp [Function.comp_def]) hbelow

theorem entriesOf_perm (t : Trie (Component φ) (Entries α)) :
    entriesOf t ~ t.items.map Prod.snd := by
  rw [entriesOf, Trie.items, List.map_append, List.map_map]
  exact List.Perm.append (by simp [Function.comp_def]) (entriesBelow_perm t.children)

theorem ascending_perm {γ : Type} (s : FeatureScheme φ) (l : List (Component φ × γ)) :
    ascending s l ~ l :=
  List.mergeSort_perm l _

variable {v : List (Component φ)}

/-- From a node, the walk below a vector goes down to the children that it follows. -/
theorem flatMap_children_perm (f : φ) (n : Nat)
    (hv : ∀ t : Trie (Component φ) (Entries α),
      belowVector s v t ~ (t.items.filter fun i => reachesBelow s v i.1).map Prod.snd)
    (t : Trie (Component φ) (Entries α)) :
    (((ascending s t.children.toList).filter fun c =>
        (s.compare c.1.1 f).isEq && c.1.2 ≤ n).flatMap fun c => belowVector s v c.2) ~
      (t.items.filter fun i => followsBelow s f n v i.1).map Prod.snd := by
  rw [Trie.filter_items_of_nil rfl, Forest.items_eq_flatMap, List.filter_flatMap, List.map_flatMap]
  refine (((ascending_perm s t.children.toList).filter _).flatMap_right _).trans ?_
  rw [flatMap_filter_eq]
  refine List.Perm.flatMap_left _ fun c _ => ?_
  rw [filter_itemsUnder, map_snd_itemsUnder]
  cases hcond : (s.compare c.1.1 f).isEq && decide (c.1.2 ≤ n) with
  | true => simpa [followsBelow, hcond] using hv c.2
  | false => simp [followsBelow, hcond]

/-- The walk below a vector finds what is stored under the paths that it reaches. -/
theorem belowVector_perm [Std.TransCmp s.compare] [Std.LawfulEqCmp s.compare] (hv : s.Ascends v)
    (t : Trie (Component φ) (Entries α)) :
    belowVector s v t ~ (t.items.filter fun i => reachesBelow s v i.1).map Prod.snd := by
  induction v generalizing t with
  | nil =>
    have hentry : belowVector s [] t = t.entry := rfl
    rw [hentry, ← t.map_snd_filter_isEmpty]
    rfl
  | cons a v ih =>
    obtain ⟨f, n⟩ := a
    obtain ⟨hf, hvs⟩ := List.pairwise_cons.mp hv
    -- a path that is followed from here has a feature that the rest of the vector lacks
    have hexclusive : ∀ i ∈ t.items, followsBelow s f n v i.1 = true →
        reachesBelow s v i.1 = false := by
      rintro ⟨p, b⟩ - hfollows
      cases p with
      | nil => cases hfollows
      | cons a p =>
        obtain ⟨g, m⟩ := a
        rw [followsBelow, Bool.and_eq_true, Bool.and_eq_true] at hfollows
        have hgf : g = f := by simpa using hfollows.1.1
        by_contra hreaches
        have hreaches := Bool.eq_true_of_not_eq_false hreaches
        obtain ⟨k, hk, -⟩ := dominated_of_reachesBelow hreaches (g, m) List.mem_cons_self
        exact FeatureScheme.ne_of_lt (hf (g, k) hk) hgf.symm
    have hsplit := (filter_or_perm hexclusive).map Prod.snd
    rw [List.map_append] at hsplit
    simp only [reachesBelow_cons]
    exact ((flatMap_children_perm f n (ih hvs) t).append (ih hvs t)).trans hsplit.symm

/-- Above the empty vector all is found, and above another what the children hold. -/
theorem aboveVector_perm_of_children {t : Trie (Component φ) (Entries α)}
    (ht : ∀ v, v ≠ [] → (aboveVectorIn s t.children v).flatMap Prod.snd ~
      (t.children.items.filter fun i => reachesAbove s i.1 v).map Prod.snd)
    (v : List (Component φ)) :
    aboveVector s t v ~ (t.items.filter fun i => reachesAbove s i.1 v).map Prod.snd := by
  cases v with
  | nil =>
    have hall : t.items.filter (fun i => reachesAbove s i.1 []) = t.items := by
      rw [List.filter_eq_self]
      intro i _
      unfold reachesAbove
      rfl
    rw [hall]
    exact entriesOf_perm t
  | cons a v =>
    rw [Trie.filter_items_of_nil (p := fun p => reachesAbove s p (a :: v)) rfl]
    exact ((ascending_perm s _).flatMap_right _).trans (ht (a :: v) (List.cons_ne_nil a v))

/-- Below the children, the walk above a vector finds what it reaches there. -/
theorem aboveVectorIn_perm (F : Forest (Component φ) (Entries α)) (hv : v ≠ []) :
    (aboveVectorIn s F v).flatMap Prod.snd ~
      (F.items.filter fun i => reachesAbove s i.1 v).map Prod.snd := by
  induction F generalizing v with
  | nil => exact List.Perm.refl _
  | cons key es below rest hbelow hrest =>
    obtain ⟨g, m⟩ := key
    cases v with
    | nil => exact absurd rfl hv
    | cons a v =>
      obtain ⟨f, n⟩ := a
      have hchild := aboveVector_perm_of_children (t := ⟨es, below⟩) fun v hv => hbelow hv
      rw [Forest.items_cons, List.filter_append, List.map_append,
        filter_itemsUnder (fun p => reachesAbove s p ((f, n) :: v)), map_snd_itemsUnder,
        aboveVectorIn, List.flatMap_cons]
      refine List.Perm.append ?_ (hrest hv)
      dsimp only
      cases hcmp : s.compare g f with
      | lt =>
        simp only [reachesAbove, hcmp]
        exact hchild ((f, n) :: v)
      | eq =>
        simp only [reachesAbove, hcmp]
        by_cases hnm : n ≤ m
        · simp only [hnm, if_true, decide_true, Bool.true_and]
          cases v with
          | nil => exact hchild []
          | cons b v => exact hchild (b :: v)
        · simp [hnm]
      | gt => simp [reachesAbove, hcmp]

/-- The walk above a vector finds what is stored under the paths that it reaches. -/
theorem aboveVector_perm (t : Trie (Component φ) (Entries α)) (v : List (Component φ)) :
    aboveVector s t v ~ (t.items.filter fun i => reachesAbove s i.1 v).map Prod.snd :=
  aboveVector_perm_of_children (fun _ hv => aboveVectorIn_perm t.children hv) v

end FeatureIndex

end Clausal
