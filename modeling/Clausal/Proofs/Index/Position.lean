import Mathlib.Data.List.Forall2
import Mathlib.Logic.Function.Basic
import Clausal.Proofs.Index.Spelling

/-!
# Argument positions

A position keeps a key once for each leaf symbol of the key, and every argument position below it is
looked up on its own.  What a position stores is said by its content: for every key, the term that
the key has at that position, if it has one.  The content of a position gives the contents of the
positions below it, so one invariant relates every list of keys in the tree to every stored key.

Inserting a key changes the content at that key only.  Each walk finds the keys whose terms agree
with the query down to the places where the walk stops.

## Main definitions

- `Term.AgreesUntil`: terms that have the same symbols down to where a walk stops
- `Position.Stores`: a position stores the terms of a content, and nothing else

## Main statements

- `Position.Stores.insert`: inserting a key adds its term to the content
- `Position.Stores.mem_candidates`, `Position.Stores.mem_generals`: what the walks find
- `Position.Stores.nodup_candidates`, `Position.Stores.nodup_generals`: no key is found twice
-/

namespace Clausal

/-! ## Section 1: Terms that agree down to where a walk stops -/

namespace Term

/-- Induction on a term from its direct parts. -/
@[elab_as_elim]
theorem argsInduction {P : Term → Prop} (step : ∀ t : Term, (∀ a ∈ t.args, P a) → P t) (t : Term) :
    P t := by
  induction t using Term.induction with
  | var x => exact step _ (by simp [args])
  | const c => exact step _ (by simp [args])
  | app f ts ih => exact step _ ih

/-- Two terms have the same symbols at the same places, down to the places where a walk stops. -/
inductive AgreesUntil (stop : Term → Term → Prop) : Term → Term → Prop where
  | stop {s t : Term} (h : stop s t) : AgreesUntil stop s t
  | symbol {s t : Term} (h : s.ordinalElement = t.ordinalElement)
      (hargs : List.Forall₂ (AgreesUntil stop) s.args t.args) : AgreesUntil stop s t

variable {stop : Term → Term → Prop}

theorem agreesUntil_iff {s t : Term} (h : ¬ stop s t) :
    AgreesUntil stop s t ↔
      s.ordinalElement = t.ordinalElement ∧ List.Forall₂ (AgreesUntil stop) s.args t.args := by
  constructor
  · intro hst
    cases hst with
    | stop h' => exact absurd h' h
    | symbol hsymbol hargs => exact ⟨hsymbol, hargs⟩
  · exact fun hst => .symbol hst.1 hst.2

/-- Instances of a term agree if what is put in for its variables does. -/
theorem agreesUntil_subst {θ τ : Ident → Term} (h : ∀ x, AgreesUntil stop (θ x) (τ x)) (t : Term) :
    AgreesUntil stop (t.subst θ) (t.subst τ) := by
  induction t using Term.induction with
  | var x => exact h x
  | const c => exact .symbol rfl .nil
  | app f ts ih =>
    rw [subst_app, subst_app]
    apply AgreesUntil.symbol
    · simp [ordinalElement]
    · show List.Forall₂ _ (ts.map _) (ts.map _)
      rw [List.forall₂_map_left_iff, List.forall₂_map_right_iff, List.forall₂_same]
      exact ih

/-- A term agrees with its instances down to its variables. -/
theorem agreesUntil_instance {s t : Term} (hstop : ∀ x u, stop (.var x) u)
    (h : t.isInstanceOf s = true) : AgreesUntil stop s t := by
  obtain ⟨θ, rfl⟩ := isInstanceOf_iff.mp h
  have hagrees : AgreesUntil stop (s.subst .var) (s.subst θ) :=
    agreesUntil_subst (fun x => .stop (hstop x (θ x))) s
  rwa [subst_var] at hagrees

/-- An instance agrees with the term down to the variables of the latter. -/
theorem agreesUntil_generalisation {s t : Term} (hstop : ∀ x u, stop u (.var x))
    (h : t.isInstanceOf s = true) : AgreesUntil stop t s := by
  obtain ⟨θ, rfl⟩ := isInstanceOf_iff.mp h
  have hagrees : AgreesUntil stop (s.subst θ) (s.subst .var) :=
    agreesUntil_subst (fun x => .stop (hstop x (θ x))) s
  rwa [subst_var] at hagrees

theorem agreesUntil_self (t : Term) : AgreesUntil stop t t := by
  have hagrees : AgreesUntil stop (t.subst .var) (t.subst .var) :=
    agreesUntil_subst (fun x => .symbol rfl .nil) t
  rwa [subst_var] at hagrees

end Term

/-! ## Section 2: Positions as lists -/

namespace Positions

/-- The positions, one after the other. -/
def toList : Positions → List Position
  | .nil => []
  | .cons p ps => p :: ps.toList

private theorem toList_replicate (n : Nat) : (replicate n).toList = List.replicate n .nil := by
  induction n with
  | zero => rfl
  | succ n ih => exact congrArg (Position.nil :: ·) ih

private theorem toList_insert (key : Term) {ts : List Term} {ps : Positions}
    (h : ts.length = ps.toList.length) :
    (Positions.insert key ts ps).toList = List.zipWith (Position.insert key) ts ps.toList := by
  induction ts generalizing ps with
  | nil =>
    cases ps with
    | nil => rfl
    | cons p ps => simp [toList] at h
  | cons t ts ih =>
    cases ps with
    | nil => simp [toList] at h
    | cons p ps =>
      have htail : ts.length = ps.toList.length := by simpa [toList] using h
      simp [Positions.insert, toList, ih htail]

end Positions

@[simp]
theorem mem_unionKeys {ks ls : List Term} {k : Term} : k ∈ unionKeys ks ls ↔ k ∈ ks ∨ k ∈ ls := by
  simp only [unionKeys, List.mem_append, List.mem_filter]
  by_cases h : k ∈ ks <;> simp [h]

@[simp]
theorem mem_interKeys {ks ls : List Term} {k : Term} : k ∈ interKeys ks ls ↔ k ∈ ks ∧ k ∈ ls := by
  simp [interKeys]

theorem nodup_unionKeys {ks ls : List Term} (hks : ks.Nodup) (hls : ls.Nodup) :
    (unionKeys ks ls).Nodup := by
  refine List.Nodup.append hks (hls.filter _) fun k hk hk' => ?_
  simp [hk] at hk'

/-- The keys that several lists share; nothing without lists. -/
def interAll : List (List Term) → Option (List Term)
  | [] => none
  | ks :: kss => some ((interAll kss).elim ks (interKeys ks))

theorem interAll_eq_some {kss : List (List Term)} (h : kss ≠ []) :
    ∃ ls, interAll kss = some ls ∧ (∀ k, k ∈ ls ↔ ∀ ks ∈ kss, k ∈ ks) ∧
      ((∀ ks ∈ kss, ks.Nodup) → ls.Nodup) := by
  induction kss with
  | nil => exact absurd rfl h
  | cons ks kss ih =>
    cases kss with
    | nil => exact ⟨ks, rfl, by simp, by simp⟩
    | cons ks' kss =>
      obtain ⟨ls, hls, hmem, hnodup⟩ := ih (by simp)
      refine ⟨interKeys ks ls, by rw [interAll, hls]; rfl, fun k => ?_, fun hall => ?_⟩
      · rw [mem_interKeys, hmem, ← List.forall_mem_cons (p := (k ∈ ·))]
      · exact (hall ks List.mem_cons_self).filter _

private theorem Positions.candidates_eq (wild : Bool) (qs : List Term) (ps : Positions) :
    Positions.candidates wild qs ps =
      interAll (List.zipWith (Position.candidates wild) qs ps.toList) := by
  induction qs generalizing ps with
  | nil => simp [Positions.candidates, interAll]
  | cons q qs ih =>
    cases ps with
    | nil => simp [Positions.candidates, interAll, toList]
    | cons p ps =>
      simp only [Positions.candidates, toList, List.zipWith_cons_cons, interAll, ih]
      cases interAll (List.zipWith (Position.candidates wild) qs ps.toList) <;> rfl

private theorem Positions.generals_eq (qs : List Term) (ps : Positions) :
    Positions.generals ps qs =
      interAll (List.zipWith (fun q p => Position.generals p q) qs ps.toList) := by
  induction qs generalizing ps with
  | nil => cases ps <;> simp [Positions.generals, interAll]
  | cons q qs ih =>
    cases ps with
    | nil => simp [Positions.generals, interAll, toList]
    | cons p ps =>
      simp only [Positions.generals, toList, List.zipWith_cons_cons, interAll, ih]
      cases interAll (List.zipWith (fun q p => Position.generals p q) qs ps.toList) <;> rfl

private theorem Positions.mem_keys {k : Term} :
    ∀ {ps : Positions}, k ∈ ps.keys ↔ ∃ p ∈ ps.toList, k ∈ p.keys
  | .nil => by simp [Positions.keys, toList]
  | .cons p ps => by
    rw [Positions.keys, mem_unionKeys, mem_keys]
    simp [toList]

private theorem Positions.nodup_keys :
    ∀ {ps : Positions}, (∀ p ∈ ps.toList, p.keys.Nodup) → ps.keys.Nodup
  | .nil, _ => List.nodup_nil
  | .cons _ _, h =>
    nodup_unionKeys (h _ List.mem_cons_self) (nodup_keys fun q hq => h q (List.mem_cons_of_mem _ hq))

/-! ## Section 3: What a position stores -/

/-- The part of a content whose terms have a symbol. -/
def withSymbol (s : Element) (c : Term → Option Term) : Term → Option Term :=
  fun k => (c k).filter fun t => decide (t.ordinalElement = s)

/-- The part of a content whose terms do not have a symbol. -/
def withoutSymbol (s : Element) (c : Term → Option Term) : Term → Option Term :=
  fun k => (c k).filter fun t => decide (t.ordinalElement ≠ s)

/-- The content of an argument position. -/
def argAt (i : Nat) (c : Term → Option Term) : Term → Option Term :=
  fun k => (c k).bind fun t => t.args[i]?

section Content

variable {s : Element} {c : Term → Option Term} {k t key : Term}

@[simp]
theorem withSymbol_eq_some : withSymbol s c k = some t ↔ c k = some t ∧ t.ordinalElement = s := by
  simp [withSymbol, Option.filter_eq_some_iff]

@[simp]
theorem withoutSymbol_eq_some :
    withoutSymbol s c k = some t ↔ c k = some t ∧ t.ordinalElement ≠ s := by
  simp [withoutSymbol, Option.filter_eq_some_iff]

@[simp]
theorem argAt_eq_some {i : Nat} :
    argAt i c k = some t ↔ ∃ u, c k = some u ∧ u.args[i]? = some t := by
  simp [argAt, Option.bind_eq_some_iff]

/-- A content falls into the terms with a symbol and those without it. -/
theorem exists_iff_withSymbol (s : Element) (P : Term → Prop) :
    (∃ t, c k = some t ∧ P t) ↔
      (∃ t, withSymbol s c k = some t ∧ P t) ∨ ∃ t, withoutSymbol s c k = some t ∧ P t := by
  constructor
  · rintro ⟨t, ht, hP⟩
    by_cases hs : t.ordinalElement = s
    · exact .inl ⟨t, withSymbol_eq_some.mpr ⟨ht, hs⟩, hP⟩
    · exact .inr ⟨t, withoutSymbol_eq_some.mpr ⟨ht, hs⟩, hP⟩
  · rintro (⟨t, ht, hP⟩ | ⟨t, ht, hP⟩)
    · exact ⟨t, (withSymbol_eq_some.mp ht).1, hP⟩
    · exact ⟨t, (withoutSymbol_eq_some.mp ht).1, hP⟩

private theorem withSymbol_update (h : t.ordinalElement = s) :
    withSymbol s (Function.update c key (some t)) =
      Function.update (withSymbol s c) key (some t) := by
  funext k
  by_cases hk : k = key <;> simp [withSymbol, Option.filter, hk, h]

private theorem withSymbol_update_of_ne (hkey : c key = none) (h : t.ordinalElement ≠ s) :
    withSymbol s (Function.update c key (some t)) = withSymbol s c := by
  funext k
  by_cases hk : k = key <;> simp [withSymbol, Option.filter, hk, h, hkey]

private theorem withoutSymbol_update (hkey : c key = none) (h : t.ordinalElement = s) :
    withoutSymbol s (Function.update c key (some t)) = withoutSymbol s c := by
  funext k
  by_cases hk : k = key <;> simp [withoutSymbol, Option.filter, hk, h, hkey]

private theorem withoutSymbol_update_of_ne (h : t.ordinalElement ≠ s) :
    withoutSymbol s (Function.update c key (some t)) =
      Function.update (withoutSymbol s c) key (some t) := by
  funext k
  by_cases hk : k = key <;> simp [withoutSymbol, Option.filter, hk, h]

private theorem argAt_update {i : Nat} {a : Term} (h : t.args[i]? = some a) :
    argAt i (Function.update c key (some t)) = Function.update (argAt i c) key (some a) := by
  funext k
  by_cases hk : k = key <;> simp [argAt, hk, h]

end Content

/-- A position stores the terms of a content: at each symbol, the keys whose terms are that symbol
    alone, and below it the arguments of the terms with that symbol. -/
inductive Position.Stores : Position → (Term → Option Term) → Prop where
  | nil {c : Term → Option Term} (h : ∀ k, c k = none) : Stores .nil c
  | cons {s : Element} {ks : List Term} {args : Positions} {rest : Position}
      {c : Term → Option Term} (hnodup : ks.Nodup)
      (hkeys : ∀ k, k ∈ ks ↔ ∃ t, withSymbol s c k = some t ∧ t.args = [])
      (hlength : args.toList.length = s.arity)
      (hargs : ∀ (i : Nat) (p : Position), args.toList[i]? = some p →
        Stores p (argAt i (withSymbol s c)))
      (hrest : Stores rest (withoutSymbol s c)) : Stores (.cons s ks args rest) c

/-- What is found with a symbol stores the terms of a content, all of which have the symbol. -/
structure Position.NodeStores (s : Element) (node : List Term × Positions) (c : Term → Option Term) :
    Prop where
  symbol : ∀ k t, c k = some t → t.ordinalElement = s
  nodup : node.1.Nodup
  mem_keys : ∀ k, k ∈ node.1 ↔ ∃ t, c k = some t ∧ t.args = []
  length : node.2.toList.length = s.arity
  args : ∀ (i : Nat) (p : Position), node.2.toList[i]? = some p → p.Stores (argAt i c)

namespace Position

variable {c : Term → Option Term} {p : Position} {key k t : Term}

theorem stores_cons {s : Element} {ks : List Term} {args : Positions} {rest : Position} :
    (Position.cons s ks args rest).Stores c ↔
      NodeStores s (ks, args) (withSymbol s c) ∧ rest.Stores (withoutSymbol s c) := by
  constructor
  · intro h
    cases h with
    | cons hnodup hkeys hlength hargs hrest =>
      exact ⟨⟨fun k t ht => (withSymbol_eq_some.mp ht).2, hnodup, hkeys, hlength, hargs⟩, hrest⟩
  · exact fun h => .cons h.1.nodup h.1.mem_keys h.1.length h.1.args h.2

/-! ## Section 4: Inserting a key -/

/-- What inserting a key does to what is found with the symbol of a term. -/
def insertAt (key t : Term) (node : List Term × Positions) : List Term × Positions :=
  if t.args = [] then (unionKeys node.1 [key], node.2)
  else (node.1, Positions.insert key t.args node.2)

private theorem insert_eq (key t : Term) (p : Position) :
    Position.insert key t p = p.alter t.ordinalElement (insertAt key t) := by
  rcases t with x | c | ⟨f, _ | ⟨a, as⟩⟩ <;> simp [Position.insert] <;> rfl

private theorem nodeStores_empty {s : Element} {c : Term → Option Term} (h : ∀ k, c k = none) :
    NodeStores s ([], .replicate s.arity) c where
  symbol := by simp [h]
  nodup := List.nodup_nil
  mem_keys := by simp [h]
  length := by simp [Positions.toList_replicate]
  args i p hp := by
    rw [Positions.toList_replicate] at hp
    obtain rfl := List.eq_of_mem_replicate (List.mem_of_getElem? hp)
    exact .nil fun k => by simp [argAt, h]

/-- A key is inserted below a symbol if it can be inserted at each argument position. -/
theorem NodeStores.insertAt {node : List Term × Positions}
    (h : NodeStores t.ordinalElement node c) (hkey : c key = none)
    (ih : ∀ a ∈ t.args, ∀ p c, Position.Stores p c → c key = none →
      (p.insert key a).Stores (Function.update c key (some a))) :
    NodeStores t.ordinalElement (insertAt key t node) (Function.update c key (some t)) := by
  have hsymbol : ∀ k u, Function.update c key (some t) k = some u →
      u.ordinalElement = t.ordinalElement := by
    intro k u hu
    by_cases hk : k = key
    · simp only [hk, Function.update_self, Option.some.injEq] at hu
      rw [hu]
    · exact h.symbol k u (by simpa [hk] using hu)
  have hlength := h.length
  rw [Term.arity_ordinalElement] at hlength
  unfold Position.insertAt
  split
  next hnil =>
    refine ⟨hsymbol, nodup_unionKeys h.nodup (List.nodup_singleton key), fun k => ?_, h.length, ?_⟩
    · rw [mem_unionKeys, List.mem_singleton, h.mem_keys]
      by_cases hk : k = key <;> simp [hk, hnil]
    · -- there are no argument positions
      simp [List.eq_nil_of_length_eq_zero (hlength.trans (by simp [hnil]))]
  next hcons =>
    have hinsert := Positions.toList_insert key hlength.symm
    refine ⟨hsymbol, h.nodup, fun k => ?_, ?_, fun i p hp => ?_⟩
    · rw [h.mem_keys]
      by_cases hk : k = key <;> simp [hk, hcons, hkey]
    · simp [hinsert, hlength, Term.arity_ordinalElement]
    · rw [hinsert, List.getElem?_zipWith_eq_some] at hp
      obtain ⟨a, p', ha, hp', rfl⟩ := hp
      rw [argAt_update ha]
      exact ih a (List.mem_of_getElem? ha) p' _ (h.args i p' hp') (by simp [argAt, hkey])

/-- Changing what is found with the symbol of a term is enough to give the term to a key. -/
theorem Stores.alter {f : List Term × Positions → List Term × Positions} (h : p.Stores c)
    (hkey : c key = none)
    (hf : ∀ node c, NodeStores t.ordinalElement node c → c key = none →
      NodeStores t.ordinalElement (f node) (Function.update c key (some t))) :
    (p.alter t.ordinalElement f).Stores (Function.update c key (some t)) := by
  induction h with
  | nil hnone =>
    rw [Position.alter, stores_cons, withSymbol_update rfl, withoutSymbol_update hkey rfl]
    constructor
    · apply hf
      · exact nodeStores_empty fun k => by simp [withSymbol, hnone]
      · simp [withSymbol, hkey]
    · exact .nil fun k => by simp [withoutSymbol, hnone]
  | @cons s ks args rest c hnodup hkeys hlength hargs hrest _ ih =>
    have hnode := (stores_cons.mp (.cons hnodup hkeys hlength hargs hrest)).1
    rw [Position.alter]
    split
    next hs =>
      subst hs
      rw [stores_cons, withSymbol_update rfl, withoutSymbol_update hkey rfl]
      exact ⟨hf _ _ hnode (by simp [withSymbol, hkey]), hrest⟩
    next hs =>
      have hne : t.ordinalElement ≠ s := Ne.symm hs
      rw [stores_cons, withSymbol_update_of_ne hkey hne, withoutSymbol_update_of_ne hne]
      exact ⟨hnode, ih (by simp [withoutSymbol, hkey])⟩

/-- Inserting a key that a position does not store gives it its term, and changes nothing else. -/
theorem Stores.insert (t : Term) (h : p.Stores c) (hkey : c key = none) :
    (p.insert key t).Stores (Function.update c key (some t)) := by
  induction t using Term.argsInduction generalizing p c with
  | step t ih =>
    rw [insert_eq]
    exact h.alter hkey fun node c hnode hkey =>
      NodeStores.insertAt hnode hkey fun a ha p c hp hc => ih a ha hp hc

/-! ## Section 5: What the walks find -/

private theorem Stores.mem_keys (h : p.Stores c) : k ∈ p.keys ↔ ∃ t, c k = some t := by
  induction h with
  | nil hnone => simp [Position.keys, hnone]
  | @cons s ks args rest c hnodup hkeys hlength hargs hrest ihargs ihrest =>
    have hsplit := exists_iff_withSymbol (c := c) (k := k) s fun _ => True
    simp only [and_true] at hsplit
    rw [Position.keys, mem_unionKeys, mem_unionKeys, ihrest, hsplit, hkeys, Positions.mem_keys]
    apply or_congr_left
    constructor
    · rintro (⟨t, ht, -⟩ | ⟨p, hp, hk⟩)
      · exact ⟨t, ht⟩
      · obtain ⟨i, hi⟩ := List.getElem?_of_mem hp
        obtain ⟨a, ha⟩ := (ihargs i p hi).mp hk
        obtain ⟨t, ht, -⟩ := argAt_eq_some.mp ha
        exact ⟨t, ht⟩
    · rintro ⟨t, ht⟩
      cases hargs' : t.args with
      | nil => exact .inl ⟨t, ht, hargs'⟩
      | cons a as =>
        -- the key is at the first argument position, if not elsewhere
        have hpos : 0 < args.toList.length := by
          rw [hlength, ← (withSymbol_eq_some.mp ht).2, Term.arity_ordinalElement, hargs']
          exact Nat.succ_pos _
        have hfirst := List.getElem?_eq_getElem hpos
        refine .inr ⟨_, List.mem_of_getElem? hfirst, (ihargs 0 _ hfirst).mpr ⟨a, ?_⟩⟩
        exact argAt_eq_some.mpr ⟨t, ht, by simp [hargs']⟩

private theorem Stores.of_find?_eq_none {s : Element} (h : p.Stores c) (hfind : p.find? s = none)
    (hk : c k = some t) : t.ordinalElement ≠ s := by
  induction h with
  | nil hnone => simp [hnone] at hk
  | cons hnodup hkeys hlength hargs hrest _ ih =>
    rw [Position.find?] at hfind
    split at hfind
    next => cases hfind
    next hs =>
      intro ht
      exact ih hfind (withoutSymbol_eq_some.mpr ⟨hk, fun h => hs (h.symm.trans ht)⟩) ht

theorem Stores.of_find?_eq_some {s : Element} {node : List Term × Positions} (h : p.Stores c)
    (hfind : p.find? s = some node) : NodeStores s node (withSymbol s c) := by
  induction h with
  | nil hnone => simp [Position.find?] at hfind
  | @cons s' ks args rest c hnodup hkeys hlength hargs hrest _ ih =>
    rw [Position.find?] at hfind
    split at hfind
    next hs =>
      subst hs
      obtain rfl := Option.some.inj hfind
      exact (stores_cons.mp (.cons hnodup hkeys hlength hargs hrest)).1
    next hs =>
      have hwith : withSymbol s (withoutSymbol s' c) = withSymbol s c := by
        funext k
        apply Option.ext
        intro t
        have : t.ordinalElement = s → t.ordinalElement ≠ s' := fun h h' => hs (h'.symm.trans h)
        simp only [withSymbol_eq_some, withoutSymbol_eq_some]
        tauto
      rw [← hwith]
      exact ih hfind

/-- A walk that goes on below a symbol finds the keys whose arguments agree with those of the query,
    if it does at each argument position. -/
theorem NodeStores.mem_iff {R : Term → Term → Prop} {q : Term} {node : List Term × Positions}
    (h : NodeStores q.ordinalElement node c) (look : Term → Position → List Term)
    (hlook : ∀ (i : Nat) (p : Position), node.2.toList[i]? = some p → ∀ a ∈ q.args,
      (k ∈ look a p ↔ ∃ t, argAt i c k = some t ∧ R a t)) :
    (k ∈ if q.args = [] then node.1
      else (interAll (List.zipWith look q.args node.2.toList)).getD []) ↔
      ∃ t, c k = some t ∧ List.Forall₂ R q.args t.args := by
  have harity : ∀ t, c k = some t → t.args.length = q.args.length := by
    intro t ht
    rw [← Term.arity_ordinalElement, h.symbol k t ht, Term.arity_ordinalElement]
  have hlength : node.2.toList.length = q.args.length :=
    h.length.trans (Term.arity_ordinalElement q)
  have hat : ∀ (i : Nat) (hi : i < q.args.length),
      k ∈ look q.args[i] (node.2.toList[i]) ↔
        ∃ t, c k = some t ∧ ∃ a, t.args[i]? = some a ∧ R q.args[i] a := by
    intro i hi
    have hp := List.getElem?_eq_getElem (hlength.symm ▸ hi : i < node.2.toList.length)
    rw [hlook i _ hp _ (List.getElem_mem hi)]
    simp only [argAt_eq_some]
    constructor
    · rintro ⟨a, ⟨t, ht, ha⟩, hR⟩
      exact ⟨t, ht, a, ha, hR⟩
    · rintro ⟨t, ht, a, ha, hR⟩
      exact ⟨a, ⟨t, ht, ha⟩, hR⟩
  split
  next hnil => simp [h.mem_keys, hnil]
  next hcons =>
    have hpos := List.length_pos_iff.mpr hcons
    have hzip : List.zipWith look q.args node.2.toList ≠ [] := by
      rw [← List.length_pos_iff, List.length_zipWith]
      omega
    obtain ⟨ls, hls, hmem, -⟩ := interAll_eq_some hzip
    rw [hls, Option.getD_some, hmem, List.forall_mem_iff_forall_getElem]
    simp only [List.getElem_zipWith, List.length_zipWith, hlength, Nat.min_self]
    constructor
    · intro hall
      -- the first position tells the term, and the others agree on it
      obtain ⟨t, ht, -⟩ := (hat 0 hpos).mp (hall 0 hpos)
      refine ⟨t, ht, List.forall₂_iff_get.mpr ⟨(harity t ht).symm, fun i hi hi' => ?_⟩⟩
      obtain ⟨t', ht', a, ha, hR⟩ := (hat i hi).mp (hall i hi)
      obtain rfl : t = t' := Option.some.inj (ht.symm.trans ht')
      rw [List.getElem?_eq_getElem hi', Option.some.injEq] at ha
      rwa [← ha] at hR
    · rintro ⟨t, ht, hR⟩ i hi
      obtain ⟨hsame, hR⟩ := List.forall₂_iff_get.mp hR
      have hi' : i < t.args.length := by rwa [harity t ht]
      exact (hat i hi).mpr ⟨t, ht, _, List.getElem?_eq_getElem hi', hR i hi hi'⟩

theorem candidates_eq (wild : Bool) (q : Term) (p : Position) :
    p.candidates wild q =
      if wild && q.isVar then p.keys
      else (p.find? q.ordinalElement).elim [] fun node =>
        if q.args = [] then node.1
        else (interAll (List.zipWith (Position.candidates wild) q.args node.2.toList)).getD [] := by
  rcases q with x | c | ⟨f, _ | ⟨a, as⟩⟩
  · cases wild
    · simp only [Position.candidates, Term.isVar, Term.args]
      cases p.find? (Term.var x).ordinalElement <;> rfl
    · rfl
  · simp only [Position.candidates, Term.isVar, Term.args, Term.ordinalElement]
    cases p.find? (.constant c) <;> simp
  · simp only [Position.candidates, Term.isVar, Term.args, Term.ordinalElement]
    cases p.find? (.function f 0) <;> simp
  · simp only [Position.candidates, Term.isVar, Term.args, Term.ordinalElement]
    cases p.find? (.function f (as.length + 1)) <;> simp [Positions.candidates_eq]

/-- Where a walk for instances stops, and one for an exact key does not. -/
def StopsAtQuery (wild : Bool) (q _key : Term) : Prop :=
  (wild && q.isVar) = true

/-- Where a walk for generalisations stops. -/
def StopsAtKey (_q key : Term) : Prop :=
  key.isVar = true

theorem Stores.mem_candidates {wild : Bool} {q : Term} (h : p.Stores c) :
    k ∈ p.candidates wild q ↔ ∃ t, c k = some t ∧ Term.AgreesUntil (StopsAtQuery wild) q t := by
  induction q using Term.argsInduction generalizing p c with
  | step q ih =>
    rw [candidates_eq]
    split
    next hstop =>
      rw [h.mem_keys]
      exact exists_congr fun t => (and_iff_left (.stop hstop)).symm
    next hstop =>
      have hiff : ∀ t, Term.AgreesUntil (StopsAtQuery wild) q t ↔ _ :=
        fun t => Term.agreesUntil_iff hstop
      simp only [hiff]
      cases hfind : p.find? q.ordinalElement with
      | none =>
        have hno : ∀ t, c k = some t → q.ordinalElement ≠ t.ordinalElement :=
          fun t ht => (h.of_find?_eq_none hfind ht).symm
        simp only [Option.elim_none, List.not_mem_nil, false_iff, not_exists, not_and]
        exact fun t ht hs => absurd hs (hno t ht)
      | some node =>
        have hnode := h.of_find?_eq_some hfind
        rw [Option.elim_some, hnode.mem_iff _ fun i p hp a ha => ih a ha (hnode.args i p hp)]
        apply exists_congr
        intro t
        rw [withSymbol_eq_some, and_assoc, eq_comm (a := t.ordinalElement)]

theorem generals_variable (n : Nat) (ks : List Term) (args : Positions) (rest : Position)
    (q : Term) :
    (Position.cons (.variable n) ks args rest).generals q = unionKeys ks (rest.generals q) := by
  simp [Position.generals]

theorem generals_cons {s : Element} (hs : ∀ n, s ≠ .variable n) (ks : List Term) (args : Positions)
    (rest : Position) (q : Term) :
    (Position.cons s ks args rest).generals q =
      unionKeys
        (if s = q.ordinalElement then
          if q.args = [] then ks
          else (interAll (List.zipWith (fun q p => Position.generals p q) q.args args.toList)).getD []
        else [])
        (rest.generals q) := by
  rcases s with ⟨g, n⟩ | ⟨d⟩ | ⟨n⟩
  · rcases q with x | c | ⟨f, _ | ⟨a, as⟩⟩
    · simp [Position.generals, Term.args]
    · simp [Position.generals, Term.args]
    · simp [Position.generals, Term.args]
    · simp [Position.generals, Term.args, Term.ordinalElement, Positions.generals_eq]
  · rcases q with x | c | ⟨f, _ | ⟨a, as⟩⟩
    · simp [Position.generals, Term.args]
    · simp [Position.generals, Term.args]
    · simp [Position.generals, Term.args]
    · simp [Position.generals, Term.ordinalElement]
  · exact absurd rfl (hs n)

private theorem isVar_iff {t : Term} : t.isVar = true ↔ ∃ n, t.ordinalElement = .variable n := by
  cases t with
  | var x => cases x <;> simp [Term.isVar, Term.ordinalElement]
  | const c => simp [Term.isVar, Term.ordinalElement]
  | app f ts => simp [Term.isVar, Term.ordinalElement]

theorem Stores.mem_generals {q : Term} (h : p.Stores c) :
    k ∈ p.generals q ↔ ∃ t, c k = some t ∧ Term.AgreesUntil StopsAtKey q t := by
  induction h generalizing q with
  | nil hnone => simp [Position.generals, hnone]
  | @cons s ks args rest c hnodup hkeys hlength hargs hrest ihargs ihrest =>
    have hnode := (stores_cons.mp (.cons hnodup hkeys hlength hargs hrest)).1
    rw [exists_iff_withSymbol s, ← ihrest]
    by_cases hs : ∃ n, s = .variable n
    · -- a variable agrees with any query, and has no arguments
      obtain ⟨n, rfl⟩ := hs
      rw [generals_variable, mem_unionKeys, hkeys]
      apply or_congr_left
      apply exists_congr
      intro t
      apply and_congr_right
      intro ht
      have hsymbol := (withSymbol_eq_some.mp ht).2
      have harity := Term.arity_ordinalElement t
      rw [hsymbol] at harity
      exact iff_of_true (List.eq_nil_of_length_eq_zero harity.symm)
        (.stop (isVar_iff.mpr ⟨n, hsymbol⟩))
    · rw [generals_cons (not_exists.mp hs), mem_unionKeys]
      apply or_congr_left
      have hstop : ∀ t, withSymbol s c k = some t → ¬ StopsAtKey q t := by
        intro t ht hstop
        obtain ⟨n, hn⟩ := isVar_iff.mp hstop
        exact hs ⟨n, (withSymbol_eq_some.mp ht).2.symm.trans hn⟩
      split
      next hq =>
        subst hq
        refine (hnode.mem_iff (fun a p => Position.generals p a)
          fun i p hp a _ => ihargs i p hp).trans ?_
        apply exists_congr
        intro t
        apply and_congr_right
        intro ht
        rw [Term.agreesUntil_iff (hstop t ht), and_iff_right (withSymbol_eq_some.mp ht).2.symm]
      next hq =>
        refine iff_of_false List.not_mem_nil ?_
        rintro ⟨t, ht, hagrees⟩
        rw [Term.agreesUntil_iff (hstop t ht)] at hagrees
        exact hq ((withSymbol_eq_some.mp ht).2.symm.trans hagrees.1.symm)

/-! ## Section 6: No key is found twice -/

theorem NodeStores.nodup_found {q : Term} {node : List Term × Positions}
    (h : NodeStores q.ordinalElement node c) (look : Term → Position → List Term)
    (hlook : ∀ (i : Nat) (p : Position), node.2.toList[i]? = some p → ∀ a ∈ q.args,
      (look a p).Nodup) :
    (if q.args = [] then node.1
      else (interAll (List.zipWith look q.args node.2.toList)).getD []).Nodup := by
  split
  next => exact h.nodup
  next hcons =>
    cases hall : interAll (List.zipWith look q.args node.2.toList) with
    | none => exact List.nodup_nil
    | some ls =>
      have hzip : List.zipWith look q.args node.2.toList ≠ [] := by
        intro hnil
        rw [hnil] at hall
        cases hall
      obtain ⟨ls', hls, -, hnodup⟩ := interAll_eq_some hzip
      obtain rfl : ls = ls' := Option.some.inj (hall.symm.trans hls)
      apply hnodup
      intro ks hks
      obtain ⟨i, hi⟩ := List.getElem?_of_mem hks
      obtain ⟨a, p, ha, hp, rfl⟩ := List.getElem?_zipWith_eq_some.mp hi
      exact hlook i p hp a (List.mem_of_getElem? ha)

private theorem Stores.nodup_keys (h : p.Stores c) : p.keys.Nodup := by
  induction h with
  | nil => exact List.nodup_nil
  | cons hnodup hkeys hlength hargs hrest ihargs ihrest =>
    refine nodup_unionKeys (nodup_unionKeys hnodup (Positions.nodup_keys fun p hp => ?_)) ihrest
    obtain ⟨i, hi⟩ := List.getElem?_of_mem hp
    exact ihargs i p hi

theorem Stores.nodup_candidates {wild : Bool} {q : Term} (h : p.Stores c) :
    (p.candidates wild q).Nodup := by
  induction q using Term.argsInduction generalizing p c with
  | step q ih =>
    rw [candidates_eq]
    split
    next => exact h.nodup_keys
    next =>
      cases hfind : p.find? q.ordinalElement with
      | none => exact List.nodup_nil
      | some node =>
        have hnode := h.of_find?_eq_some hfind
        exact hnode.nodup_found _ fun i p hp a ha => ih a ha (hnode.args i p hp)

theorem Stores.nodup_generals {q : Term} (h : p.Stores c) : (p.generals q).Nodup := by
  induction h generalizing q with
  | nil => simp [Position.generals]
  | @cons s ks args rest c hnodup hkeys hlength hargs hrest ihargs ihrest =>
    have hnode := (stores_cons.mp (.cons hnodup hkeys hlength hargs hrest)).1
    by_cases hs : ∃ n, s = .variable n
    · obtain ⟨n, rfl⟩ := hs
      rw [generals_variable]
      exact nodup_unionKeys hnodup ihrest
    · rw [generals_cons (not_exists.mp hs)]
      apply nodup_unionKeys _ ihrest
      split
      next hq =>
        subst hq
        exact hnode.nodup_found (fun a p => Position.generals p a) fun i p hp a _ => ihargs i p hp
      next => exact List.nodup_nil

end Position

end Clausal
