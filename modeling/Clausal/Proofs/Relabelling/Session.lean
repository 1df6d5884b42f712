import Clausal.Proofs.Chaining.Soundness
import Clausal.Proofs.Relabelling.Chaining
import Clausal.Proofs.Relabelling.Growth
import Clausal.Proofs.Relabelling.Resolution

/-!
# Answers depend on what was told

A reasoner is told sentences one after the other.  In between it may be asked questions, and normal
forms and copies of clauses may be made, all of which use up names.  So two reasoners that have been
told the same sentences hold clauses with different names, and search with different names from
then on.  That is all the difference there is: their clauses are equal up to labels, and they answer
every question in the same way.

Both reasoners are compared with a third one that is told the same sentences and nothing else
happens to.  Its supply falls behind with every name that the other one uses up, and the relabelling
from the one to the other is changed each time for the names that are still to come.

## Main definitions

- `Ident.Known`, `Formula.Known`: what a supply has handed out
- `Session`: what may happen to a reasoner
- `Relabelling.Carries`: one reasoner is another one up to labels

## Main statements

- `Relabelling.Carries.tell`, `Relabelling.Carries.later`: the steps of a session
- `Session.answers_agree`: sessions with the same sentences
- `Session.answers_differ_about_skolem`: sentences that name what a session introduces
-/

namespace Clausal

open Relabelling

/-! ## Section 1: Known names -/

/-- A supply knows the names that users give, and the fresh names that it has handed out if it also
    knows what they stand for and where they come from. -/
def Ident.Known (s : Names) : Ident → Prop
  | .null | .num _ | .name _ | .equality => True
  | .standard serial of origin => serial < s.next ∧ of.Known s ∧ ∀ k ∈ origin, k < s.sources.size
  | .skolem serial of origin => serial < s.next ∧ of.Known s ∧ ∀ k ∈ origin, k < s.sources.size

instance Ident.decidableKnown (s : Names) : (x : Ident) → Decidable (x.Known s)
  | .null | .num _ | .name _ | .equality => isTrue trivial
  | .standard serial of origin | .skolem serial of origin =>
    have := decidableKnown s of
    inferInstanceAs (Decidable (serial < s.next ∧ of.Known s ∧ ∀ k ∈ origin, k < s.sources.size))

/-- A supply knows all names in a formula. -/
def Formula.Known (s : Names) (f : Formula) : Prop :=
  ∀ x ∈ f.names, x.Known s

instance (s : Names) (f : Formula) : Decidable (f.Known s) :=
  inferInstanceAs (Decidable (∀ x ∈ f.names, x.Known s))

/-- What two supplies know is known to one that comes before both. -/
theorem exists_common_supply (s₁ s₂ : Names) : ∃ s₀ : Names, s₀ ≤ s₁ ∧ s₀ ≤ s₂ ∧
    ∀ x : Ident, x.Known s₁ → x.Known s₂ → x.Known s₀ := by
  refine ⟨⟨min s₁.next s₂.next, .replicate (min s₁.sources.size s₂.sources.size) default⟩,
    ⟨Nat.min_le_left _ _, by simp⟩, ⟨Nat.min_le_right _ _, by simp⟩, ?_⟩
  intro x h₁ h₂
  induction x with
  | null | num | name | equality => trivial
  | standard n x o ih | skolem n x o ih =>
    obtain ⟨hn₁, hx₁, ho₁⟩ := h₁
    obtain ⟨hn₂, hx₂, ho₂⟩ := h₂
    refine ⟨Nat.lt_min.mpr ⟨hn₁, hn₂⟩, ih hx₁ hx₂, fun k hk => ?_⟩
    simpa using ⟨ho₁ k hk, ho₂ k hk⟩

private theorem Ident.Known.relabel_eq {π : Relabelling} {s : Names} {x : Ident} (h : x.Known s)
    (hπ : AgreesBelow s π .refl) : x.relabel π = x := by
  induction x with
  | null | num | name | equality => rfl
  | standard n x o ih | skolem n x o ih =>
    obtain ⟨hn, hx, ho⟩ := h
    have horigin : o.map π.place = o := by
      cases o with
      | none => rfl
      | some k => exact congrArg some (hπ.places k (ho k rfl))
    rw [relabel, hπ.serials n hn, ih hx, horigin]
    rfl

theorem Term.relabel_eq_self {π : Relabelling} {t : Term} (h : ∀ x ∈ t.names, x.relabel π = x) :
    t.relabel π = t := by
  induction t using Term.induction with
  | var x => rw [relabel_var, h x (by simp [names])]
  | const c => rw [relabel_const, h c (by simp [names])]
  | app f ts ih =>
    rw [names, List.forall_mem_cons] at h
    rw [relabel_app, h.1]
    congr 1
    refine (List.map_congr_left fun t ht => ?_).trans ts.map_id
    exact ih t ht fun x hx => h.2 x (mem_namesList.mpr ⟨t, ht, hx⟩)

theorem Atom.relabel_eq_self {π : Relabelling} {a : Atom} (h : ∀ x ∈ a.names, x.relabel π = x) :
    a.relabel π = a := by
  rw [names, List.forall_mem_cons] at h
  obtain ⟨hsymbol, hargs⟩ := h
  have hterms : ∀ t ∈ a.args, t.relabel π = t := fun t ht =>
    Term.relabel_eq_self fun x hx => hargs x (Term.mem_namesList.mpr ⟨t, ht, hx⟩)
  cases a with
  | pred p ts =>
    have hts : ts.map (Term.relabel π) = ts := (List.map_congr_left hterms).trans ts.map_id
    exact congrArg₂ Atom.pred hsymbol hts
  | eq l r => exact congrArg₂ Atom.eq (hterms l (by simp [args])) (hterms r (by simp [args]))

/-- A formula keeps its labels if those of all known names are kept. -/
theorem Formula.Known.relabel_eq {π : Relabelling} {s : Names} {f : Formula} (h : f.Known s)
    (hπ : AgreesBelow s π .refl) : f.relabel π = f := by
  induction f with
  | atom a => exact congrArg Formula.atom (Atom.relabel_eq_self fun x hx => (h x hx).relabel_eq hπ)
  | not f ih => exact congrArg Formula.not (ih h)
  | and f g ihf ihg | or f g ihf ihg | imp f g ihf ihg | iff f g ihf ihg =>
    obtain ⟨hf, hg⟩ := List.forall_mem_append.mp h
    rw [relabel, ihf hf, ihg hg]
  | all x f ih | ex x f ih =>
    obtain ⟨hx, hf⟩ := List.forall_mem_cons.mp h
    rw [relabel, hx.relabel_eq hπ, ih hf]

/-! ## Section 2: Reasoners -/

namespace Reasoner

/-- A reasoner with other labels. -/
def relabel (π : Relabelling) : Reasoner → Reasoner
  | .resolution b => .resolution { b with clauses := b.clauses.map (Clause.relabel π) }
  | .forward b => .forward ⟨b.store.relabel π⟩
  | .backward b => .backward ⟨b.store.relabel π⟩
  | .idle => .idle

/-- The strategy, if there is one, does not look at labels. -/
def Blind : Reasoner → Prop
  | .resolution b => b.strategy.Blind
  | _ => True

private theorem clauses_relabel (π : Relabelling) (r : Reasoner) :
    (r.relabel π).clauses = r.clauses.map (List.map (Clause.relabel π)) := by
  cases r with
  | resolution b => rfl
  | forward b | backward b =>
    simp only [clauses, relabel, ClauseStore.toList_relabel, Except.map, List.map_map]
    rfl
  | idle => rfl

private theorem fst_ask {r : Reasoner} {s s' : Names} {m : Node} {q : Question}
    (h : r.query s m = .ok (q, s')) (n : Nat) :
    (r.ask n s m).1 = (q.execute n r s').1.mapError .query := by
  unfold ask
  rw [h]
  dsimp only
  rcases q.execute n r s' with ⟨_ | _, _, _⟩ <;> rfl

/-- Reasoners that differ in labels answer in the same way. -/
theorem ask_relabel {π : Relabelling} {r : Reasoner} {s s' : Names} {f : Formula}
    (hblind : r.Blind) (h : π.Aligned s s') (hf : f.relabel π = f) (n : Nat) :
    ((r.relabel π).ask n s' (.formula f)).1 = (r.ask n s (.formula f)).1 := by
  cases r with
  | resolution b =>
    have hstart := Refutation.relates_start hblind h b.clauses f
    rw [hf] at hstart
    have hblind' : (Refutation.start b.strategy b.clauses s f).1.strategy.Blind := by
      rwa [Refutation.start, Refutation.strategy_settle]
    have hexecute := Refutation.execute_relabel hblind' hstart.names n
    rw [← hstart.value] at hexecute
    rw [fst_ask (r := .resolution b) rfl, fst_ask (r := relabel π (.resolution b)) rfl]
    exact congrArg (Except.mapError InferenceError.query) hexecute
  | forward b =>
    cases f with
    | atom a =>
      have hexecute := ForwardQuery.execute_relabel h n (.start b.store a)
      rw [← ForwardQuery.start_relabel, Formula.atom.inj hf] at hexecute
      rw [fst_ask (r := .forward b) rfl, fst_ask (r := relabel π (.forward b)) rfl]
      exact congrArg (Except.mapError InferenceError.query) hexecute
    | not | and | or | imp | iff | all | ex => rfl
  | backward b =>
    cases f with
    | atom a =>
      have hexecute := BackwardQuery.execute_relabel h n b.store a
      rw [Formula.atom.inj hf] at hexecute
      rw [fst_ask (r := .backward b) rfl, fst_ask (r := relabel π (.backward b)) rfl]
      exact congrArg (Except.mapError InferenceError.query) hexecute
    | not | and | or | imp | iff | all | ex => rfl
  | idle => rfl

/-- Add clauses, if they are of the right kind. -/
def accept (cs : List Clause) : Reasoner → Except NodeError Reasoner
  | .resolution b => .ok (.resolution { b with clauses := dedup (b.clauses ++ cs) })
  | .forward b =>
    match definiteClauses cs with
    | .error e => .error (.notDefinite e)
    | .ok ds => .ok (.forward ⟨b.store.addAll ds⟩)
  | .backward b =>
    match definiteClauses cs with
    | .error e => .error (.notDefinite e)
    | .ok ds => .ok (.backward ⟨b.store.addAll ds⟩)
  | .idle => .error .unsupported

private theorem tell_forward (b : RuleBase) (s : Names) (n : Node) :
    (KnowledgeBase.tell n : Telling Reasoner Unit) (.forward b, s) =
      ((KnowledgeBase.tell n : Telling RuleBase Unit) (b, s)).map id (Prod.map .forward id) :=
  rfl

private theorem tell_backward (b : RuleBase) (s : Names) (n : Node) :
    (KnowledgeBase.tell n : Telling Reasoner Unit) (.backward b, s) =
      ((KnowledgeBase.tell n : Telling RuleBase Unit) (b, s)).map id (Prod.map .backward id) :=
  rfl

/-- Telling a sentence adds its clauses.  If they are refused, names may have been used up. -/
theorem tell_formula (r : Reasoner) (s : Names) (f : Formula) : ∃ s', s ≤ s' ∧
    (KnowledgeBase.tell (.formula f) : Telling Reasoner Unit) (r, s) =
      match r.accept (f.toCnf s).1.clauses with
      | .error e => (.error e, r, s')
      | .ok r' => (.ok (), r', (f.toCnf s).2) := by
  cases r with
  | resolution b => exact ⟨s, le_refl s, rfl⟩
  | forward b =>
    refine ⟨(f.toCnf s).2, f.le_toCnf s, ?_⟩
    rw [tell_forward, b.tell_formula, accept]
    cases definiteClauses (f.toCnf s).1.clauses <;> rfl
  | backward b =>
    refine ⟨(f.toCnf s).2, f.le_toCnf s, ?_⟩
    rw [tell_backward, b.tell_formula, accept]
    cases definiteClauses (f.toCnf s).1.clauses <;> rfl
  | idle => exact ⟨s, le_refl s, rfl⟩

private theorem accept_of_tell {r r' : Reasoner} {s s' : Names} {f : Formula}
    (h : (KnowledgeBase.tell (.formula f) : Telling Reasoner Unit) (r, s) = (.ok (), r', s')) :
    r.accept (f.toCnf s).1.clauses = .ok r' ∧ (f.toCnf s).2 = s' := by
  obtain ⟨_, -, htell⟩ := r.tell_formula s f
  rw [htell] at h
  cases haccept : r.accept (f.toCnf s).1.clauses with
  | error e =>
    rw [haccept] at h
    nomatch (Prod.mk.inj h).1
  | ok q =>
    rw [haccept] at h
    obtain ⟨rfl, rfl⟩ := Prod.mk.inj (Prod.mk.inj h).2
    exact ⟨rfl, rfl⟩

private theorem snd_tell_of_accept {r r' : Reasoner} {s : Names} {f : Formula}
    (h : r.accept (f.toCnf s).1.clauses = .ok r') :
    ((KnowledgeBase.tell (.formula f) : Telling Reasoner Unit) (r, s)).2 =
      (r', (f.toCnf s).2) := by
  obtain ⟨_, -, htell⟩ := r.tell_formula s f
  rw [htell, h]

/-- A node that is refused changes nothing but the names that are left. -/
theorem of_tell_error {r r' : Reasoner} {s s' : Names} {n : Node} {e : NodeError}
    (h : (KnowledgeBase.tell n : Telling Reasoner Unit) (r, s) = (.error e, r', s')) :
    r' = r ∧ s ≤ s' := by
  cases n with
  | formula f =>
    obtain ⟨_, hle, htell⟩ := r.tell_formula s f
    rw [htell] at h
    cases haccept : r.accept (f.toCnf s).1.clauses with
    | ok q =>
      rw [haccept] at h
      nomatch (Prod.mk.inj h).1
    | error e =>
      rw [haccept] at h
      obtain ⟨rfl, rfl⟩ := Prod.mk.inj (Prod.mk.inj h).2
      exact ⟨rfl, hle⟩
  | term | literal | clause | cnf | scalar =>
    have heq : (r, s) = (r', s') := by
      cases r <;> exact (Prod.mk.inj h).2
    obtain ⟨rfl, rfl⟩ := Prod.mk.inj heq
    exact ⟨rfl, le_refl s⟩

/-- What is accepted with some labels is accepted with others. -/
theorem exists_of_accept_relabel {π : Relabelling} {r r' : Reasoner} {cs : List Clause}
    (h : (r.relabel π).accept (cs.map (Clause.relabel π)) = .ok r') :
    ∃ q, r.accept cs = .ok q ∧ q.relabel π = r' := by
  cases r with
  | resolution b =>
    refine ⟨_, rfl, Eq.trans ?_ (Except.ok.inj h)⟩
    rw [relabel, ← (Clause.keepsEq_relabel π).dedup_map, List.map_append]
  | forward b | backward b =>
    rw [relabel, accept, definiteClauses_relabel] at h
    rw [accept]
    cases hds : definiteClauses cs with
    | error e =>
      rw [hds] at h
      cases h
    | ok ds =>
      rw [hds] at h
      refine ⟨_, rfl, Eq.trans ?_ (Except.ok.inj h)⟩
      rw [relabel, ← ClauseStore.addAll_relabel]
  | idle => cases h

private theorem Blind.accept {r r' : Reasoner} {cs : List Clause} (hblind : r.Blind)
    (h : r.accept cs = .ok r') : r'.Blind := by
  cases r with
  | resolution b =>
    obtain rfl := Except.ok.inj h
    exact hblind
  | forward b | backward b =>
    rw [Reasoner.accept] at h
    cases hds : definiteClauses cs with
    | error e => simp [hds] at h
    | ok ds =>
      rw [hds] at h
      obtain rfl := Except.ok.inj h
      trivial
  | idle => cases h

end Reasoner

/-! ## Section 3: Sessions -/

/-- What has happened to a reasoner `r₀` since the supply was `s₀`: the sentences that it has been
    told, what it has become, and the names that are left.  Nodes may be refused, questions may be
    asked, with any bound on the search, and normal forms and copies may be made of anything. -/
inductive Session (r₀ : Reasoner) (s₀ : Names) : List Formula → Reasoner → Names → Prop
  | start : Session r₀ s₀ [] r₀ s₀
  | tell {fs : List Formula} {r r' : Reasoner} {s s' : Names} {f : Formula} :
      Session r₀ s₀ fs r s →
      (KnowledgeBase.tell (.formula f) : Telling Reasoner Unit) (r, s) = (.ok (), r', s') →
      Session r₀ s₀ (fs ++ [f]) r' s'
  | refuse {fs : List Formula} {r r' : Reasoner} {s s' : Names} {n : Node} {e : NodeError} :
      Session r₀ s₀ fs r s →
      (KnowledgeBase.tell n : Telling Reasoner Unit) (r, s) = (.error e, r', s') →
      Session r₀ s₀ fs r' s'
  | ask {fs : List Formula} {r : Reasoner} {s : Names} (n : Nat) (query : Node) :
      Session r₀ s₀ fs r s → Session r₀ s₀ fs r (r.ask n s query).2
  | toCnf {fs : List Formula} {r : Reasoner} {s : Names} (f : Formula) :
      Session r₀ s₀ fs r s → Session r₀ s₀ fs r (f.toCnf s).2
  | restandardise {fs : List Formula} {r : Reasoner} {s : Names} (c : Clause) :
      Session r₀ s₀ fs r s → Session r₀ s₀ fs r (c.renameApart s).2

/-- A reasoner that is told sentences, and nothing else happens to. -/
def Reasoner.tellOnly (x : Reasoner × Names) (fs : List Formula) : Reasoner × Names :=
  fs.foldl (fun x f => ((KnowledgeBase.tell (.formula f) : Telling Reasoner Unit) x).2) x

namespace Relabelling

/-- The reasoner `y` is `x` up to labels.  What `s₀` knows keeps its labels, the supplies are in
    step, and it does not matter which labels the names get that `x` has not handed out yet. -/
structure Carries (π : Relabelling) (s₀ : Names) (x y : Reasoner × Names) : Prop where
  fixed : AgreesBelow s₀ π .refl
  known : s₀ ≤ x.2
  blind : x.1.Blind
  names : π.Aligned x.2 y.2
  image : ∀ π', AgreesBelow x.2 π' π → x.1.relabel π' = y.1

variable {π : Relabelling} {s₀ : Names} {x : Reasoner × Names}

/-- Both reasoners are told a sentence. -/
theorem Carries.tell {r r' : Reasoner} {s s' : Names} {f : Formula} (h : π.Carries s₀ x (r, s))
    (hf : f.Known s₀)
    (htell : (KnowledgeBase.tell (.formula f) : Telling Reasoner Unit) (r, s) = (.ok (), r', s')) :
    π.Carries s₀ ((KnowledgeBase.tell (.formula f) : Telling Reasoner Unit) x).2 (r', s') := by
  obtain ⟨q, c⟩ := x
  obtain ⟨haccept, rfl⟩ := Reasoner.accept_of_tell htell
  have hle : c ≤ (f.toCnf c).2 := f.le_toCnf c
  have hfixed : ∀ {ρ}, AgreesBelow c ρ π → f.relabel ρ = f :=
    fun hρ => hf.relabel_eq ((hρ.mono h.known).trans h.fixed)
  -- the clauses are taken to the new ones by every relabelling that agrees on their names
  have hclauses : ∀ ρ, AgreesBelow (f.toCnf c).2 ρ π →
      (f.toCnf s).1 = (f.toCnf c).1.relabel ρ := by
    intro ρ hρ
    rw [Formula.snd_toCnf] at hρ
    have hstep : ρ.InStep (f.serials c) c.next s.next := by
      intro i hi
      rw [hρ.serials (c.next + i) (Nat.add_lt_add_left hi c.next)]
      exact h.names.serials.beyond i
    have hplace : ρ.place c.sources.size = s.sources.size := by
      rw [hρ.places c.sources.size (by simp [Names.record, Names.skip])]
      exact h.names.places.beyond 0
    rw [← Formula.snd_toCnf] at hρ
    have hcnf := Formula.toCnf_relabel hstep hplace
    rwa [hfixed (hρ.mono hle)] at hcnf
  have haccepts : ∀ ρ, AgreesBelow (f.toCnf c).2 ρ π →
      ∃ q', q.accept (f.toCnf c).1.clauses = .ok q' ∧ q'.relabel ρ = r' := by
    intro ρ hρ
    apply Reasoner.exists_of_accept_relabel
    rw [h.image ρ (hρ.mono hle), ← haccept, hclauses ρ hρ]
    rfl
  obtain ⟨q', hq', -⟩ := haccepts π .rfl
  have hnames := f.relates_toCnf h.names
  rw [hfixed .rfl] at hnames
  rw [Reasoner.snd_tell_of_accept hq']
  refine ⟨h.fixed, h.known.trans hle, h.blind.accept hq', hnames.names, fun ρ hρ => ?_⟩
  obtain ⟨q'', hq'', hrelabel⟩ := haccepts ρ hρ
  rw [hq'] at hq''
  rwa [Except.ok.inj hq'']

/-- Names are used up, and nothing else happens. -/
theorem Carries.later {r : Reasoner} {s s' : Names} (h : π.Carries s₀ x (r, s)) (hle : s ≤ s') :
    ∃ π' : Relabelling, π'.Carries s₀ x (r, s') := by
  obtain ⟨π', hagrees, haligned⟩ : ∃ π', AgreesBelow x.2 π' π ∧ π'.Aligned x.2 s' :=
    exists_aligned (fun i hi => Nat.lt_of_lt_of_le (h.names.serials.below i hi) hle.1)
      fun i hi => Nat.lt_of_lt_of_le (h.names.places.below i hi) hle.2
  refine ⟨π', ?_, h.known, h.blind, haligned, fun ρ hρ => h.image ρ (hρ.trans hagrees)⟩
  exact (hagrees.mono h.known).trans h.fixed

theorem Carries.ask_eq {r : Reasoner} {s : Names} {query : Formula} (h : π.Carries s₀ x (r, s))
    (hquery : query.Known s₀) (n : Nat) :
    (r.ask n s (.formula query)).1 = (x.1.ask n x.2 (.formula query)).1 := by
  obtain rfl : x.1.relabel π = r := h.image π .rfl
  exact Reasoner.ask_relabel h.blind h.names (hquery.relabel_eq h.fixed) n

private theorem Carries.clauses_eq {ρ : Relabelling} {r : Reasoner} {s : Names}
    (h : π.Carries s₀ x (r, s)) (hρ : AgreesBelow x.2 ρ π) :
    r.clauses = x.1.clauses.map (List.map (Clause.relabel ρ)) := by
  obtain rfl : x.1.relabel ρ = r := h.image ρ hρ
  exact x.1.clauses_relabel ρ

end Relabelling

/-! ## Section 4: Sessions with the same sentences -/

namespace Session

/-- A session is followed by a reasoner that nothing happens to but being told the sentences. -/
theorem exists_carries {r₀ r : Reasoner} {s₀ s s₁ : Names} {fs : List Formula}
    (h : Session r₀ s₁ fs r s) (hr₀ : ∀ π, r₀.relabel π = r₀) (hblind : r₀.Blind) (hle : s₀ ≤ s₁)
    (hfs : ∀ f ∈ fs, f.Known s₀) :
    ∃ π : Relabelling, π.Carries s₀ (Reasoner.tellOnly (r₀, s₀) fs) (r, s) := by
  induction h with
  | start =>
    obtain ⟨π, hagrees, haligned⟩ : ∃ π, AgreesBelow s₀ π .refl ∧ π.Aligned s₀ s₁ :=
      exists_aligned (fun i hi => Nat.lt_of_lt_of_le hi hle.1)
        fun i hi => Nat.lt_of_lt_of_le hi hle.2
    exact ⟨π, hagrees, le_refl s₀, hblind, haligned, fun π' _ => hr₀ π'⟩
  | @tell fs r r' s s' f _ htell ih =>
    obtain ⟨hfs, hf⟩ := List.forall_mem_append.mp hfs
    obtain ⟨π, hcarries⟩ := ih hfs
    refine ⟨π, ?_⟩
    rw [Reasoner.tellOnly, List.foldl_append]
    exact hcarries.tell (hf f List.mem_cons_self) htell
  | refuse _ htell ih =>
    obtain ⟨rfl, hlater⟩ := Reasoner.of_tell_error htell
    obtain ⟨π, hcarries⟩ := ih hfs
    exact hcarries.later hlater
  | ask n query _ ih =>
    obtain ⟨π, hcarries⟩ := ih hfs
    exact hcarries.later (Reasoner.le_ask n _ _ query)
  | toCnf f _ ih =>
    obtain ⟨π, hcarries⟩ := ih hfs
    exact hcarries.later (f.le_toCnf _)
  | restandardise c _ ih =>
    obtain ⟨π, hcarries⟩ := ih hfs
    exact hcarries.later (c.le_renameApart _)

/-- Reasoners that have been told the same sentences hold the same clauses up to labels, and answer
    every question in the same way, whatever else has happened to them. -/
theorem answers_agree {choice : StrategyChoice} {method : Method} {r₁ r₂ : Reasoner}
    {s₁ s₂ t₁ t₂ : Names} {fs : List Formula} {query : Formula}
    (h₁ : Session (.create (some choice.strategy) method) s₁ fs r₁ t₁)
    (h₂ : Session (.create (some choice.strategy) method) s₂ fs r₂ t₂)
    (hknown : ∀ f ∈ query :: fs, f.Known s₁ ∧ f.Known s₂) :
    (∃ π : Relabelling, (∀ f ∈ fs, f.relabel π = f) ∧
        r₂.clauses = r₁.clauses.map (List.map (Clause.relabel π))) ∧
      ∀ n, (r₂.ask n t₂ (.formula query)).1 = (r₁.ask n t₁ (.formula query)).1 := by
  obtain ⟨s₀, hle₁, hle₂, hcommon⟩ := exists_common_supply s₁ s₂
  obtain ⟨hquery, hfs⟩ : query.Known s₀ ∧ ∀ f ∈ fs, f.Known s₀ := List.forall_mem_cons.mp
    fun f hf x hx => hcommon x ((hknown f hf).1 x hx) ((hknown f hf).2 x hx)
  have hempty : ∀ π, (Reasoner.create (some choice.strategy) method).relabel π =
      .create (some choice.strategy) method := by
    cases method <;> exact fun _ => rfl
  have hblind : (Reasoner.create (some choice.strategy) method).Blind := by
    cases method with
    | resolution => exact choice.blind_strategy
    | forwardChaining | backwardChaining => trivial
  obtain ⟨π₁, hcarries₁⟩ := h₁.exists_carries hempty hblind hle₁ hfs
  obtain ⟨π₂, hcarries₂⟩ := h₂.exists_carries hempty hblind hle₂ hfs
  -- from the first session back to the sentences alone, and on to the second session
  obtain ⟨π, hbridge⟩ := exists_bridge π₁ hcarries₂.names
  refine ⟨⟨π, fun f hf => (hfs f hf).relabel_eq ?_, ?_⟩, fun n => ?_⟩
  · exact (hbridge.mono hcarries₂.known).of_trans hcarries₁.fixed hcarries₂.fixed
  · rw [hcarries₁.clauses_eq .rfl, hcarries₂.clauses_eq hbridge]
    cases (Reasoner.tellOnly (.create (some choice.strategy) method, s₀) fs).1.clauses with
    | error e => rfl
    | ok cs => simp [Except.map, Clause.relabel_trans]
  · rw [hcarries₁.ask_eq hquery, hcarries₂.ask_eq hquery]

/-- Every quaker is a pacifist. -/
def quakersArePacifists : Formula :=
  .all (.name "X") (.imp (.atom (.pred (.name "quaker") [.var (.name "X")]))
    (.atom (.pred (.name "pacifist") [.var (.name "X")])))

/-- There is a quaker. -/
def someQuaker : Formula :=
  .ex (.name "X") (.atom (.pred (.name "quaker") [.var (.name "X")]))

/-- Somebody is a pacifist. -/
def somePacifist : Formula :=
  .atom (.pred (.name "pacifist") [.var (.name "Y")])

/-- One reasoner is told two sentences.  The other one is asked too early and has a sentence refused
    in between, and other names are used up for a normal form and a copy.  Both answer yes. -/
theorem answers_agree_pacifist : ∃ r₁ t₁ r₂ t₂,
    Session (.create (some (StrategyChoice.strategy {})) .forwardChaining) {}
      [quakersArePacifists, someQuaker] r₁ t₁ ∧
    Session (.create (some (StrategyChoice.strategy {})) .forwardChaining) {}
      [quakersArePacifists, someQuaker] r₂ t₂ ∧
    (∃ π : Relabelling, (∀ f ∈ [quakersArePacifists, someQuaker], f.relabel π = f) ∧
      r₂.clauses = r₁.clauses.map (List.map (Clause.relabel π))) ∧
    (∀ n, (r₂.ask n t₂ (.formula somePacifist)).1 = (r₁.ask n t₁ (.formula somePacifist)).1) ∧
    (r₁.ask 2 t₁ (.formula somePacifist)).1 = .ok true := by
  have h₁ : Session (.create (some (StrategyChoice.strategy {})) .forwardChaining) {}
      [quakersArePacifists, someQuaker] _ _ := .tell (.tell .start rfl) rfl
  have h₂ : Session (.create (some (StrategyChoice.strategy {})) .forwardChaining) {}
      [quakersArePacifists, someQuaker] _ _ :=
    .restandardise (.ofList [⟨true, .pred (.name "pacifist") [.var (.name "Y")]⟩])
      (.tell (.refuse (n := .formula (.not someQuaker))
        (.ask 5 (.formula somePacifist) (.tell (.toCnf someQuaker .start) rfl)) rfl) rfl)
  have hknown : ∀ f ∈ [somePacifist, quakersArePacifists, someQuaker],
      f.Known {} ∧ f.Known {} := by decide
  obtain ⟨hclauses, hanswers⟩ := answers_agree h₁ h₂ hknown
  exact ⟨_, _, _, _, h₁, h₂, hclauses, hanswers, rfl⟩

/-- If the thing of the new name has the property, then something else is the case. -/
def namedImplies : Formula :=
  .imp namedHas (.atom (.pred (.num 2) []))

/-- The sentences must not use names that the telling introduces: two reasoners are told that
    something has a property, and then a rule about the name that this gets if it is the first one.
    For the second reasoner other names have been used up before, so only the first one can apply the
    rule. -/
theorem answers_differ_about_skolem : ∃ r₁ t₁ r₂ t₂,
    Session (.create (some (StrategyChoice.strategy {})) .forwardChaining) {}
      [somethingHas, namedImplies] r₁ t₁ ∧
    Session (.create (some (StrategyChoice.strategy {})) .forwardChaining) {}
      [somethingHas, namedImplies] r₂ t₂ ∧
    (r₁.ask 3 t₁ (.formula (.atom (.pred (.num 2) [])))).1 = .ok true ∧
    (r₂.ask 3 t₂ (.formula (.atom (.pred (.num 2) [])))).1 = .ok false := by
  have h₁ : Session (.create (some (StrategyChoice.strategy {})) .forwardChaining) {}
      [somethingHas, namedImplies] _ _ := .tell (.tell .start rfl) rfl
  have h₂ : Session (.create (some (StrategyChoice.strategy {})) .forwardChaining) {}
      [somethingHas, namedImplies] _ _ :=
    .tell (.tell (.toCnf somethingHas .start) rfl) rfl
  exact ⟨_, _, _, _, h₁, h₂, rfl, rfl⟩

end Session

end Clausal
