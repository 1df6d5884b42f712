import Clausal.Proofs.MostGeneral

/-!
# The recursion of unification

Unification and application follow the bindings of variables to terms that may be larger than those
they started from, and the definitions that compute them carry a number that bounds how deep they
go.  Here both are described without that number.  A derivation of `Substitution.Resolves` or of
`UnifyCall.Returns` is a finite tree of calls, one rule for each way in which a call can go on, and
a call without a derivation does not end.  Derivations of `UnifyCall.Returns` also keep track of the
bindings that calls start from and end with.  Starting from bindings without cycles, whatever has a
derivation has the answer that is computed.

## Main definitions

- `Substitution.Resolves`: the recursion of application
- `UnifyCall.Returns`: the recursion of unification, with the bindings met on the way

## Main statements

- `Substitution.Acyclic.resolves_iff`: application ends, with the values of the variables
- `unifyTerm_mono`: a depth that suffices may be exceeded
- `UnifyCall.Returns.answers`: success is found to some depth, and failure has no solution
- `UnifyCall.Returns.eq_unifyList`, `UnifyCall.Returns.eq_unify`
-/

namespace Clausal

/-! ## Section 1: Application -/

/-- A list is the image of another one exactly if it is so in pairs. -/
theorem eq_map_iff_zip {g : Term → Term} {ts us : List Term} (hlen : ts.length = us.length) :
    us = ts.map g ↔ ∀ e ∈ ts.zip us, e.2 = g e.1 := by
  induction ts generalizing us with
  | nil =>
    cases us with
    | nil => simp
    | cons u us => simp at hlen
  | cons t ts ih =>
    cases us with
    | nil => simp at hlen
    | cons u us => simp [ih (Nat.succ.inj hlen)]

namespace Substitution

/-- Applying a substitution to a term, one binding after the other, ends with the second term.  A
    variable bound to itself is left alone. -/
inductive Resolves (σ : Substitution) : Term → Term → Prop
  | unbound {x : Ident} (hx : σ.find? x = none) : Resolves σ (.var x) (.var x)
  | self {x : Ident} (hx : σ.find? x = some (.var x)) : Resolves σ (.var x) (.var x)
  | bound {x : Ident} {t u : Term} (hx : σ.find? x = some t) (hne : t ≠ .var x)
      (next : Resolves σ t u) : Resolves σ (.var x) u
  | const (c : Ident) : Resolves σ (.const c) (.const c)
  | app {f : Ident} {ts us : List Term} (hlen : ts.length = us.length)
      (next : ∀ e ∈ ts.zip us, Resolves σ e.1 e.2) : Resolves σ (.app f ts) (.app f us)

variable {σ : Substitution} {x : Ident} {t u : Term}

theorem Resolves.of_vars (h : ∀ x ∈ t.vars, σ.Resolves (.var x) (σ.value x)) :
    σ.Resolves t (σ.apply t) := by
  induction t using Term.induction with
  | var x => exact h x (by simp [Term.vars])
  | const c => exact .const c
  | app f ts ih =>
    rw [apply, Term.subst_app]
    have hlen : ts.length = (ts.map (Term.subst σ.value)).length := (List.length_map _).symm
    refine .app hlen fun e he => ?_
    have hmem := (List.of_mem_zip he).1
    rw [(eq_map_iff_zip hlen).mp rfl e he]
    exact ih e.1 hmem fun x hx => h x (by simpa using ⟨e.1, hmem, hx⟩)

namespace Acyclic

theorem ne_var_of_find? (hσ : σ.Acyclic) (hx : σ.find? x = some t) : t ≠ .var x := by
  rintro rfl
  exact hσ x (.single ⟨_, hx, by simp [Term.vars]⟩)

private theorem resolves_var (hσ : σ.Acyclic) (x : Ident) : σ.Resolves (.var x) (σ.value x) := by
  induction x using hσ.induction with
  | _ x ih =>
    cases hx : σ.find? x with
    | none =>
      rw [value_of_unbound hx]
      exact .unbound hx
    | some u =>
      rw [hσ.value_of_bound hx]
      exact .bound hx (hσ.ne_var_of_find? hx) (.of_vars fun y hy => ih y ⟨u, hx, hy⟩)

/-- Without cycles, applying a substitution ends, and only with the value of the term. -/
theorem resolves_iff (hσ : σ.Acyclic) : σ.Resolves t u ↔ u = σ.apply t := by
  constructor
  · intro h
    induction h with
    | unbound hx => rw [apply_var, value_of_unbound hx]
    | self hx => exact absurd rfl (hσ.ne_var_of_find? hx)
    | bound hx _ _ ih => rw [ih, apply_var, hσ.value_of_bound hx]
    | const c => rfl
    | app hlen _ ih =>
      rw [apply, Term.subst_app, Term.app.injEq]
      exact ⟨rfl, (eq_map_iff_zip hlen).mpr ih⟩
  · rintro rfl
    exact .of_vars fun x _ => hσ.resolves_var x

end Acyclic

end Substitution

/-! ## Section 2: The recursion -/

/-- Two terms that start with different symbols, neither being a variable. -/
def Term.Clash : Term → Term → Prop
  | .const c, .const d => c ≠ d
  | .const _, .app _ _ | .app _ _, .const _ => True
  | .app f as, .app g bs => ¬ (f = g ∧ as.length = bs.length)
  | _, _ => False

/-- The variable `x` is unbound, and `t` is another term that is no bound variable. -/
structure Substitution.Open (σ : Substitution) (x : Ident) (t : Term) : Prop where
  ne : t ≠ .var x
  unbound : σ.find? x = none
  settled : ∀ y, t = .var y → σ.find? y = none

/-- What a call of unification is about: two terms, or two lists of terms in pairs. -/
inductive UnifyCall where
  | terms (s t : Term)
  | lists (as bs : List Term)

/-- The recursion of unification: a call that starts from the bindings `σ` ends with an answer, and
    all bindings that calls on the way start from or end with satisfy `P`. -/
inductive UnifyCall.Returns (P : Substitution → Prop) :
    Substitution → UnifyCall → Option Substitution → Prop
  | same {σ : Substitution} {x : Ident} (hP : P σ) : Returns P σ (.terms (.var x) (.var x)) (some σ)
  | first {σ : Substitution} {x : Ident} {t u : Term} {r : Option Substitution} (hP : P σ)
      (hne : t ≠ .var x) (hx : σ.find? x = some u) (next : Returns P σ (.terms u t) r) :
      Returns P σ (.terms (.var x) t) r
  | second {σ : Substitution} {x y : Ident} {u : Term} {r : Option Substitution} (hP : P σ)
      (hne : y ≠ x) (hx : σ.find? x = none) (hy : σ.find? y = some u)
      (next : Returns P σ (.terms (.var x) u) r) : Returns P σ (.terms (.var x) (.var y)) r
  | resolved {σ : Substitution} {x : Ident} {t : Term} (hP : P σ) (hopen : σ.Open x t)
      (ht : σ.Resolves t (.var x)) : Returns P σ (.terms (.var x) t) (some σ)
  | occurs {σ : Substitution} {x : Ident} {t u : Term} (hP : P σ) (hopen : σ.Open x t)
      (ht : σ.Resolves t u) (hne : u ≠ .var x) (hx : x ∈ u.vars) :
      Returns P σ (.terms (.var x) t) none
  | bind {σ : Substitution} {x : Ident} {t u : Term} (hP : P σ) (hopen : σ.Open x t)
      (ht : σ.Resolves t u) (hx : x ∉ u.vars) (hP' : P (σ.insert x u)) :
      Returns P σ (.terms (.var x) t) (some (σ.insert x u))
  | turn {σ : Substitution} {y : Ident} {s : Term} {r : Option Substitution} (hs : s.isVar = false)
      (next : Returns P σ (.terms (.var y) s) r) : Returns P σ (.terms s (.var y)) r
  | const {σ : Substitution} {c : Ident} (hP : P σ) :
      Returns P σ (.terms (.const c) (.const c)) (some σ)
  | clash {σ : Substitution} {s t : Term} (hP : P σ) (h : s.Clash t) :
      Returns P σ (.terms s t) none
  | app {σ : Substitution} {f : Ident} {as bs : List Term} {r : Option Substitution}
      (hlen : as.length = bs.length) (next : Returns P σ (.lists as bs) r) :
      Returns P σ (.terms (.app f as) (.app f bs)) r
  | nil {σ : Substitution} (hP : P σ) : Returns P σ (.lists [] []) (some σ)
  | cons {σ τ : Substitution} {a b : Term} {as bs : List Term} {r : Option Substitution}
      (head : Returns P σ (.terms a b) (some τ)) (tail : Returns P τ (.lists as bs) r) :
      Returns P σ (.lists (a :: as) (b :: bs)) r
  | stop {σ : Substitution} {a b : Term} {as bs : List Term}
      (head : Returns P σ (.terms a b) none) : Returns P σ (.lists (a :: as) (b :: bs)) none

/-! ## Section 3: Single bindings and the depth -/

namespace Substitution

variable {σ : Substitution} {x : Ident} {t u : Term}

theorem walk_of_isVar_eq_false (h : t.isVar = false) : σ.walk t = t := by
  cases t with
  | var x => cases h
  | const c => simp [walk, walkFor]
  | app f ts => simp [walk, walkFor]

theorem walk_of_unbound (hx : σ.find? x = none) : σ.walk (.var x) = .var x := by
  unfold walk
  cases σ.size with
  | zero => rfl
  | succ n => simp [walkFor, hx]

namespace Acyclic

/-- Looking through more bindings than there are in a chain changes nothing. -/
theorem walkFor_eq (hσ : σ.Acyclic) {n m : Nat} (hnm : n ≤ m)
    (ht : ∀ y, t = .var y → σ.rank y ≤ n) : σ.walkFor m t = σ.walkFor n t := by
  induction n generalizing m t with
  | zero =>
    cases t with
    | const c => simp [walkFor]
    | app f ts => simp [walkFor]
    | var y =>
      have hf : σ.find? y = none :=
        Option.eq_none_iff_forall_ne_some.mpr fun u hu =>
          absurd (ht y rfl) (Nat.not_le_of_lt (rank_pos hu))
      cases m <;> simp [walkFor, hf]
  | succ n ih =>
    obtain ⟨m, rfl⟩ : ∃ k, m = k + 1 := ⟨m - 1, by omega⟩
    cases t with
    | const c => simp [walkFor]
    | app f ts => simp [walkFor]
    | var y =>
      simp only [walkFor]
      cases hf : σ.find? y with
      | none => rfl
      | some u =>
        refine ih (Nat.le_of_succ_le_succ hnm) ?_
        rintro z rfl
        have hlt := hσ.rank_lt ⟨_, hf, List.mem_singleton_self z⟩
        exact Nat.le_of_lt_succ (Nat.lt_of_lt_of_le hlt (ht y rfl))

private theorem walk_of_bound (hσ : σ.Acyclic) (hx : σ.find? x = some u) :
    σ.walk (.var x) = σ.walk u := by
  have hpos := rank_pos hx
  have hle := σ.rank_le_size x
  obtain ⟨n, hn⟩ : ∃ n, σ.size = n + 1 := ⟨σ.size - 1, by omega⟩
  unfold walk
  rw [hn, walkFor, hx]
  refine (hσ.walkFor_eq (Nat.le_succ n) ?_).symm
  rintro z rfl
  have hlt := hσ.rank_lt ⟨_, hx, List.mem_singleton_self z⟩
  omega

end Acyclic

end Substitution

section Depth

variable {σ τ : Substitution} {s t : Term} {as bs : List Term}

theorem unifyArgs_mono {step step' : Substitution → Term → Term → Option Substitution}
    (hstep : ∀ {σ τ s t}, step σ s t = some τ → step' σ s t = some τ)
    (h : unifyArgs step σ as bs = some τ) : unifyArgs step' σ as bs = some τ := by
  induction as generalizing σ bs with
  | nil => simpa [unifyArgs] using h
  | cons a as ih =>
    cases bs with
    | nil => simpa [unifyArgs] using h
    | cons b bs =>
      simp only [unifyArgs] at h ⊢
      split at h
      next => cases h
      next ρ hρ =>
        rw [hstep hρ]
        exact ih h

/-- A depth that suffices may be exceeded. -/
theorem unifyTerm_mono {n m : Nat} (hnm : n ≤ m) (h : unifyTerm n σ s t = some τ) :
    unifyTerm m σ s t = some τ := by
  induction n generalizing m σ τ s t with
  | zero => simp [unifyTerm] at h
  | succ n ih =>
    obtain ⟨m, rfl⟩ : ∃ k, m = k + 1 := ⟨m - 1, by omega⟩
    have args {σ τ : Substitution} {as bs : List Term}
        (h : unifyArgs (unifyTerm n) σ as bs = some τ) : unifyArgs (unifyTerm m) σ as bs = some τ :=
      unifyArgs_mono (fun h => ih (Nat.le_of_succ_le_succ hnm) h) h
    unfold unifyTerm at h ⊢
    split at h
    next hst => rwa [if_pos hst]
    next hst =>
      rw [if_neg hst]
      split at h
      next => exact h
      next => exact h
      next => exact h
      next =>
        split at h
        next hfg =>
          rw [if_pos hfg]
          split at h
          next hvar => rw [if_pos hvar]; exact args h
          next hvar => rw [if_neg hvar]; exact args h
        next => cases h
      next => cases h

/-- Whatever depth succeeds, the answer is the one of the depth that suffices. -/
theorem unifyList_eq_of_unifyArgs {n : Nat} (hσ : σ.Acyclic)
    (h : unifyArgs (unifyTerm n) σ as bs = some τ) : unifyList σ as bs = some τ := by
  have hrun := unification_of_unifyArgs (fun h r => unification_of_unifyTerm h r) h (.nil τ)
  rw [List.append_nil] at hrun
  obtain ⟨hsolves, heq⟩ := (hrun.solves_iff hσ _).mp (hrun.acyclic hσ).solves_value
  obtain ⟨τ', hτ'⟩ := exists_unifyList hσ hsolves heq
  rw [hτ']
  have deeper {k : Nat} {ρ : Substitution} (hk : k ≤ n + unifyDepth σ as bs)
      (h : unifyArgs (unifyTerm k) σ as bs = some ρ) :
      unifyArgs (unifyTerm (n + unifyDepth σ as bs)) σ as bs = some ρ :=
    unifyArgs_mono (fun h => unifyTerm_mono hk h) h
  exact (deeper (Nat.le_add_left _ _) hτ').symm.trans (deeper (Nat.le_add_right _ _) h)

theorem unifyArgs_self (n : Nat) (σ : Substitution) (as : List Term) :
    unifyArgs (unifyTerm (n + 1)) σ as as = some σ := by
  induction as with
  | nil => rfl
  | cons a as ih =>
    have hstep : unifyTerm (n + 1) σ a a = some σ := by simp [unifyTerm]
    simp only [unifyArgs, hstep, ih]

/-- Terms that look the same unify without a new binding. -/
theorem unifyTerm_of_walk_eq (h : σ.walk s = σ.walk t) : unifyTerm 2 σ s t = some σ := by
  unfold unifyTerm
  cases ht : σ.walk t <;> simp [h, ht, unifyArgs_self]

/-- A term may be replaced by one that looks the same. -/
theorem unifyTerm_of_walk_eq_left {u : Term} {n : Nat} (hw : σ.walk s = σ.walk u) (hne : s ≠ t)
    (h : unifyTerm n σ u t = some τ) : ∃ m, unifyTerm m σ s t = some τ := by
  by_cases hut : u = t
  · refine ⟨2, ?_⟩
    cases n with
    | zero => simp [unifyTerm] at h
    | succ n =>
      obtain rfl : σ = τ := by simpa [unifyTerm, hut] using h
      exact unifyTerm_of_walk_eq (hut ▸ hw)
  · refine ⟨n, ?_⟩
    cases n with
    | zero => exact h
    | succ n =>
      unfold unifyTerm at h ⊢
      rw [if_neg hut] at h
      rwa [if_neg hne, hw]

theorem unifyTerm_unbound {x : Ident} (hx : σ.find? x = none) (n : Nat) (t : Term) :
    unifyTerm (n + 1) σ (.var x) t =
      if σ.walk t = .var x then some σ else σ.bindValue? x (σ.walk t) := by
  unfold unifyTerm
  rw [Substitution.walk_of_unbound hx]
  split
  next ht => rw [← ht, if_pos (Substitution.walk_of_unbound hx)]
  next => rfl

/-- A variable comes first, also where it stands second. -/
theorem unifyTerm_turn {y : Ident} (hs : s.isVar = false) (n : Nat) :
    unifyTerm n σ s (.var y) = unifyTerm n σ (.var y) s := by
  cases n with
  | zero => rfl
  | succ n =>
    have hne : s ≠ .var y := by
      rintro rfl
      cases hs
    unfold unifyTerm
    rw [if_neg hne, if_neg hne.symm, Substitution.walk_of_isVar_eq_false hs]
    cases s with
    | var x => cases hs
    | const c => cases σ.walk (.var y) <;> simp [eq_comm]
    | app f as => cases σ.walk (.var y) <;> simp [Term.isVar, eq_comm]

end Depth

/-! ## Section 4: What a derivation answers -/

namespace UnifyCall

/-- What `unifyTerm` and `unifyArgs` compute to a given depth. -/
def run (n : Nat) (σ : Substitution) : UnifyCall → Option Substitution
  | .terms s t => unifyTerm n σ s t
  | .lists as bs => unifyArgs (unifyTerm n) σ as bs

/-- A simultaneous replacement makes the two sides of a call equal. -/
def Solved (θ : Ident → Term) : UnifyCall → Prop
  | .terms s t => s.subst θ = t.subst θ
  | .lists as bs => as.map (Term.subst θ) = bs.map (Term.subst θ)

private theorem solved_cons {θ : Ident → Term} {a b : Term} {as bs : List Term} :
    (lists (a :: as) (b :: bs)).Solved θ ↔ (terms a b).Solved θ ∧ (lists as bs).Solved θ := by
  simp [Solved]

/-- An answer that is right: bindings found to some depth, or none where there is no solution. -/
def Answers (c : UnifyCall) (σ : Substitution) : Option Substitution → Prop
  | some τ => ∃ n, c.run n σ = some τ
  | none => ∀ θ, σ.Solves θ → ¬ c.Solved θ

variable {σ τ : Substitution} {x : Ident} {s t u : Term} {r : Option Substitution}

/-- Calls with the same answers. -/
theorem Answers.congr {c d : UnifyCall} (h : c.Answers σ r)
    (hsome : ∀ {n τ}, c.run n σ = some τ → ∃ m, d.run m σ = some τ)
    (hnone : ∀ {θ}, σ.Solves θ → d.Solved θ → c.Solved θ) : d.Answers σ r := by
  cases r with
  | none => exact fun θ hθ hd => h θ hθ (hnone hθ hd)
  | some τ =>
    obtain ⟨n, hn⟩ := h
    exact hsome hn

private theorem not_solved_of_occurs (hσ : σ.Acyclic) (hne : σ.apply t ≠ .var x)
    (hx : x ∈ (σ.apply t).vars) : (terms (.var x) t).Answers σ none := by
  intro θ hθ heq
  have hvar : (σ.apply t).isVar = false := by
    cases hu : σ.apply t with
    | var z =>
      rw [hu] at hx hne
      have hxz : x = z := by simpa [Term.vars] using hx
      exact absurd (congrArg Term.var hxz.symm) hne
    | const c => rfl
    | app f ts => rfl
  have hlt := Term.symbols_lt_symbols_subst (θ := θ) hx hvar
  rw [hθ.subst_apply hσ, ← heq] at hlt
  exact Nat.lt_irrefl _ hlt

private theorem not_solved_of_clash (h : s.Clash t) : (terms s t).Answers σ none := by
  intro θ _ heq
  cases s with
  | var x => cases h
  | const c =>
    cases t with
    | var y => cases h
    | const d => exact h (Term.const.inj heq)
    | app g bs => simp [Solved, Term.subst] at heq
  | app f as =>
    cases t with
    | var y => cases h
    | const d => simp [Solved, Term.subst] at heq
    | app g bs =>
      simp only [Solved, Term.subst_app, Term.app.injEq] at heq
      exact h ⟨heq.1, by simpa using congrArg List.length heq.2⟩

private theorem run_of_open (hopen : σ.Open x t) (n : Nat) :
    (terms (.var x) t).run (n + 1) σ = σ.bindValue? x t := by
  have hwalk : σ.walk t = t := by
    cases t with
    | var y => exact Substitution.walk_of_unbound (hopen.settled y rfl)
    | const c => exact Substitution.walk_of_isVar_eq_false rfl
    | app f ts => exact Substitution.walk_of_isVar_eq_false rfl
  rw [run, unifyTerm_unbound hopen.unbound, hwalk, if_neg hopen.ne]

/-- Applications are unified one level above their arguments, and equal ones need no level below. -/
theorem run_app {f : Ident} {as bs : List Term} {n : Nat} (hlen : as.length = bs.length)
    (h : (lists as bs).run n σ = some τ) :
    (terms (.app f as) (.app f bs)).run (n + 2) σ = some τ := by
  have hargs : unifyArgs (unifyTerm (n + 1)) σ as bs = some τ :=
    unifyArgs_mono (fun h => unifyTerm_mono (Nat.le_succ n) h) h
  rw [run, unifyTerm]
  split
  next heq =>
    obtain rfl : as = bs := by simpa using heq
    rw [← hargs, unifyArgs_self]
  next =>
    have hwalk (ts : List Term) : σ.walk (.app f ts) = .app f ts :=
      Substitution.walk_of_isVar_eq_false rfl
    simpa [hwalk, Term.isVar, hlen] using hargs

private theorem unification_of_run {c : UnifyCall} {n : Nat} (h : c.run n σ = some τ) :
    ∃ es, Unification σ es τ ∧ ∀ θ, c.Solved θ → ∀ e ∈ es, e.1.subst θ = e.2.subst θ := by
  cases c with
  | terms s t =>
    exact ⟨_, unification_of_unifyTerm h (.nil τ), fun θ heq => List.forall_mem_singleton.mpr heq⟩
  | lists as bs =>
    have hrun := unification_of_unifyArgs (fun h r => unification_of_unifyTerm h r) h (.nil τ)
    rw [List.append_nil] at hrun
    refine ⟨_, hrun, fun θ heq => (map_subst_eq_iff ?_ θ).mp heq⟩
    simpa using congrArg List.length heq

/-- Every derivation that starts without cycles gives the right answer. -/
theorem Returns.answers {P : Substitution → Prop} {c : UnifyCall} (h : c.Returns P σ r)
    (hσ : σ.Acyclic) : c.Answers σ r := by
  -- `run` may also give nothing because its depth is used up, so a derivation without an answer is
  -- matched with the absence of solutions and not with what `run` gives
  induction h with
  | same _ => exact ⟨1, by simp [run, unifyTerm]⟩
  | first _ hne hx _ ih =>
    refine (ih hσ).congr (fun h => ?_) fun hθ heq => ?_
    · exact unifyTerm_of_walk_eq_left (hσ.walk_of_bound hx) hne.symm h
    · exact (hθ _ _ hx).symm.trans heq
  | @second σ x y u r _ hne hx hy _ ih =>
    refine (ih hσ).congr (fun {n τ} h => ⟨n, ?_⟩) fun hθ heq => ?_
    · cases n with
      | zero => exact h
      | succ n =>
        rw [run, unifyTerm_unbound hx] at h ⊢
        rwa [hσ.walk_of_bound hy]
    · exact heq.trans (hθ _ _ hy)
  | @resolved σ x t _ hopen ht =>
    -- only a variable has a variable for its value, and `t` would be `x` itself
    have hu := hσ.resolves_iff.mp ht
    cases t with
    | var y =>
      rw [Substitution.apply_var, Substitution.value_of_unbound (hopen.settled y rfl)] at hu
      exact absurd hu.symm hopen.ne
    | const c => simp [Substitution.apply, Term.subst] at hu
    | app f ts => simp [Substitution.apply] at hu
  | occurs _ _ ht hne hx =>
    obtain rfl := hσ.resolves_iff.mp ht
    exact not_solved_of_occurs hσ hne hx
  | bind _ hopen ht hx _ =>
    obtain rfl := hσ.resolves_iff.mp ht
    refine ⟨1, ?_⟩
    rw [run_of_open hopen]
    exact Substitution.bindValue?_eq_some.mpr ⟨hx, rfl⟩
  | turn hs _ ih =>
    refine (ih hσ).congr (fun {n τ} h => ⟨n, ?_⟩) fun _ heq => Eq.symm heq
    rw [run, unifyTerm_turn hs]
    exact h
  | const _ => exact ⟨1, by simp [run, unifyTerm]⟩
  | clash _ h => exact not_solved_of_clash h
  | @app σ f as bs r hlen _ ih =>
    refine (ih hσ).congr (fun {n τ} h => ⟨n + 2, run_app hlen h⟩) fun _ heq => ?_
    simpa [Solved] using heq
  | nil _ => exact ⟨0, rfl⟩
  | @cons σ τ a b as bs r _ _ ihhead ihtail =>
    obtain ⟨n, hn⟩ := ihhead hσ
    obtain ⟨es, hrun, hes⟩ := unification_of_run hn
    have htail := ihtail (hrun.acyclic hσ)
    cases r with
    | none =>
      intro θ hθ heq
      obtain ⟨hab, heq⟩ := solved_cons.mp heq
      exact htail θ ((hrun.solves_iff hσ θ).mpr ⟨hθ, hes θ hab⟩) heq
    | some ρ =>
      obtain ⟨m, hm⟩ := htail
      refine ⟨max n m, ?_⟩
      have hhead : unifyTerm (max n m) σ a b = some τ := unifyTerm_mono (Nat.le_max_left n m) hn
      simp only [run, unifyArgs, hhead]
      exact unifyArgs_mono (fun h => unifyTerm_mono (Nat.le_max_right n m) h) hm
  | stop _ ih =>
    intro θ hθ heq
    exact ih hσ θ hθ (solved_cons.mp heq).1

/-- The final bindings are among those met on the way. -/
theorem Returns.result {P : Substitution → Prop} {c : UnifyCall} (h : c.Returns P σ r) :
    ∀ τ, r = some τ → P τ := by
  induction h with
  | same hP | resolved hP | const hP | nil hP =>
    rintro τ ⟨⟩
    exact hP
  | bind _ _ _ _ hP' =>
    rintro τ ⟨⟩
    exact hP'
  | first _ _ _ _ ih | second _ _ _ _ _ ih | turn _ _ ih | app _ _ ih | cons _ _ _ ih => exact ih
  | occurs | clash | stop => rintro τ ⟨⟩

/-- A derivation for two lists has the answer of `unifyList`. -/
theorem Returns.eq_unifyList {P : Substitution → Prop} {as bs : List Term}
    (h : (lists as bs).Returns P σ r) (hσ : σ.Acyclic) (hlen : as.length = bs.length) :
    r = unifyList σ as bs := by
  have hanswer := h.answers hσ
  cases r with
  | none =>
    refine ((unifyList_eq_none_iff hσ).mpr ?_).symm
    rintro ⟨θ, hθ, heq⟩
    exact hanswer θ hθ ((map_subst_eq_iff hlen θ).mpr heq)
  | some τ =>
    obtain ⟨n, hn⟩ := hanswer
    exact (unifyList_eq_of_unifyArgs hσ hn).symm

/-- A derivation for two terms has the answer of `Term.unify`. -/
theorem Returns.eq_unify {P : Substitution → Prop} (h : (terms s t).Returns P σ r)
    (hσ : σ.Acyclic) : r = s.unify σ t := by
  refine Returns.eq_unifyList (P := P) ?_ hσ rfl
  cases r with
  | none => exact .stop h
  | some τ => exact .cons h (.nil (h.result τ rfl))

end UnifyCall

end Clausal
