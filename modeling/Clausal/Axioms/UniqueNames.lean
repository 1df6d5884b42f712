import Clausal.KnowledgeBase
import Clausal.Node.Operation

/-!
# Axioms of unique names

A layer around a knowledge base that tells it that distinct constants stand for distinct things:
whenever a new constant is met, it is stated to differ from every constant met before.

## Main definitions

- `namesDiffer`, `UniqueNamesLayer`
- `arrangeNames`: the axioms in a given order of the constants
-/

namespace Clausal

/-- Two constants differ. -/
def namesDiffer (a b : Ident) : Formula :=
  .not (.atom (.eq (.const a) (.const b)))

/-- The two constants of an axiom of unique names. -/
def differentNames? : Node → Option (Ident × Ident)
  | .formula (.not (.atom (.eq (.const a) (.const b)))) => some (a, b)
  | _ => none

/-- Arrange every run of axioms for the same first constant by the second one. -/
def arrangeNames (before : Ident → Ident → Bool) (ns : List Node) : List Node :=
  let first (n : Node) : Option Ident := (differentNames? n).map Prod.fst
  let second (n : Node) : Ident := ((differentNames? n).map Prod.snd).getD .null
  let runs := ns.splitBy fun m n => (first m).isSome && first m = first n
  runs.flatMap fun run => run.mergeSort fun m n => !before (second n) (second m)

/-- A knowledge base with axioms of unique names, and the constants met so far. -/
structure UniqueNamesLayer (κ : Type) where
  inner : κ
  constants : List Ident := []

namespace UniqueNamesLayer

variable {κ : Type} [KnowledgeBase κ]

/-- Tell the knowledge base inside the layer. -/
def tellInner (n : Node) : Telling (UniqueNamesLayer κ) Unit :=
  .within inner (fun l i => { l with inner := i }) (KnowledgeBase.tell n)

/-- Tell the axioms for a part of a formula, if it is a new constant. -/
def visit : Part → Telling (UniqueNamesLayer κ) Unit
  | .term (.const c) => do
    let (l, _) ← get
    if l.constants.contains c then return ()
    l.constants.forM fun known => tellInner (.formula (namesDiffer c known))
    modify fun x => ({ x.1 with constants := x.1.constants ++ [c] }, x.2)
  | _ => return ()

instance : KnowledgeBase (UniqueNamesLayer κ) where
  tell n := do
    tellInner n
    (← n.parts).forM visit

end UniqueNamesLayer

end Clausal
