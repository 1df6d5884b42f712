import Clausal.Names

/-!
# Knowledge bases

A knowledge base is told nodes, which should be formulas.  It may refuse a node; what was told
before stays, and so does what a layer around a knowledge base has told it already.

## Main definitions

- `Telling`: computations that tell a knowledge base something
- `KnowledgeBase`: the types that can be told something
- `Record`: a knowledge base that only records what it is told
-/

namespace Clausal

/-- Computations that tell a knowledge base something, with fresh names at hand.  What was told
    before an error stays told. -/
abbrev Telling (κ : Type) : Type → Type :=
  ExceptT NodeError (StateM (κ × Names))

/-- The types of knowledge bases. -/
class KnowledgeBase (κ : Type) where
  tell : Node → Telling κ Unit

namespace Telling

/-- Tell a part of a knowledge base something. -/
def within {κ ι : Type} (inner : κ → ι) (replace : κ → ι → κ) (t : Telling ι Unit) :
    Telling κ Unit :=
  fun x =>
    let (r, y) := t (inner x.1, x.2)
    (r, (replace x.1 y.1, y.2))

/-- Tell several nodes, one after the other. -/
def tellAll {κ : Type} [KnowledgeBase κ] (ns : List Node) : Telling κ Unit :=
  ns.forM KnowledgeBase.tell

end Telling

/-- The nodes told so far, in order. -/
structure Record where
  told : List Node := []
  deriving Inhabited

instance : KnowledgeBase Record where
  tell n := modify fun (r, s) => (⟨r.told ++ [n]⟩, s)

end Clausal
