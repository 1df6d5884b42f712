import Clausal.Formula

/-!
# Negation normal form

`eliminate` replaces implications and equivalences, and `nnf` moves negations inwards until they
stand on atoms only.  `nnf` handles implications and equivalences too, so it also works on formulas
that have not gone through `eliminate`.
-/

namespace Clausal.Formula

/-- Replace `F => G` by `~F | G` and `F <=> G` by `(~F | G) & (~G | F)`, everywhere. -/
def eliminate : Formula → Formula
  | .atom a => .atom a
  | .not f => .not f.eliminate
  | .and f g => .and f.eliminate g.eliminate
  | .or f g => .or f.eliminate g.eliminate
  | .imp f g => .or (.not f.eliminate) g.eliminate
  | .iff f g => .and (.or (.not f.eliminate) g.eliminate) (.or (.not g.eliminate) f.eliminate)
  | .all x f => .all x f.eliminate
  | .ex x f => .ex x f.eliminate

/-- Negation normal form of a formula (`true`) or of its negation (`false`). -/
def nnfAs : Bool → Formula → Formula
  | true, .atom a => .atom a
  | false, .atom a => .not (.atom a)
  | b, .not f => f.nnfAs (!b)
  | true, .and f g => .and (f.nnfAs true) (g.nnfAs true)
  | false, .and f g => .or (f.nnfAs false) (g.nnfAs false)
  | true, .or f g => .or (f.nnfAs true) (g.nnfAs true)
  | false, .or f g => .and (f.nnfAs false) (g.nnfAs false)
  | true, .imp f g => .or (f.nnfAs false) (g.nnfAs true)
  | false, .imp f g => .and (f.nnfAs true) (g.nnfAs false)
  | true, .iff f g =>
    .and (.or (f.nnfAs false) (g.nnfAs true)) (.or (g.nnfAs false) (f.nnfAs true))
  | false, .iff f g =>
    .and (.or (f.nnfAs true) (g.nnfAs true)) (.or (f.nnfAs false) (g.nnfAs false))
  | true, .all x f => .all x (f.nnfAs true)
  | false, .all x f => .ex x (f.nnfAs false)
  | true, .ex x f => .ex x (f.nnfAs true)
  | false, .ex x f => .all x (f.nnfAs false)

/-- Negation normal form. -/
def nnf (f : Formula) : Formula :=
  f.nnfAs true

end Clausal.Formula
