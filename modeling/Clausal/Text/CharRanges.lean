/-!
# Classes of characters

A class of characters is given by ranges of code points, and these by their lengths.
-/

namespace Clausal

/-- The lengths of ranges of code points, in increasing order.  The characters of the first range are
    outside the class, those of the second one in it, and so on by turns; those after the last range
    are outside. -/
abbrev CharRanges : Type :=
  List Nat

/-- Whether the code point `n` places after the start of the first range is in the class, if that
    range is as `inside` says. -/
def CharRanges.coversFrom (inside : Bool) : CharRanges → Nat → Bool
  | [], _ => false
  | r :: rs, n => if n < r then inside else coversFrom (!inside) rs (n - r)

/-- Whether a character is in the class. -/
def CharRanges.covers (rs : CharRanges) (c : Char) : Bool :=
  rs.coversFrom false c.toNat

end Clausal
