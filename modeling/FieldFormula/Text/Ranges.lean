/-!
Classes of characters given as ascending closed ranges of code points.
-/
namespace FieldFormula.Text

/-- Membership of a code point in ascending ranges; the search stops at the first range above it. -/
def inRanges : List (Nat × Nat) → Nat → Bool
  | [], _ => false
  | (first, last) :: rest, n => decide (first ≤ n) && (decide (n ≤ last) || inRanges rest n)

end FieldFormula.Text
