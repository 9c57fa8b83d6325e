/-! Sets of code points given as ascending, disjoint, closed ranges. -/

namespace BlockLang.Text

/-- Membership in a table of ascending closed ranges; the search stops at the first range that
begins above the number. -/
def inRanges : List (Nat × Nat) → Nat → Bool
  | [], _ => false
  | (low, high) :: rest, n => if n < low then false else if n ≤ high then true else inRanges rest n

end BlockLang.Text
