/-!
# Sets of characters

Classes of characters are given as tables of ranges of code points, both ends included.
-/

namespace GraphPlan.Text

/-- A set of code points as its ranges. -/
abbrev Ranges := List (Nat × Nat)

namespace Ranges

/-- Whether a character lies in one of the ranges. -/
def covers (ranges : Ranges) (c : Char) : Bool :=
  ranges.any fun r => decide (r.1 ≤ c.toNat ∧ c.toNat ≤ r.2)

/-- The characters of a table are those between the ends of one of its ranges. -/
theorem covers_iff {ranges : Ranges} {c : Char} :
    ranges.covers c = true ↔ ∃ r ∈ ranges, r.1 ≤ c.toNat ∧ c.toNat ≤ r.2 := by
  simp only [covers, List.any_eq_true, decide_eq_true_eq]

end Ranges

end GraphPlan.Text
