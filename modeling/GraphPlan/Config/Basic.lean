/-!
# Configuration

The words that differ between dialects of the algebra, and the filter for log messages.
-/

namespace GraphPlan

/-- The configuration of the planner. -/
structure Config where
  /-- The scope in which attributes are looked up. -/
  attributeScope : String
  /-- The type of joins. -/
  joinType : String
  /-- The declared type of computed columns. -/
  extendResultType : String
  /-- Which log messages are shown. -/
  logFilter : Option String
deriving DecidableEq

/-- The configuration in the absence of other settings. -/
def Config.default : Config :=
  ⟨"GLOBAL", "Inner", "STRING", none⟩

instance : Inhabited Config := ⟨Config.default⟩

end GraphPlan
