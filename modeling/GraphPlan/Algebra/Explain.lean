import GraphPlan.Algebra.Tree
import GraphPlan.Digest.Xxh64
import GraphPlan.Json.Printer

/-!
# Explain trees and plan hashes

An explain tree shows a plan as names and properties. The hash of a plan is the XXH64 digest of a
byte string that lists the same names and properties, parents before their inputs, with the number
of inputs after each operator.
-/

namespace GraphPlan

/-- An operator by name, with its properties and its inputs. -/
inductive ExplainNode where
  /-- Name, properties and inputs. -/
  | node (op : String) (properties : List (String × String)) (inputs : List ExplainNode)
deriving Inhabited

namespace PlanNode

mutual

/-- The explain tree of a plan. -/
def explain : PlanNode → ExplainNode
  | node op inputs => .node op.name op.properties (explainList inputs)

/-- The explain trees of several plans. -/
def explainList : List PlanNode → List ExplainNode
  | [] => []
  | input :: rest => input.explain :: explainList rest

end

/-- The bytes of a text. -/
def textBytes (s : String) : List UInt8 :=
  s.toList.flatMap String.utf8EncodeChar

/-- The bytes that an operator contributes, up to the number of its inputs. -/
def operatorBytes (op : Operator) : List UInt8 :=
  textBytes op.name ++ op.properties.flatMap fun p => textBytes p.1 ++ textBytes p.2

mutual

/-- The bytes that are hashed for a plan. -/
def hashBytes : PlanNode → List UInt8
  | node op inputs =>
    operatorBytes op ++ Xxh64.littleEndianBytes inputs.length.toUInt64 ++ hashBytesList inputs

/-- The bytes that are hashed for several plans. -/
def hashBytesList : List PlanNode → List UInt8
  | [] => []
  | input :: rest => input.hashBytes ++ hashBytesList rest

end

/-- The hash of a plan. -/
def hash (t : PlanNode) : UInt64 :=
  Xxh64.digest 0 t.hashBytes

end PlanNode

namespace ExplainNode

/-- The JSON form of the properties of an operator. -/
def propertiesJson (properties : List (String × String)) : Json :=
  .arr (properties.map fun (key, value) =>
    .ofFields [("key", .ofString key), ("value", .ofString value)])

mutual

/-- The JSON form of an explain tree. -/
def toJson : ExplainNode → Json
  | node op properties inputs =>
    .ofFields
      [("op", .ofString op), ("props", propertiesJson properties),
        ("inputs", .arr (listToJson inputs))]

/-- The JSON forms of several explain trees. -/
def listToJson : List ExplainNode → List Json
  | [] => []
  | input :: rest => input.toJson :: listToJson rest

end

end ExplainNode

/-- An explain tree with the hash of its plan. -/
structure PlanExplain where
  /-- The tree. -/
  root : ExplainNode
  /-- The hash. -/
  planHash : UInt64

/-- The explanation of a plan. -/
def PlanExplain.ofPlan (t : PlanNode) : PlanExplain :=
  ⟨t.explain, t.hash⟩

/-- The text of an explanation: JSON over several lines. -/
def PlanExplain.text (e : PlanExplain) : String :=
  Json.pretty 0 (.ofFields [("root", e.root.toJson), ("plan_hash", .ofNat e.planHash.toNat)])

end GraphPlan
