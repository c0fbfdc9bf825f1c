import GraphPlan.Expr.Json
import GraphPlan.Json.Parser
import GraphPlan.Json.Printer
import GraphPlan.Query.Basic

/-!
# Queries in JSON

`Query.toJson` writes every field of a query in declaration order, `Query.reader` reads a query back
and fills in what may be missing. `Query.encode` and `Query.decode?` do the same for JSON text.
-/

namespace GraphPlan

/-! ## Writing -/

/-- The JSON form of a pattern variable. -/
def PatternVar.toJson (v : PatternVar) : Json :=
  .ofFields [("name", .ofString v.name), ("anonymous", .bool v.anonymous)]

/-- The JSON form of a connection. -/
def Connection.toJson (c : Connection) : Json :=
  .ofFields [("src", c.src.toJson), ("dst", c.dst.toJson), ("edge", c.edge.toJson)]

/-- The JSON form of a grouping key. -/
def GroupKey.toJson (k : GroupKey) : Json :=
  .ofFields [("expr", k.expr.toJson), ("alias", .ofString k.name)]

/-- The JSON form of a result column. -/
def ProjectionElem.toJson (e : ProjectionElem) : Json :=
  .ofFields [("expr", e.expr.toJson), ("alias", .ofOption .ofString e.name)]

/-- The JSON form of a sort key. -/
def OrderElem.toJson (e : OrderElem) : Json :=
  .ofFields [("expr", e.expr.toJson), ("ascending", .bool e.ascending)]

namespace Query

/-- The JSON form of a query. -/
def toJson (q : Query) : Json :=
  .ofFields
    [("vertices", .arr (q.vertices.map PatternVar.toJson)),
      ("connections", .arr (q.connections.map Connection.toJson)),
      ("constraints", .arr (q.constraints.map Expr.toJson)),
      ("group_by", .arr (q.groupBy.map GroupKey.toJson)),
      ("projection", .arr (q.projection.map ProjectionElem.toJson)),
      ("order_by", .arr (q.orderBy.map OrderElem.toJson)),
      ("limit", .ofOption (fun n => .ofNat n.toNat) q.limit),
      ("offset", .ofOption (fun n => .ofNat n.toNat) q.offset)]

end Query

/-! ## Reading -/

/-- Reads a pattern variable. -/
def PatternVar.reader : Json.Reader PatternVar
  | 0, _ => none
  | depth + 1, j => do
    match ← Json.slots ["name", "anonymous"] j with
    | [name, anonymous] =>
      return ⟨← Json.required .text depth name, ← Json.withDefault false .bool depth anonymous⟩
    | _ => none

/-- Reads a connection. -/
def Connection.reader : Json.Reader Connection
  | 0, _ => none
  | depth + 1, j => do
    match ← Json.slots ["src", "dst", "edge"] j with
    | [src, dst, edge] =>
      return ⟨← Json.required PatternVar.reader depth src,
        ← Json.required PatternVar.reader depth dst, ← Json.required PatternVar.reader depth edge⟩
    | _ => none

/-- Reads a grouping key. -/
def GroupKey.reader : Json.Reader GroupKey
  | 0, _ => none
  | depth + 1, j => do
    match ← Json.slots ["expr", "alias"] j with
    | [expr, name] =>
      return ⟨← Json.required Expr.reader depth expr, ← Json.required .text depth name⟩
    | _ => none

/-- Reads a result column. -/
def ProjectionElem.reader : Json.Reader ProjectionElem
  | 0, _ => none
  | depth + 1, j => do
    match ← Json.slots ["expr", "alias"] j with
    | [expr, name] =>
      return ⟨← Json.required Expr.reader depth expr,
        ← Json.withDefault none (.nullable .text) depth name⟩
    | _ => none

/-- Reads a sort key. -/
def OrderElem.reader : Json.Reader OrderElem
  | 0, _ => none
  | depth + 1, j => do
    match ← Json.slots ["expr", "ascending"] j with
    | [expr, ascending] =>
      return ⟨← Json.required Expr.reader depth expr,
        ← Json.withDefault true .bool depth ascending⟩
    | _ => none

namespace Query

/-- The fields of a query in declaration order. -/
def fieldNames : List String :=
  ["vertices", "connections", "constraints", "group_by", "projection", "order_by", "limit",
    "offset"]

/-- Reads a query. -/
def reader : Json.Reader Query
  | 0, _ => none
  | depth + 1, j => do
    match ← Json.slots fieldNames j with
    | [vertices, connections, constraints, groupBy, projection, orderBy, limit, offset] =>
      return {
        vertices := ← Json.withDefault [] (.list PatternVar.reader) depth vertices
        connections := ← Json.withDefault [] (.list Connection.reader) depth connections
        constraints := ← Json.withDefault [] (.list Expr.reader) depth constraints
        groupBy := ← Json.withDefault [] (.list GroupKey.reader) depth groupBy
        projection := ← Json.withDefault [] (.list ProjectionElem.reader) depth projection
        orderBy := ← Json.withDefault [] (.list OrderElem.reader) depth orderBy
        limit := ← Json.withDefault none (.nullable .uint64) depth limit
        offset := ← Json.withDefault none (.nullable .uint64) depth offset }
    | _ => none

end Query

end GraphPlan
