/-
  QueryPlanner.Stored.Index

  The stored form of indexes.  A key is a column number, an expression, or a
  function of columns.
-/

import QueryPlanner.Catalog
import QueryPlanner.Stored.Expr

namespace QueryPlanner

/-! ## Keys -/

namespace IndexKey

def stored : IndexKey Float → Stored
  | .column n => .int n
  | .expr e => .record [("expr", e.stored)]

/-- A column that a function key reads, and its type. -/
def functionColumn? : Stored → Option (AttrNumber × DataType)
  | .list [n, t] => do return (← n.short?, ← DataType.ofStored? t)
  | _ => none

def ofStored? (c : OperatorCatalog Float) (s : Stored) : Option (IndexKey Float) :=
  match s.firstOf? ["expr", "function"] with
  | some ("function", .list [id, type, columns]) => do
    return .function (← id.uint32?) (← DataType.ofStored? type) (← columns.items? functionColumn?)
  | some ("expr", e) => (Expr.ofStored? c e).map .expr
  | _ => s.short?.map .column

end IndexKey

/-! ## Indexes -/

namespace Index

def stored (i : Index Float) : Stored :=
  .record [("oid", .int i.oid.toNat), ("am", .text i.method.label),
    ("keys", .list (i.keys.map IndexKey.stored)),
    ("ordering", .list (i.ordering.map fun op => .int op.toNat)),
    ("unique", .bool i.unique), ("partial", .bool i.isPartial), ("ncolumns", .int i.keys.length),
    ("predicate", .list (i.predicate.map Expr.stored)), ("pages", .float i.pages),
    ("tuples", .float i.tuples)]

def ofStored? (c : OperatorCatalog Float) (s : Stored) : Option (Index Float) := do
  let method ← (s.member "am").getD .btree (Stored.named? AccessMethod.all AccessMethod.label)
  let keys ← (s.member "keys").items? (IndexKey.ofStored? c)
  let i : Index Float := .plain (← (s.member "oid").uint32?) method keys
  return { i with
    ordering := ← (s.member "ordering").items? c.ofStored?
    unique := ← (s.member "unique").getD false Stored.bool?
    predicate := ← (s.member "predicate").items? (Expr.ofStored? c)
    pages := ← (s.member "pages").getD i.pages (Stored.number? .query)
    tuples := ← (s.member "tuples").getD i.tuples (Stored.number? .query) }

end Index

end QueryPlanner
