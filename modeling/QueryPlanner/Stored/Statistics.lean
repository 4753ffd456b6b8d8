/-
  QueryPlanner.Stored.Statistics

  The stored form of column statistics.  The operator, values and numbers of
  a slot, the width and the slots may be left out; statistics given with a
  query may leave out the fractions too, and name their operators.
-/

import QueryPlanner.Statistics
import QueryPlanner.Stored.Expr

namespace QueryPlanner

/-! ## Slots -/

namespace StatisticsSlot

def stored (s : StatisticsSlot Float) : Stored :=
  .record [("kind", .text s.kind.label), ("op", .int s.op.toNat),
    ("values", .list (s.values.map Datum.stored)), ("numbers", .list (s.numbers.map .float))]

def ofStored? (s : Stored) : Option (StatisticsSlot Float) := do
  let get ← s.members? ["kind", "op", "values", "numbers"]
  return {
    kind := ← (← get "kind").choice? StatisticKind.all StatisticKind.label
    op := ← Stored.memberOr get "op" 0 Stored.uint32?
    values := ← Stored.memberOr get "values" [] (Stored.list? (Datum.ofStored? .file))
    numbers := ← Stored.memberOr get "numbers" [] (Stored.list? (Stored.number? .file)) }

def ofQuery? (c : OperatorCatalog Float) (s : Stored) : Option (StatisticsSlot Float) := do
  return {
    kind := ← (s.member "kind").named? StatisticKind.all StatisticKind.label
    op := ← (s.member "op").getD 0 c.ofStored?
    values := ← (s.member "values").items? (Datum.ofStored? .query)
    numbers := ← (s.member "numbers").items? (Stored.number? .query) }

end StatisticsSlot

/-! ## Columns -/

namespace ColumnStatistics

def stored (s : ColumnStatistics Float) : Stored :=
  .record [("null_frac", .float s.nullFraction), ("avg_width", .int s.averageWidth.toInt),
    ("n_distinct", .float s.distinct), ("slots", .list (s.slots.map StatisticsSlot.stored))]

def ofStored? (s : Stored) : Option (ColumnStatistics Float) := do
  let get ← s.members? ["null_frac", "avg_width", "n_distinct", "slots"]
  return {
    nullFraction := ← (← get "null_frac").number? .file
    averageWidth := ← Stored.memberOr get "avg_width" 0 Stored.int32?
    distinct := ← (← get "n_distinct").number? .file
    slots := ← Stored.memberOr get "slots" [] (Stored.list? StatisticsSlot.ofStored?) }

def ofQuery? (c : OperatorCatalog Float) : Stored → Option (ColumnStatistics Float)
  | .record members => do
    let s := Stored.record members
    return {
      nullFraction := ← (s.member "null_frac").getD 0 (Stored.number? .query)
      averageWidth := ← (s.member "avg_width").getD 0 Stored.int32?
      distinct := ← (s.member "n_distinct").getD 0 (Stored.number? .query)
      slots := ← (s.member "slots").items? (StatisticsSlot.ofQuery? c) }
  | _ => none

end ColumnStatistics

/-! ## Entries -/

namespace StatisticsEntry

def stored (e : StatisticsEntry Float) : Stored :=
  .record [("relation", .int e.relation.toNat), ("attnum", .int e.position),
    ("stats", e.statistics.stored)]

def ofStored? (s : Stored) : Option (StatisticsEntry Float) := do
  let get ← s.members? ["relation", "attnum", "stats"]
  return {
    relation := ← (← get "relation").uint32?
    position := ← (← get "attnum").short?
    statistics := ← ColumnStatistics.ofStored? (← get "stats") }

def ofQuery? (c : OperatorCatalog Float) (s : Stored) : Option (StatisticsEntry Float) := do
  return {
    relation := ← (s.member "relation").uint32?
    position := ← (s.member "attnum").short?
    statistics := ← ColumnStatistics.ofQuery? c (s.member "stats") }

end StatisticsEntry

end QueryPlanner
