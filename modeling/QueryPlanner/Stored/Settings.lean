/-
  QueryPlanner.Stored.Settings

  The stored form of the settings.  A member that is left out has its default.
-/

import QueryPlanner.Settings
import QueryPlanner.Stored

namespace QueryPlanner

namespace SelectivityDefaults

def stored (d : SelectivityDefaults Float) : Stored :=
  .record [("eq_sel", .float d.equality), ("ineq_sel", .float d.inequality),
    ("range_ineq_sel", .float d.range), ("match_sel", .float d.matching),
    ("num_distinct", .float d.distinct), ("unk_sel", .float d.unknown),
    ("not_unk_sel", .float d.notUnknown), ("bool_sel", .float d.boolean)]

def ofStored? (s : Stored) : Option (SelectivityDefaults Float) := do
  let get ← s.members? ["eq_sel", "ineq_sel", "range_ineq_sel", "match_sel", "num_distinct",
    "unk_sel", "not_unk_sel", "bool_sel"]
  let number := fun name default => Stored.memberOr get name default (Stored.number? .file)
  let d : SelectivityDefaults Float := .standard
  return {
    equality := ← number "eq_sel" d.equality
    inequality := ← number "ineq_sel" d.inequality
    range := ← number "range_ineq_sel" d.range
    matching := ← number "match_sel" d.matching
    distinct := ← number "num_distinct" d.distinct
    unknown := ← number "unk_sel" d.unknown
    notUnknown := ← number "not_unk_sel" d.notUnknown
    boolean := ← number "bool_sel" d.boolean }

end SelectivityDefaults

namespace CostParams

def stored (c : CostParams Float) : Stored :=
  .record [("seq_page_cost", .float c.seqPage), ("random_page_cost", .float c.randomPage),
    ("cpu_tuple_cost", .float c.cpuTuple), ("cpu_index_tuple_cost", .float c.cpuIndexTuple),
    ("cpu_operator_cost", .float c.cpuOperator), ("placeholder_pages", .float c.placeholderPages),
    ("placeholder_tuples", .float c.placeholderTuples)]

def ofStored? (s : Stored) : Option (CostParams Float) := do
  let get ← s.members? ["seq_page_cost", "random_page_cost", "cpu_tuple_cost",
    "cpu_index_tuple_cost", "cpu_operator_cost", "placeholder_pages", "placeholder_tuples"]
  let number := fun name default => Stored.memberOr get name default (Stored.number? .file)
  let c : CostParams Float := .standard
  return {
    seqPage := ← number "seq_page_cost" c.seqPage
    randomPage := ← number "random_page_cost" c.randomPage
    cpuTuple := ← number "cpu_tuple_cost" c.cpuTuple
    cpuIndexTuple := ← number "cpu_index_tuple_cost" c.cpuIndexTuple
    cpuOperator := ← number "cpu_operator_cost" c.cpuOperator
    placeholderPages := ← number "placeholder_pages" c.placeholderPages
    placeholderTuples := ← number "placeholder_tuples" c.placeholderTuples }

end CostParams

namespace Settings

def stored (s : Settings Float) : Stored :=
  .record [("selectivity", s.selectivity.stored), ("cost", s.cost.stored),
    ("statistics_target", .int s.statisticsTarget)]

def ofStored? (s : Stored) : Option (Settings Float) := do
  let get ← s.members? ["selectivity", "cost", "statistics_target"]
  let d : Settings Float := .standard
  return {
    selectivity := ← Stored.memberOr get "selectivity" d.selectivity SelectivityDefaults.ofStored?
    cost := ← Stored.memberOr get "cost" d.cost CostParams.ofStored?
    statisticsTarget := ←
      Stored.memberOr get "statistics_target" d.statisticsTarget Stored.size? }

end Settings

end QueryPlanner
