/-
  QueryPlanner.Statistics

  What is known about the values of a column: null fraction, width, number of
  distinct values, and slots of sampled values and numbers.
-/

import QueryPlanner.Expr

namespace QueryPlanner

/-- The kinds of statistics slot. -/
inductive StatisticKind where
  /-- Most common values with their frequencies, most frequent first. -/
  | mcv
  /-- Equi-depth bounds of the values that are not most common. -/
  | histogram
  /-- Correlation of physical and logical order, a single number. -/
  | correlation
deriving DecidableEq

namespace StatisticKind

def all : List StatisticKind := [.mcv, .histogram, .correlation]

def label : StatisticKind → String
  | .mcv => "mcv" | .histogram => "histogram" | .correlation => "correlation"

end StatisticKind

/-- A statistics slot; `op` is the operator it was built with, `0` where none
matters. -/
structure StatisticsSlot (α : Type) where
  kind : StatisticKind
  op : Oid
  values : List (Datum α)
  numbers : List α

/-- The statistics of one column.  A positive `distinct` counts values, a
negative one is the negated fraction of the rows, and zero is unknown. -/
structure ColumnStatistics (α : Type) where
  nullFraction : α
  averageWidth : Int32
  distinct : α
  slots : List (StatisticsSlot α)

/-- The first slot of a kind, built with a given operator if one is asked for. -/
def ColumnStatistics.slot? {α : Type} (s : ColumnStatistics α) (kind : StatisticKind)
    (op : Option Oid) : Option (StatisticsSlot α) :=
  s.slots.find? fun slot =>
    slot.kind == kind && (match op with | some op => slot.op == op | none => true)

/-- Where statistics come from: those of a relation's column, and those of an
index column that is computed. -/
structure StatisticsProvider (α : Type) where
  column : Oid → AttrNumber → Option (ColumnStatistics α)
  index : Oid → AttrNumber → Option (ColumnStatistics α)

/-- One row of stored statistics. -/
structure StatisticsEntry (α : Type) where
  relation : Oid
  position : AttrNumber
  statistics : ColumnStatistics α

/-- Stored statistics, later rows in place of earlier ones. -/
structure StatisticsStore (α : Type) where
  entries : List (StatisticsEntry α)

namespace StatisticsStore

variable {α : Type}

/-- The statistics stored last under an identifier and position. -/
def find? (s : StatisticsStore α) (id : Oid) (position : AttrNumber) :
    Option (ColumnStatistics α) :=
  (s.entries.reverse.find? fun e => e.relation == id && e.position == position).map
    (·.statistics)

/-- A store as a provider: index columns are stored under the index. -/
def provider (s : StatisticsStore α) : StatisticsProvider α := ⟨s.find?, s.find?⟩

end StatisticsStore

end QueryPlanner
