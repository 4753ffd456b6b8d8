/-
  QueryPlanner.Settings

  The settings of a planning session, with their defaults.
-/

import QueryPlanner.Number

namespace QueryPlanner

/-- Estimates used where statistics cannot answer. -/
structure SelectivityDefaults (α : Type) where
  /-- `column = constant`. -/
  equality : α
  /-- `column < constant` and the other orderings. -/
  inequality : α
  /-- A range whose bounds say nothing. -/
  range : α
  /-- Match operators. -/
  matching : α
  /-- Number of distinct values. -/
  distinct : α
  /-- `IS NULL` and `IS UNKNOWN`. -/
  unknown : α
  notUnknown : α
  /-- Operators without an estimate. -/
  boolean : α

/-- The units of cost. -/
structure CostParams (α : Type) where
  seqPage : α
  randomPage : α
  cpuTuple : α
  cpuIndexTuple : α
  cpuOperator : α
  /-- Size of relations that are not stored. -/
  placeholderPages : α
  placeholderTuples : α

/-- All settings of a session. -/
structure Settings (α : Type) where
  selectivity : SelectivityDefaults α
  cost : CostParams α
  /-- The most entries read from a statistics slot. -/
  statisticsTarget : Nat

variable {α : Type} [Number α]

def SelectivityDefaults.standard : SelectivityDefaults α where
  equality := 0.005
  inequality := 0.3333333333333333
  range := 0.005
  matching := 0.005
  distinct := 200
  unknown := 0.005
  notUnknown := 1 - 0.005
  boolean := 0.5

def CostParams.standard : CostParams α where
  seqPage := 1
  randomPage := 4
  cpuTuple := 0.01
  cpuIndexTuple := 0.001
  cpuOperator := 0.0025
  placeholderPages := 10
  placeholderTuples := 1000

def Settings.standard : Settings α := ⟨.standard, .standard, 100⟩

end QueryPlanner
