/-
  QueryPlanner.Selectivity.Test

  The fraction of rows that null tests and boolean tests keep.
-/

import QueryPlanner.Selectivity.Equality

namespace QueryPlanner.Selectivity

variable {α : Type} [Number α]

/-- `arg IS [NOT] NULL`. -/
def nullTest (p : Planner α) (test : NullTest) (arg : Expr α) (var : Option RtIndex) :
    Except (PlanError α) α := do
  let v ← Variable.examine p arg var
  return clampProbability <|
    match v.statistics, test with
    | some s, .isNull => s.nullFraction
    | some s, .isNotNull => 1 - s.nullFraction
    | none, .isNull => p.settings.selectivity.unknown
    | none, .isNotNull => p.settings.selectivity.notUnknown

/-- The frequency of `true`, if a most common value tells. -/
def trueFrequency? (nullFraction : α) (mcv : Option (SlotView α)) : Option α :=
  match mcv with
  | some ⟨first :: _, frequency :: _⟩ =>
    match first with
    | .bool true => some frequency
    | _ => some (1 - frequency - nullFraction)
  | _ => none

/-- The fraction of rows a boolean test keeps, given the null fraction and the
frequency of `true`; without the latter both truth values share the rest. -/
def testFrequency (nullFraction : α) (trues : Option α) (test : BoolTest) : α :=
  match test, trues with
  | .isUnknown, _ => nullFraction
  | .isNotUnknown, _ => 1 - nullFraction
  | .isTrue, some t => t
  | .isNotTrue, some t => 1 - t
  | .isFalse, some t => 1 - t - nullFraction
  | .isNotFalse, some t => 1 - (1 - t - nullFraction)
  | _, none => (1 - nullFraction) / 2

/-- `arg IS [NOT] TRUE`, `FALSE` or `UNKNOWN`.  Without statistics the
argument counts as a clause, whose estimate is `plain`. -/
def boolTest (p : Planner α) (test : BoolTest) (arg : Expr α) (var : Option RtIndex)
    (plain : Unit → Except (PlanError α) α) : Except (PlanError α) α := do
  let v ← Variable.examine p arg var
  match v.statistics with
  | some s =>
    return clampProbability
      (testFrequency s.nullFraction (trueFrequency? s.nullFraction (v.slot? .mcv none)) test)
  | none =>
    match test with
    | .isUnknown => return clampProbability p.settings.selectivity.unknown
    | .isNotUnknown => return clampProbability p.settings.selectivity.notUnknown
    | .isTrue | .isNotFalse => return clampProbability (← plain ())
    | .isFalse | .isNotTrue => return clampProbability (1 - (← plain ()))

end QueryPlanner.Selectivity
