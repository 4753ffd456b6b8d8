/-
  QueryPlanner.Selectivity.Equality

  The fraction of rows that an equality with a constant keeps.

  A constant among the most common values, as the operator itself decides,
  has that value's frequency; other constants share what the common values
  leave over.
-/

import QueryPlanner.Variable

namespace QueryPlanner

variable {α : Type} [Number α]

/-- A fraction moved into `[0, 1]`. -/
def clampProbability (p : α) : α := if p < 0 then 0 else if 1 < p then 1 else p

namespace Selectivity

/-- What the other operand of a restriction is: a value, null, or unknown. -/
inductive Comparand (α : Type) where
  | value (d : Datum α) (type : DataType)
  | null
  | unknown

/-- The operand read as a comparand. -/
def comparand : Expr α → Comparand α
  | .const type (some d) => .value d type
  | .const _ none => .null
  | _ => .unknown

/-- The frequency of a value that is not among the most common ones: an even
share of the rest, and never more than the least of the common ones. -/
def uncommonFrequency (nullFraction distinct : α) (numbers : List α) : α :=
  let rest := clampProbability (1 - Number.sum numbers - nullFraction)
  let others := distinct - Number.ofNat numbers.length
  let share := if 1 < others then rest / others else rest
  match numbers.getLast? with
  | some least => Number.min share least
  | none => share

/-- The frequency of a value not known yet: the average over all values, and
never more than that of the most common one. -/
def averageFrequency (nullFraction distinct : α) (numbers : List α) : α :=
  let rest := 1 - nullFraction
  let share := if 1 < distinct then rest / distinct else rest
  match numbers.head? with
  | some most => Number.min share most
  | none => share

/-- The frequency of a given value. -/
def valueFrequency (holds : Datum α → Bool) (nullFraction distinct : α)
    (mcv : Option (SlotView α)) : α :=
  let values := match mcv with | some m => m.values | none => []
  let numbers := match mcv with | some m => m.numbers | none => []
  match (values.findIdx? holds).bind (numbers[·]?) with
  | some frequency => frequency
  | none => uncommonFrequency nullFraction distinct numbers

/-- The operator applied with the variable's value on its own side. -/
def applied (op : Procedure α) (onLeft : Bool) (value constant : Datum α) : Bool :=
  if onLeft then op.holds value constant else op.holds constant value

/-- `variable = something`. -/
def equality (p : Planner α) (opno : Oid) (args : List (Expr α)) (var : Option RtIndex) :
    Except (PlanError α) α := do
  match ← Variable.restriction? p args var with
  | none => return p.settings.selectivity.equality
  | some r =>
    match comparand r.other, r.var.statistics with
    | .null, _ => return 0
    | _, none => return clampProbability (1 / r.var.distinctCount p)
    | .value constant _, some s =>
      let op ← p.operators.lookup opno
      return clampProbability
        (valueFrequency (applied op.procedure r.onLeft · constant) s.nullFraction
          (r.var.distinctCount p) (r.var.slot? .mcv none))
    | .unknown, some s =>
      let numbers := match r.var.slot? .mcv none with | some m => m.numbers | none => []
      return clampProbability (averageFrequency s.nullFraction (r.var.distinctCount p) numbers)

/-- `variable <> something`, the complement of the equality that negates it. -/
def inequality (p : Planner α) (opno : Oid) (args : List (Expr α)) (var : Option RtIndex) :
    Except (PlanError α) α := do
  match p.operators.negator? opno with
  | some equal => return 1 - (← equality p equal args var)
  | none => return 1 - p.settings.selectivity.equality

end Selectivity

end QueryPlanner
