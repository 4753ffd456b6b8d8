/-
  QueryPlanner.Cost

  Costs that several kinds of path share: checking quals, and sorting.
-/

import QueryPlanner.Expr
import QueryPlanner.Settings

namespace QueryPlanner

variable {α : Type} [Number α]

/-- The cost before the first row, and for all rows. -/
structure PathCost (α : Type) where
  startup : α
  total : α

/-- The cost of checking quals on one row: every operator and function is
evaluated once. -/
def qualCost (params : CostParams α) (quals : List (Expr α)) : α :=
  Number.sum (quals.map fun q => Number.ofNat q.operatorCount * params.cpuOperator)

/-- The cost of sorting rows produced at a cost: all comparisons come before
the first row, about `N log2 N` of them at two operator calls each. -/
def sortCost (params : CostParams α) (inputCost rows : α) : PathCost α :=
  let rows := Number.max rows 2
  let startup := inputCost + 2 * params.cpuOperator * rows * Number.log2 rows
  ⟨startup, startup + params.cpuOperator * rows⟩

end QueryPlanner
