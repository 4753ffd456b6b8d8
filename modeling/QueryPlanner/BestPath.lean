/-
  QueryPlanner.BestPath

  The path chosen for the query's final relation: one in the order that the
  query asks for, or the cheapest with a sort behind it.
-/

import QueryPlanner.Cost
import QueryPlanner.Planner

namespace QueryPlanner

/-- A chosen path, and whether its rows have to be sorted. -/
structure BestPath (α : Type) where
  path : Path α
  sorted : Bool
  total : α

namespace BestPath

variable {α : Type} [Number α]

/-- A path whose rows are in order already. -/
def ordered (path : Path α) : BestPath α := ⟨path, false, path.total⟩

/-- A path with a sort behind it. -/
def sort (p : Planner α) (r : Relation α) (path : Path α) : BestPath α :=
  ⟨path, true, (sortCost p.settings.cost path.total r.rows).total⟩

/-- The cheapest way to deliver a relation in the order of the query. -/
def choose (p : Planner α) (id : Nat) : Except (PlanError α) (BestPath α) := do
  let r ← p.relation id
  match Path.cheapest? .total r.paths with
  | none => throw (.noPath r.relids)
  | some cheapest =>
    if p.queryPathkeys.isEmpty || Pathkeys.satisfies cheapest.pathkeys p.queryPathkeys then
      return ordered cheapest
    else
      let candidate := sort p r cheapest
      match Path.cheapestFor? .total p.queryPathkeys r.paths with
      | some presorted =>
        return if presorted.total ≤ candidate.total then ordered presorted else candidate
      | none => return candidate

end BestPath

end QueryPlanner
