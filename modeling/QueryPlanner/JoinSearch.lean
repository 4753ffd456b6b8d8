/-
  QueryPlanner.JoinSearch

  Bottom-up search for the ways of joining all base relations.

  Base relations get their scans first.  Each further level joins the
  relations of the level before with one more base relation each, preferring
  those that a join clause links to them.  Every pair is tried both ways
  round, so the relation of the last level carries the plans for the whole
  query.
-/

import QueryPlanner.JoinGraph
import QueryPlanner.Path.Joins
import QueryPlanner.Planner.Build

namespace QueryPlanner.JoinSearch

variable {α : Type} [Number α]

/-- The graph of a session's base relations. -/
def graph (p : Planner α) : JoinGraph := JoinGraph.ofRelations p.baseRelations

/-- Builds the scans of every base relation and returns the relations, the
first level. -/
def start : PlanM α (List Nat) := do
  let bases := (← get).baseRelations.map (·.id)
  if bases.isEmpty then throw .nothingToJoin
  bases.forM PlanM.addScans
  return bases

/-- The members of a relation. -/
def relids (id : Nat) : PlanM α RelSet := do
  return (← PlanM.ofExcept ((← get).relation id)).relids

/-- Builds the join of two relations with the paths for both orders of its
inputs, and lists it in a level, once. -/
def joinPair (a b : Nat) (level : List Nat) : PlanM α (List Nat) := do
  let (join, forward) ← PlanM.joinRelation a b
  PlanM.addJoins join a b forward .inner
  let (_, backward) ← PlanM.joinRelation b a
  PlanM.addJoins join b a backward .inner
  return if level.contains join then level else level ++ [join]

/-- Joins relations with the base relations that they do not contain and that
are wanted for them. -/
def joinAll (wanted : RelSet → RelSet → Bool) (previous bases level : List Nat) :
    PlanM α (List Nat) :=
  previous.foldlM (fun level outer =>
    bases.foldlM (fun level inner => do
      let o ← relids outer
      let i ← relids inner
      if o.overlaps i || !wanted o i then return level else joinPair outer inner level) level)
    level

/-- The level behind a level.  A relation without links to others is joined
with every base relation, and so are all if that leaves the level empty. -/
def nextLevel (g : JoinGraph) (bases previous : List Nat) : PlanM α (List Nat) := do
  let linked ← joinAll (fun o i => !g.hasOutsideLinks o || g.linked o i) previous bases []
  if linked.isEmpty then joinAll (fun _ _ => true) previous bases [] else return linked

/-- The level a number of steps behind a level. -/
def climb (g : JoinGraph) (bases : List Nat) : Nat → List Nat → PlanM α (List Nat)
  | 0, level => return level
  | steps + 1, level => do
    let next ← nextLevel g bases level
    if next.isEmpty then throw .emptyLevel
    climb g bases steps next

/-- Plans the whole query: the relation that joins all base relations. -/
def search : PlanM α Nat := do
  let bases ← start
  let g := graph (← get)
  match ← climb g bases (bases.length - 1) bases with
  | [join] => return join
  | _ => throw .noSingleResult

end QueryPlanner.JoinSearch
