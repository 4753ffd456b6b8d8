/-
  QueryPlanner.Planner

  The state of a planning session, and the operations on it.

  Estimators read a `Planner`; builders are `PlanM` programs.  A program that
  fails ends with the state it had reached.
-/

import QueryPlanner.Relation
import QueryPlanner.Settings
import QueryPlanner.Statistics

namespace QueryPlanner

/-- Everything that one planning session knows.  Relations are numbered by
their place in the list, and the numbers of base relations and of joins are
kept apart, in step with it. -/
structure Planner (α : Type) where
  settings : Settings α
  operators : OperatorCatalog α
  catalog : RelationSource α
  /-- The statistics as the session sees them, through a cache of its own. -/
  statistics : StatisticsProvider α
  /-- Range table positions count from 1. -/
  rangeTable : List RangeTableEntry
  relations : List (Relation α)
  /-- The base relation of each position that has one. -/
  baseIds : List (RtIndex × Nat) := Relation.baseIds relations
  /-- The joins in the order they were built. -/
  joinIds : List Nat := Relation.joinIds relations
  baseIds_eq : baseIds = Relation.baseIds relations := by rfl
  joinIds_eq : joinIds = Relation.joinIds relations := by rfl
  /-- Clauses without columns, checked once per execution. -/
  constantClauses : List (Clause α)
  /-- The ordering the result should have. -/
  queryPathkeys : Pathkeys α
  /-- The identity of the next clause. -/
  nextClause : Nat

/-- A program on the state of a session. -/
abbrev PlanM (α : Type) := EStateM (PlanError α) (Planner α)

/-- A result that needs no state, as a program. -/
def PlanM.ofExcept {α β : Type} : Except (PlanError α) β → PlanM α β
  | .ok b => pure b
  | .error e => throw e

namespace Planner

variable {α : Type} [Number α]

/-- A session before anything is built. -/
def start (settings : Settings α) (operators : OperatorCatalog α) (catalog : RelationSource α)
    (statistics : StatisticsProvider α) (rangeTable : List RangeTableEntry) : Planner α where
  settings := settings
  operators := operators
  catalog := catalog
  statistics := statistics
  rangeTable := rangeTable
  relations := []
  constantClauses := []
  queryPathkeys := []
  nextClause := 0

/-- The range table entry at a position. -/
def entry (p : Planner α) (relid : RtIndex) : Except (PlanError α) RangeTableEntry :=
  match if 0 < relid then p.rangeTable[relid - 1]? else none with
  | some e => .ok e
  | none => .error (.noRangeTableEntry relid)

/-- The relation with a number. -/
def relation (p : Planner α) (id : Nat) : Except (PlanError α) (Relation α) :=
  match p.relations[id]? with
  | some r => .ok r
  | none => .error (.unknownRelationNumber id)

/-- The relation built for a range table position. -/
def baseRelation? (p : Planner α) (relid : RtIndex) : Option (Relation α) :=
  (p.baseIds.lookup relid).bind (p.relations[·]?)

/-- The relation that has to be built for a range table position. -/
def baseRelation (p : Planner α) (relid : RtIndex) : Except (PlanError α) (Relation α) :=
  match p.baseRelation? relid with
  | some r => .ok r
  | none => .error (.noBaseRelation relid)

/-- The join built of exactly these relations. -/
def joinRelation? (p : Planner α) (relids : RelSet) : Option (Relation α) :=
  (p.joinIds.filterMap (p.relations[·]?)).find? (·.relids = relids)

/-- The base relations in the order they were built. -/
def baseRelations (p : Planner α) : List (Relation α) :=
  p.baseIds.filterMap fun (_, id) => p.relations[id]?

/-- The join relations in the order they were built. -/
def joinRelations (p : Planner α) : List (Relation α) :=
  p.joinIds.filterMap (p.relations[·]?)

/-- Adds a relation behind the others, and its number to those of its kind. -/
def addRelation (r : Relation α) (p : Planner α) : Planner α :=
  { p with
    relations := p.relations ++ [r]
    baseIds := p.baseIds ++ (r.relid?.map (·, p.relations.length)).toList
    joinIds := p.joinIds ++ if r.kind = .join then [p.relations.length] else []
    baseIds_eq := by rw [p.baseIds_eq, Relation.baseIds_append]
    joinIds_eq := by rw [p.joinIds_eq, Relation.joinIds_append] }

/-- Changes one relation. -/
def modifyRelation (id : Nat) (f : Relation.Edit α) (p : Planner α) : Planner α :=
  { p with
    relations := p.relations.modify id f
    baseIds_eq := by rw [p.baseIds_eq, Relation.baseIds_modify]
    joinIds_eq := by rw [p.joinIds_eq, Relation.joinIds_modify] }

end Planner

end QueryPlanner
