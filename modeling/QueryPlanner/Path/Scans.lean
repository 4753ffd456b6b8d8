/-
  QueryPlanner.Path.Scans

  The scans of a base relation: the sequential one, and of each index those
  worth having.

  A forward scan is worth having if some restriction bounds it or if it
  delivers an order.  A backward scan is worth having only for the order that
  the query asks for.
-/

import QueryPlanner.Path.Cost

namespace QueryPlanner

variable {α : Type} [Number α]

namespace Path

/-- The directions an index is worth reading in, each with the order it
delivers. -/
def scanOrders (p : Planner α) (r : Relation α) (index : Index α) :
    List (ScanDirection × Pathkeys α) :=
  let forward := IndexAccess.order p.operators r index .forward
  let backward := IndexAccess.order p.operators r index .backward
  (if (IndexAccess.quals p r index).isEmpty && forward.isEmpty then [] else [(.forward, forward)])
    ++ if 0 < Pathkeys.usefulFor p.queryPathkeys backward then [(.backward, backward)] else []

/-- The scans of a relation through one of its indexes. -/
def indexScans (p : Planner α) (r : Relation α) (relid : RtIndex) (index : Index α) :
    Except (PlanError α) (List (Path α)) :=
  (scanOrders p r index).mapM fun (direction, order) =>
    build p r (.indexScan ⟨relid, index, IndexAccess.quals p r index, direction⟩) order

/-- The scans of a base relation. -/
def scans (p : Planner α) (r : Relation α) : Except (PlanError α) (List (Path α)) := do
  match r.relid? with
  | none => throw (.notBaseRelation r.relids)
  | some relid =>
    let whole ← build p r (.seqScan relid) []
    let viaIndexes ← r.indexes.mapM (indexScans p r relid)
    return whole :: viaIndexes.flatten

end Path

/-- Offers a base relation its scans, once all of them are costed. -/
def PlanM.addScans (id : Nat) : PlanM α Unit := do
  let p ← get
  let r ← ofExcept (p.relation id)
  let paths ← ofExcept (Path.scans p r)
  modify (Planner.modifyRelation id (.offer paths))

end QueryPlanner
