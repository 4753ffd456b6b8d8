/-
  QueryPlanner.Path.Joins

  The join paths of two relations, one taken as the outer input and one as
  the inner.

  The cheapest inputs are merged behind two sorts and hashed; every outer path
  is also joined in the order it comes in, by a nested loop and, as far as its
  order allows, by a merge.
-/

import QueryPlanner.Path.Scans

namespace QueryPlanner

/-- Two relations to be joined into a third. -/
structure Pairing (α : Type) where
  join : Relation α
  outer : Relation α
  inner : Relation α
  type : JoinType
  /-- The clauses applied at the join. -/
  restrictions : List (Clause α)

namespace Pairing

variable {α : Type} [Number α]

/-- The clauses that a merge can follow: one operand from either input. -/
def mergeable (j : Pairing α) : List (Clause α) :=
  j.restrictions.filter fun c => c.isMergejoinable && c.separates j.outer.relids j.inner.relids

/-- The clauses that a hash table can be built on. -/
def hashable (j : Pairing α) : List (Clause α) :=
  j.restrictions.filter fun c => c.hash.isSome && c.separates j.outer.relids j.inner.relids

/-- A path for either input. -/
def ofInputs (j : Pairing α) (outer inner : Path α) : Join α :=
  ⟨j.type, outer, inner, j.restrictions⟩

/-- The order of a join whose outer input comes in an order. -/
def order (j : Pairing α) (outer : Pathkeys α) : Pathkeys α :=
  Pathkeys.ofJoin outer j.join.target j.restrictions

/-- The merge of the cheapest inputs, both sorted, if any clause allows
one. -/
def sortedMerge (p : Planner α) (j : Pairing α) (outer inner : Path α) :
    Except (PlanError α) (List (Path α)) := do
  match j.mergeable with
  | [] => return []
  | clauses =>
    let outerSort ← Pathkeys.ofMergeClauses clauses j.outer.target
    let innerSort ← Pathkeys.ofMergeClauses clauses j.inner.target
    let merge := PathOperator.mergeJoin (j.ofInputs outer inner) clauses outerSort innerSort
    return [← Path.build p j.join merge (j.order outerSort)]

/-- The merge of an outer path in its own order with the cheapest inner path
in a fitting order, or with the cheapest of all behind a sort. -/
def presortedMerge (p : Planner α) (j : Pairing α) (outer inner : Path α) :
    Except (PlanError α) (List (Path α)) := do
  match Pathkeys.findMergeClauses outer.pathkeys j.mergeable with
  | [] => return []
  | clauses =>
    let required ← Pathkeys.ofMergeClauses clauses j.inner.target
    let merge :=
      match Path.cheapestFor? .total required j.inner.paths with
      | some sorted => PathOperator.mergeJoin (j.ofInputs outer sorted) clauses [] []
      | none => PathOperator.mergeJoin (j.ofInputs outer inner) clauses [] required
    return [← Path.build p j.join merge (j.order outer.pathkeys)]

/-- The joins of one outer path in its own order. -/
def joinsOf (p : Planner α) (j : Pairing α) (inner outer : Path α) :
    Except (PlanError α) (List (Path α)) := do
  let nested ← Path.build p j.join (.nestLoop (j.ofInputs outer inner)) (j.order outer.pathkeys)
  let merged ← presortedMerge p j outer inner
  return nested :: merged

/-- The hash join of the cheapest inputs, if any clause allows one. -/
def hashed (p : Planner α) (j : Pairing α) (outer inner : Path α) :
    Except (PlanError α) (List (Path α)) := do
  match j.hashable with
  | [] => return []
  | clauses => return [← Path.build p j.join (.hashJoin (j.ofInputs outer inner) clauses) []]

/-- Every join path of two relations; none if an input has no path. -/
def paths (p : Planner α) (j : Pairing α) : Except (PlanError α) (List (Path α)) := do
  match Path.cheapest? .total j.outer.paths, Path.cheapest? .total j.inner.paths with
  | some outer, some inner =>
    let sorted ← sortedMerge p j outer inner
    let presorted ← j.outer.paths.mapM (joinsOf p j inner)
    let hash ← hashed p j outer inner
    return sorted ++ presorted.flatten ++ hash
  | _, _ => return []

end Pairing

/-- Offers a join its paths from two inputs, once all of them are costed. -/
def PlanM.addJoins {α : Type} [Number α] (join outer inner : Nat)
    (restrictions : List (Clause α)) (type : JoinType) : PlanM α Unit := do
  let p ← get
  let r ← ofExcept (p.relation join)
  let o ← ofExcept (p.relation outer)
  let i ← ofExcept (p.relation inner)
  let paths ← ofExcept (Pairing.paths p ⟨r, o, i, type, restrictions⟩)
  modify (Planner.modifyRelation join (.offer paths))

end QueryPlanner
