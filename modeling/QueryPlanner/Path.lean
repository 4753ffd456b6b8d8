/-
  QueryPlanner.Path

  Paths, the ways of producing the rows of a relation, and the list of paths
  worth keeping.

  A path is dropped when another is at least as cheap to start and to finish
  and at least as well ordered.
-/

import QueryPlanner.Catalog
import QueryPlanner.JoinType
import QueryPlanner.Pathkeys

namespace QueryPlanner

/-- A scan of a relation through an index.  The quals bound the part of the
index visited. -/
structure IndexScan (α : Type) where
  relid : RtIndex
  index : Index α
  quals : List (Expr α)
  direction : ScanDirection

mutual

/-- The inputs shared by all join methods. -/
structure Join (α : Type) where
  type : JoinType
  outer : Path α
  inner : Path α
  /-- The clauses applied at the join. -/
  restrictions : List (Clause α)

/-- What a path does. -/
inductive PathOperator (α : Type) where
  | seqScan (relid : RtIndex)
  | indexScan (scan : IndexScan α)
  /-- Reads the inner input once per outer row. -/
  | nestLoop (join : Join α)
  /-- Walks both inputs in the order of the clauses, sorting an input first
  where sort keys are given. -/
  | mergeJoin (join : Join α) (clauses : List (Clause α)) (outerSort innerSort : Pathkeys α)
  /-- Probes a table of the inner rows with each outer row. -/
  | hashJoin (join : Join α) (clauses : List (Clause α))

/-- A way of producing the rows of the relation numbered `parent`. -/
structure Path (α : Type) where
  parent : Nat
  operator : PathOperator α
  rows : α
  startup : α
  total : α
  /-- The order of the rows. -/
  pathkeys : Pathkeys α

end

/-- The cost looked at first. -/
inductive CostCriterion where
  | startup
  | total
deriving DecidableEq

def CostCriterion.label : CostCriterion → String
  | .startup => "startup" | .total => "total"

/-- The first of the smallest elements of a list. -/
def firstMin? {β : Type} (cmp : β → β → Ordering) : List β → Option β
  | [] => none
  | x :: xs => some (xs.foldl (fun best y => if cmp best y = .gt then y else best) x)

namespace Path

variable {α : Type} [Number α]

/-- How two costs lie to each other; costs that cannot be compared count as
equal. -/
def compareCost (a b : α) : Ordering := (Number.compare? a b).getD .eq

/-- Compares paths by a criterion, and by the other cost where that ties. -/
def compareCosts (criterion : CostCriterion) (a b : Path α) : Ordering :=
  match criterion with
  | .startup => (compareCost a.startup b.startup).then (compareCost a.total b.total)
  | .total => (compareCost a.total b.total).then (compareCost a.startup b.startup)

/-! ## The list of paths -/

/-- The cheapest path by a criterion. -/
def cheapest? (criterion : CostCriterion) (paths : List (Path α)) : Option (Path α) :=
  firstMin? (compareCosts criterion) paths

/-- The cheapest path with an ordering. -/
def cheapestFor? (criterion : CostCriterion) (required : Pathkeys α) (paths : List (Path α)) :
    Option (Path α) :=
  cheapest? criterion (paths.filter fun p => Pathkeys.containedIn required p.pathkeys)

/-- The place of the cheapest path in its list. -/
def cheapestPosition? (criterion : CostCriterion) (paths : List (Path α)) : Option Nat :=
  (firstMin? (fun a b => compareCosts criterion a.1 b.1) paths.zipIdx).map (·.2)

/-- What becomes of a new path and of an old one when they meet. -/
inductive Meeting where
  | keepBoth
  | dropOld
  | dropNew
deriving DecidableEq

/-- A new path against an old one.  Paths that trade startup against total
cost are both kept. -/
def meet (new old : Path α) : Meeting :=
  let total := compareCosts .total new old
  let startup := compareCosts .startup new old
  if total = .eq ∨ total = startup then
    match Pathkeys.compare new.pathkeys old.pathkeys with
    | .equal => if total = .lt then .dropOld else .dropNew
    | .better1 => if total ≠ .gt then .dropOld else .keepBoth
    | .better2 => if total ≠ .lt then .dropNew else .keepBoth
    | .different => .keepBoth
  else .keepBoth

/-- The paths of a list that a new one leaves, with the new one at the end
unless it is dropped; once it is dropped the rest stays as it is. -/
def add (new : Path α) : List (Path α) → List (Path α)
  | [] => [new]
  | old :: rest =>
    match meet new old with
    | .keepBoth => old :: add new rest
    | .dropOld => add new rest
    | .dropNew => old :: rest

/-- Adds paths one after the other. -/
def addAll (new old : List (Path α)) : List (Path α) := new.foldl (fun ps p => add p ps) old

end Path

/-! ## Text -/

mutual

/-- The text of an operator with those of its inputs. -/
def PathOperator.display : PathOperator Float → String
  | .seqScan relid => "SeqScan(" ++ toString relid ++ ")"
  | .indexScan scan =>
    "IndexScan(" ++ toString scan.relid ++ " using " ++ toString scan.index.oid.toNat ++ ")"
  | .nestLoop join => "NestLoop " ++ join.display
  | .mergeJoin join _ _ _ => "MergeJoin " ++ join.display
  | .hashJoin join _ => "HashJoin " ++ join.display

def Join.display : Join Float → String
  | ⟨type, outer, inner, _⟩ =>
    type.label ++ " (" ++ outer.operatorText ++ ", " ++ inner.operatorText ++ ")"

/-- The text of a path's operator. -/
def Path.operatorText : Path Float → String
  | ⟨_, operator, _, _, _, _⟩ => operator.display

end

end QueryPlanner
