/-
  QueryPlanner.IndexAccess

  Using an index: the restrictions it can apply, the order it delivers, and
  the cost of visiting it.
-/

import QueryPlanner.Cost
import QueryPlanner.Selectivity.Clause

namespace QueryPlanner.IndexAccess

variable {α : Type} [Number α]

/-! ## Restrictions and order -/

/-- An expression is the value of an index key. -/
def isKey (key : IndexKey α) (relid : RtIndex) (e : Expr α) : Bool :=
  match key, e.stripRelabel with
  | .column n, .var v => v.relation == relid && v.column == n
  | .column _, _ => false
  | .expr k, e => k = e

/-- An access method can look up a comparison with this estimate. -/
def supports (method : AccessMethod) (estimator : Option Estimator) : Bool :=
  match estimator with
  | some .equality => method = .btree || method = .hash
  | some .scalarLess | some .scalarGreater => method = .btree
  | _ => false

/-- A clause compares a key of an index with a value fixed for the scan, by
an operator that the access method supports. -/
def bounds (p : Planner α) (relid : RtIndex) (index : Index α) (e : Expr α) : Bool :=
  match e.binary? with
  | none => false
  | some (opno, l, r) =>
    supports index.method ((p.operators.get? opno).bind (·.restrict)) &&
      index.keys.any fun key =>
        (isKey key relid l && r.isPseudoConstant) || (isKey key relid r && l.isPseudoConstant)

/-- The restrictions of a relation that bound a scan of an index. -/
def quals (p : Planner α) (r : Relation α) (index : Index α) : List (Expr α) :=
  match r.relid? with
  | none => []
  | some relid => r.restrictionExprs.filter (bounds p relid index)

/-- A key as an expression over the relation's output, if the output shows
it; a computed key is shown by all of its columns. -/
def visibleKey? (relid : RtIndex) (target : TargetList α) : IndexKey α → Option (Expr α)
  | .column n =>
    (target.map (·.expr)).find? fun e =>
      match e with
      | .var v => v.relation == relid && v.column == n
      | _ => false
  | .expr e => if e.vars.all fun v => target.provides (.var v) then some e else none

/-- A sort operator for a direction of reading. -/
def directed? (operators : OperatorCatalog α) (direction : ScanDirection) (op : Oid) :
    Option Oid :=
  match direction with
  | .forward => some op
  | .backward => operators.commutator? op

/-- The order of keys up to the first that is not visible or has no sort
operator; a key that repeats says nothing new. -/
def orderOfKeys (operators : OperatorCatalog α) (relid : RtIndex) (target : TargetList α)
    (direction : ScanDirection) (acc : Pathkeys α) :
    List (IndexKey α × Oid) → Pathkeys α
  | [] => acc
  | (key, op) :: rest =>
    match directed? operators direction op, visibleKey? relid target key with
    | some op, some e =>
      orderOfKeys operators relid target direction (Pathkeys.addPosition acc [⟨e, op⟩]) rest
    | _, _ => acc

/-- The order in which a scan of an index delivers the rows of a relation. -/
def order (operators : OperatorCatalog α) (r : Relation α) (index : Index α)
    (direction : ScanDirection) : Pathkeys α :=
  match r.relid? with
  | none => []
  | some relid =>
    orderOfKeys operators relid r.target direction [] (index.keys.zip index.ordering)

/-! ## Cost -/

/-- The cost of visiting an index, the heap not included. -/
structure AccessCost (α : Type) where
  startup : α
  total : α
  /-- The fraction of the relation's rows that the quals select. -/
  selectivity : α
  /-- Correlation of index order and heap order, from -1 to 1. -/
  correlation : α

/-- The pages visited: the first, and a share of the others. -/
def visitedPages (index : Index α) (visited : α) : α :=
  if 1 < index.pages ∧ 0 < index.tuples then
    Number.ceil (visited / index.tuples * (index.pages - 1) + 1)
  else 1

/-- The quals that narrow a scan: those of the scan, and the clauses of the
predicate that are not among them. -/
def narrowing (index : Index α) (quals : List (Expr α)) : List (Expr α) :=
  (index.predicate.filter fun e => !quals.contains e) ++ quals

/-- The cost without regard to order: pages, and index tuples with each of
the quals. -/
def basicCost (p : Planner α) (r : Relation α) (index : Index α) (quals : List (Expr α)) :
    Except (PlanError α) (AccessCost α) := do
  let params := p.settings.cost
  match r.relid? with
  | none => throw (.indexScanOverJoin r.relids)
  | some relid =>
    let selectivity ←
      Selectivity.clauseList p (narrowing index quals) (some relid) .inner
    let visited := Number.max (Number.min (selectivity * r.tuples) index.tuples) 1
    let operators := params.cpuOperator * Number.ofNat quals.length
    let arguments := Number.max (qualCost params quals - operators) 0
    return {
      startup := arguments
      total := visitedPages index visited * params.seqPage + arguments
        + visited * (params.cpuIndexTuple + operators)
      selectivity := selectivity
      correlation := 0 }

/-- The statistics of the leading key. -/
def leadingStatistics (p : Planner α) (r : Relation α) (index : Index α) :
    Except (PlanError α) (Option (ColumnStatistics α)) := do
  match index.keys.head?, r.relid? with
  | some (.column n), some relid =>
    return (← p.entry relid).relation?.bind fun relation => p.statistics.column relation n
  | some (.expr _), _ => return p.statistics.index index.oid 1
  | _, _ => return none

/-- The correlation on record for the leading key; keys behind it dilute its
order. -/
def correlation (p : Planner α) (r : Relation α) (index : Index α) :
    Except (PlanError α) (Option α) := do
  match index.ordering.head? with
  | none => return none
  | some sort =>
    let s ← leadingStatistics p r index
    let recorded := (s.bind (·.slot? .correlation (some sort))).bind (·.numbers.head?)
    return recorded.map fun c => if 1 < index.keys.length then c * 0.75 else c

/-- The cost of visiting an index with some quals.  Only btrees keep an order
that can be correlated with the heap. -/
def cost (p : Planner α) (r : Relation α) (index : Index α) (quals : List (Expr α)) :
    Except (PlanError α) (AccessCost α) := do
  let basic ← basicCost p r index quals
  match index.method with
  | .btree =>
    match ← correlation p r index with
    | some c => return { basic with correlation := c }
    | none => return basic
  | _ => return basic

end QueryPlanner.IndexAccess
