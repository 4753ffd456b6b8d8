/-
  QueryPlanner.Path.Cost

  The costs of paths, by operator.

  A cost is split into what is paid before the first row and the run, what is
  paid for all of them.
-/

import QueryPlanner.Grouping
import QueryPlanner.IndexAccess
import QueryPlanner.Selectivity.MergeScan

namespace QueryPlanner

variable {α : Type} [Number α]

namespace Path

/-- The cost with a startup and a run. -/
def ofRun (startup run : α) : PathCost α := ⟨startup, startup + run⟩

/-! ## Scans -/

/-- The sequential scan of a base relation. -/
def seqScanCost (p : Planner α) (r : Relation α) (relid : RtIndex) :
    Except (PlanError α) (PathCost α) :=
  let params := p.settings.cost
  if r.relid? = some relid then
    .ok (ofRun 0 (params.seqPage * r.pages
      + (params.cpuTuple + qualCost params r.restrictionExprs) * r.tuples))
  else .error (.wrongSeqScan relid r.relids)

/-- The heap pages fetched for a number of tuples, if the whole heap stays in
memory. -/
def pagesFetched (pages tuples : α) : α :=
  Number.ceil (Number.min (2 * pages * tuples / (2 * pages + tuples)) pages)

/-- The scan of a base relation through an index.  Heap pages are fetched at
random for an index without correlation to the heap, and in sequence for one
in its order; the squared correlation lies between the two. -/
def indexScanCost (p : Planner α) (r : Relation α) (scan : IndexScan α) :
    Except (PlanError α) (PathCost α) := do
  if r.relid? = some scan.relid then
    let params := p.settings.cost
    let access ← IndexAccess.cost p r scan.index scan.quals
    let tuples := clampRows (access.selectivity * r.tuples)
    let pages := Number.max r.pages 1
    let most := pagesFetched pages tuples * params.randomPage
    let least := Number.ceil (access.selectivity * pages) * params.seqPage
    let heap := most + access.correlation * access.correlation * (least - most)
    let others := r.restrictionExprs.filter fun e => !scan.quals.contains e
    return ofRun access.startup (access.total - access.startup + heap
      + (params.cpuTuple + qualCost params others) * tuples)
  else throw (.wrongIndexScan scan.relid r.relids)

/-! ## Joins -/

/-- The rows that pass some clauses of a join, before any other is
checked. -/
def rowsPassing (p : Planner α) (join : Join α) (clauses : List (Clause α)) :
    Except (PlanError α) α := do
  let fraction ← Selectivity.clauseList p (clauses.map (·.expr)) none join.type
  return join.outer.rows * join.inner.rows * fraction

/-- The relations that a path's rows are of. -/
def relids (p : Planner α) (path : Path α) : Except (PlanError α) RelSet := do
  return (← p.relation path.parent).relids

/-- Every pair of rows is looked at; the first scan of the inner input is paid
for at the start. -/
def nestLoopCost (p : Planner α) (join : Join α) : PathCost α :=
  let params := p.settings.cost
  let outer := join.outer
  let inner := join.inner
  let scans := outer.total - outer.startup + outer.rows * (inner.total - inner.startup)
  let rescans := if 1 < outer.rows then scans + (outer.rows - 1) * inner.startup else scans
  let check := params.cpuTuple + qualCost params (join.restrictions.map (·.expr))
  ofRun (outer.startup + inner.startup) (rescans + check * outer.rows * inner.rows)

/-- Startup and run of reading a fraction of an input of a merge, sorted first
where sort keys are given. -/
def mergeInput (p : Planner α) (input : Path α) (sort : Pathkeys α) (fraction : α) : α × α :=
  if sort.isEmpty then (input.startup, (input.total - input.startup) * fraction)
  else
    let sorted := sortCost p.settings.cost input.total input.rows
    (sorted.startup, (sorted.total - sorted.startup) * fraction)

/-- Only the fraction of either input that is read before the other runs out
is paid for. -/
def mergeJoinCost (p : Planner α) (join : Join α) (clauses : List (Clause α))
    (outerSort innerSort : Pathkeys α) : Except (PlanError α) (PathCost α) := do
  match clauses with
  | [] => throw .noMergeClauses
  | first :: _ =>
    let params := p.settings.cost
    let scan ← Selectivity.mergeScan p first.expr
    let leftIsOuter := first.left.isSubset (← relids p join.outer)
    let outerFraction := if leftIsOuter then scan.left else scan.right
    let innerFraction := if leftIsOuter then scan.right else scan.left
    let outer := mergeInput p join.outer outerSort outerFraction
    let inner := mergeInput p join.inner innerSort innerFraction
    let compared := qualCost params (clauses.map (·.expr))
      * (join.outer.rows * outerFraction + join.inner.rows * innerFraction)
    let others := Clause.remaining clauses join.restrictions
    let check := params.cpuTuple + qualCost params (others.map (·.expr))
    let rows ← rowsPassing p join clauses
    return ofRun (outer.1 + inner.1) (outer.2 + inner.2 + compared + check * rows)

/-- Rows that a hash bucket is sized for. -/
def rowsPerBucket : α := 10

/-- The side of a clause that is hashed. -/
def hashKey (inner : RelSet) (c : Clause α) : Except (PlanError α) (Expr α) :=
  match if c.left.isSubset inner then c.leftExpr? else c.rightExpr? with
  | some e => .ok e
  | none => .error (.notHashable c.expr)

/-- The smallest fraction of the inner rows in one bucket that any clause
gives. -/
def bucketFraction (p : Planner α) (inner : RelSet) (buckets : Nat) (clauses : List (Clause α)) :
    Except (PlanError α) α :=
  clauses.foldlM (fun least c => do
    return Number.min least (← Grouping.bucketSize p (← hashKey inner c) buckets)) 1

/-- The inner input is read whole before the first probe, and every outer row
is compared with the rows of one bucket. -/
def hashJoinCost (p : Planner α) (join : Join α) (clauses : List (Clause α)) :
    Except (PlanError α) (PathCost α) := do
  let params := p.settings.cost
  let outer := join.outer
  let inner := join.inner
  let buckets := Number.toNat (Number.max (Number.ceil (inner.rows / rowsPerBucket)) 1)
  let fraction ← bucketFraction p (← relids p inner) buckets clauses
  let probes := params.cpuOperator * outer.rows * Number.ceil (inner.rows * fraction)
  let others := Clause.remaining clauses join.restrictions
  let check := params.cpuTuple + qualCost params (others.map (·.expr))
  let rows ← rowsPassing p join clauses
  return ofRun (outer.startup + inner.total + params.cpuOperator * inner.rows)
    (outer.total - outer.startup + params.cpuOperator * outer.rows + probes + check * rows)

/-! ## Paths -/

/-- The cost of an operator as a way of producing a relation. -/
def cost (p : Planner α) (r : Relation α) : PathOperator α → Except (PlanError α) (PathCost α)
  | .seqScan relid => seqScanCost p r relid
  | .indexScan scan => indexScanCost p r scan
  | .nestLoop join => .ok (nestLoopCost p join)
  | .mergeJoin join clauses outerSort innerSort =>
    mergeJoinCost p join clauses outerSort innerSort
  | .hashJoin join clauses => hashJoinCost p join clauses

/-- An operator costed as a path of a relation. -/
def build (p : Planner α) (r : Relation α) (operator : PathOperator α) (pathkeys : Pathkeys α) :
    Except (PlanError α) (Path α) := do
  let c ← cost p r operator
  return { parent := r.id, operator, rows := r.rows, startup := c.startup, total := c.total, pathkeys }

end Path

end QueryPlanner
