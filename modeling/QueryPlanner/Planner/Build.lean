/-
  QueryPlanner.Planner.Build

  Building the relations of a session and distributing the query's clauses
  over them.

  A clause over one relation restricts it.  A clause over several waits in the
  join info of each of them until the others have been joined in; a join takes
  the clauses that nothing more is missing for, and carries the rest on.
-/

import QueryPlanner.Selectivity.Clause

namespace QueryPlanner

variable {α : Type} [Number α]

/-! ## Base relations -/

namespace Relation

/-- The base relation of a range table entry. -/
def ofEntry (p : Planner α) (relid : RtIndex) : Except (PlanError α) (Relation α) := do
  let blank := Relation.blank p.relations.length .base (RelSet.singleton relid)
  match ← p.entry relid with
  | .subquery => return { blank with
      pages := p.settings.cost.placeholderPages
      tuples := p.settings.cost.placeholderTuples }
  | .stored relation =>
    let size ← p.catalog.size relation
    let indexes ← if size.indexed then p.catalog.indexes relation else pure []
    return { blank with
      pages := size.pages
      tuples := size.tuples
      indexed := size.indexed
      indexes := indexes.map (Index.bind relid) }

/-- The clauses of two inputs for which nothing outside their join is
missing. -/
def restrictionsOfJoin (relids : RelSet) (outer inner : Relation α) : List (Clause α) :=
  (outer.joinInfo ++ inner.joinInfo).foldl
    (fun cs info => if info.unjoined.isSubset relids then Clause.union cs info.clauses else cs) []

/-- The clauses of an input that still miss relations outside a join, added to
those that wait at the join. -/
def carryOn (relids : RelSet) (infos : List (JoinInfo α)) (input : Relation α) :
    List (JoinInfo α) :=
  input.joinInfo.foldl
    (fun infos info =>
      let unjoined := info.unjoined.difference relids
      if unjoined.isEmpty then infos
      else JoinInfo.update unjoined (Clause.union · info.clauses) infos) infos

/-- The sum of two widths, which has to fit their 32 bits. -/
def addWidths (v w : Int32) : Except (PlanError α) Int32 :=
  if (v + w).toInt = v.toInt + w.toInt then .ok (v + w) else .error .overflow

/-- The width of a pair of rows. -/
def pairWidth (outer inner : Relation α) : Except (PlanError α) Int32 :=
  addWidths outer.width inner.width

/-- The join of two relations, given the fraction of their pairs that its
restrictions keep and the width of a pair. -/
def ofJoin (id : Nat) (outer inner : Relation α) (fraction : α) (width : Int32) : Relation α :=
  let relids := outer.relids.union inner.relids
  { Relation.blank id .join relids with
    target := TargetList.join outer.target inner.target
    joinInfo := carryOn relids (carryOn relids [] outer) inner
    rows := clampRows (outer.rows * inner.rows * fraction)
    width := width }

end Relation

namespace Planner

/-- The width that statistics give a column, if they give one. -/
def recordedWidth? (p : Planner α) (relation : Option Oid) (e : Expr α) : Option Int32 :=
  match e, relation with
  | .var v, some relation =>
    ((p.statistics.column relation v.column).map (·.averageWidth)).filter (0 < ·)
  | _, _ => none

/-- The width of a row of a relation. -/
def rowWidth (p : Planner α) (r : Relation α) : Except (PlanError α) Int32 := do
  let relation ←
    match r.relid? with
    | some relid => (·.relation?) <$> p.entry relid
    | none => pure none
  r.target.foldlM (fun width t =>
    Relation.addWidths width ((p.recordedWidth? relation t.expr).getD t.expr.type.defaultWidth)) 0

end Planner

namespace PlanM

/-- The number of the base relation of a range table entry, built when it is
asked for first. -/
def baseRelation (relid : RtIndex) : PlanM α Nat := do
  let p ← get
  match p.baseIds.lookup relid with
  | some id => return id
  | none =>
    let r ← ofExcept (Relation.ofEntry p relid)
    modify (·.addRelation r)
    return r.id

/-- Adds an expression to the output of a base relation, once. -/
def addTarget (relid : RtIndex) (e : Expr α) : PlanM α Unit := do
  let id ← baseRelation relid
  modify (Planner.modifyRelation id (.target e))

/-- Estimates rows and width of a base relation from its restrictions. -/
def estimateSize (relid : RtIndex) : PlanM α Unit := do
  let p ← get
  let r ← ofExcept (p.baseRelation relid)
  let fraction ← ofExcept (Selectivity.clauseList p r.restrictionExprs (some relid) .inner)
  let width ← ofExcept (p.rowWidth r)
  modify (Planner.modifyRelation r.id (.size (clampRows (r.tuples * fraction)) width))

/-! ## Clauses -/

/-- An expression as a clause with an identity of its own. -/
def newClause (e : Expr α) : PlanM α (Clause α) := do
  let p ← get
  set { p with nextClause := p.nextClause + 1 }
  return Clause.analyze p.operators p.nextClause e

/-- A clause waits at one of its relations for the others. -/
def awaitOthers (c : Clause α) (relid : RtIndex) : PlanM α Unit := do
  let id ← baseRelation relid
  let others := c.required.difference (RelSet.singleton relid)
  modify (Planner.modifyRelation id (.filing c others))

/-- Attaches a clause to the relations that it reads; the operands of a join
clause have to be available above the scans. -/
def distribute (e : Expr α) : PlanM α (Clause α) := do
  let c ← newClause e
  match c.required.membership with
  | .empty => modify fun p => { p with constantClauses := p.constantClauses ++ [c] }
  | .single relid =>
    let id ← baseRelation relid
    modify (Planner.modifyRelation id (.restriction c))
  | .multiple =>
    c.required.members.forM (awaitOthers c)
    e.vars.forM fun v => addTarget v.relation (.var v)
  return c

/-! ## Joins -/

/-- The number of the join of two relations, built when it is asked for first,
with the clauses that apply at this join.  Which ones do depends on the two
inputs, so they are found anew every time. -/
def joinRelation (outer inner : Nat) : PlanM α (Nat × List (Clause α)) := do
  let p ← get
  let o ← ofExcept (p.relation outer)
  let i ← ofExcept (p.relation inner)
  if o.relids.overlaps i.relids then throw (.overlappingInputs o.relids i.relids)
  let relids := o.relids.union i.relids
  let restrictions := Relation.restrictionsOfJoin relids o i
  match p.joinRelation? relids with
  | some r => return (r.id, restrictions)
  | none =>
    let fraction ← ofExcept (Selectivity.clauseList p (restrictions.map (·.expr)) none .inner)
    let width ← ofExcept (o.pairWidth i)
    let r := Relation.ofJoin p.relations.length o i fraction width
    modify (·.addRelation r)
    return (r.id, restrictions)

end PlanM

end QueryPlanner
