/-
  QueryPlanner.Variable

  An expression bound to its relation and to the statistics that describe it.

  Where an estimate is for one relation, only columns of that relation are
  variables, and all else is as good as a constant.
-/

import QueryPlanner.Planner

namespace QueryPlanner

/-- System columns that identify a row, or its relation. -/
def rowIdentifier : AttrNumber := -1
def objectIdentifier : AttrNumber := -2
def relationIdentifier : AttrNumber := -7

/-- An expression with what is known of its values. -/
structure Variable (α : Type) where
  /-- The expression, without its relabeling if it belongs to a relation. -/
  expr : Expr α
  relation : Option (Relation α)
  statistics : Option (ColumnStatistics α)
  /-- The type that an operator sees. -/
  type : DataType
  /-- The type that statistics were gathered with. -/
  columnType : DataType
  columnTypmod : Int
  /-- A unique index proves the values distinct. -/
  isUnique : Bool
  /-- The most entries read from a slot. -/
  slotLimit : Nat

/-- The entries read from a statistics slot. -/
structure SlotView (α : Type) where
  values : List (Datum α)
  numbers : List α

namespace Variable

variable {α : Type} [Number α]

def nullFraction (v : Variable α) : α :=
  match v.statistics with
  | some s => s.nullFraction
  | none => 0

/-- The first slot of a kind, cut to the limit. -/
def slot? (v : Variable α) (kind : StatisticKind) (op : Option Oid) : Option (SlotView α) :=
  (v.statistics.bind (·.slot? kind op)).map fun slot =>
    ⟨slot.values.take v.slotLimit, slot.numbers.take v.slotLimit⟩

/-- The statistics snapshots held. -/
def borrowed (v : Variable α) : Nat := if v.statistics.isSome then 1 else 0

/-! ## Binding -/

/-- An estimate for one relation, if any, takes columns of this one as
variables. -/
def concerns (var : Option RtIndex) (r : RtIndex) : Bool :=
  match var with
  | none => true
  | some s => s == r

/-- An expression of which nothing is known. -/
def unbound (p : Planner α) (e : Expr α) : Variable α where
  expr := e
  relation := none
  statistics := none
  type := e.type
  columnType := e.type
  columnTypmod := e.typmod
  isUnique := false
  slotLimit := p.settings.statisticsTarget

/-- The expression below a relabeling bound to a relation, if there is one. -/
def bound (p : Planner α) (e : Expr α) (relation : Option (Relation α)) : Variable α :=
  match relation with
  | none => unbound p e
  | some r => { unbound p e with
      expr := e.stripRelabel
      relation := some r
      columnType := e.stripRelabel.type
      columnTypmod := e.stripRelabel.typmod }

/-- The computed keys of whole indexes that an expression is, with their
places from 1. -/
def indexKeysOf (indexes : List (Index α)) (e : Expr α) : List (Index α × AttrNumber) :=
  (indexes.filter fun i => !i.isPartial).flatMap fun i =>
    i.keys.zipIdx.filterMap fun (key, place) =>
      match key with
      | .expr k => if k.stripRelabel = e then some (i, ((place : Int) + 1)) else none
      | .column _ => none

/-- Whether some key proves the values distinct, and the statistics of the
first key that has any; keys behind that one are not looked at. -/
def fromIndexKeys (statistics : StatisticsProvider α) :
    List (Index α × AttrNumber) → Bool × Option (ColumnStatistics α)
  | [] => (false, none)
  | (i, place) :: rest =>
    let unique := i.unique && i.keys.length == 1
    match statistics.index i.oid place with
    | some s => (unique, some s)
    | none =>
      let (others, s) := fromIndexKeys statistics rest
      (unique || others, s)

/-- A column of a range table entry. -/
def ofColumn (p : Planner α) (e : Expr α) (v : Var) : Except (PlanError α) (Variable α) := do
  let r ← p.baseRelation v.relation
  let entry ← p.entry v.relation
  return { bound p e (some r) with
    statistics := entry.relation?.bind fun relation => p.statistics.column relation v.column }

/-- An expression over one relation, which an index may describe. -/
def ofComputed (p : Planner α) (e : Expr α) (relid : RtIndex) :
    Except (PlanError α) (Variable α) := do
  let r ← p.baseRelation relid
  let (unique, statistics) :=
    fromIndexKeys p.statistics (indexKeysOf r.indexes e.stripRelabel)
  return { bound p e (some r) with isUnique := unique, statistics := statistics }

/-- An expression over several relations, which belongs to their join, or to
the one relation that the estimate is for. -/
def ofSeveral (p : Planner α) (e : Expr α) (relids : RelSet) (var : Option RtIndex) :
    Except (PlanError α) (Variable α) := do
  match var with
  | none => return bound p e (p.joinRelation? relids)
  | some r => if relids.contains r then return bound p e (some (← p.baseRelation r))
              else return unbound p e

/-- Binds an expression that is no column of the relations in question. -/
def ofExpr (p : Planner α) (e : Expr α) (var : Option RtIndex) :
    Except (PlanError α) (Variable α) :=
  match e.stripRelabel.relations.membership with
  | .empty => .ok (unbound p e)
  | .single r => if concerns var r then ofComputed p e r else .ok (unbound p e)
  | .multiple => ofSeveral p e e.stripRelabel.relations var

/-- Binds an expression to its relation and statistics. -/
def examine (p : Planner α) (e : Expr α) (var : Option RtIndex) :
    Except (PlanError α) (Variable α) :=
  match e.stripRelabel with
  | .var v => if concerns var v.relation then ofColumn p e v else ofExpr p e var
  | _ => ofExpr p e var

/-! ## Operands -/

/-- A restriction split into the variable and the other operand. -/
structure Restriction (α : Type) where
  var : Variable α
  /-- The other operand, with relabeled constants folded. -/
  other : Expr α
  onLeft : Bool

/-- Both operands of a restriction; `none` if neither or both are
variables. -/
def restriction? (p : Planner α) (args : List (Expr α)) (var : Option RtIndex) :
    Except (PlanError α) (Option (Restriction α)) :=
  match args with
  | [a, b] => do
    let l ← examine p a var
    let r ← examine p b var
    match l.relation, r.relation with
    | some _, none => return some ⟨l, r.expr.fold, true⟩
    | none, some _ => return some ⟨r, l.expr.fold, false⟩
    | _, _ => return none
  | _ => .error (.restrictionArity args.length)

/-- Both operands of a join clause. -/
def joinOperands (p : Planner α) (args : List (Expr α)) :
    Except (PlanError α) (Variable α × Variable α) :=
  match args with
  | [a, b] => do return (← examine p a none, ← examine p b none)
  | _ => .error (.joinArity args.length)

/-! ## Distinct values and the greatest one -/

/-- The number of distinct values on record: positive as a count, negative as
the negated fraction of the rows, zero if unknown. -/
def recordedDistinct (v : Variable α) : α :=
  match v.statistics with
  | some s => s.distinct
  | none =>
    if v.type = .bool then 2
    else
      match v.expr with
      | .var c =>
        if c.column = objectIdentifier ∨ c.column = rowIdentifier then -1
        else if c.column = relationIdentifier then 1
        else 0
      | _ => 0

/-- A unique index proves the values distinct, of a column or of the
expression. -/
def provenUnique (v : Variable α) : Bool :=
  v.isUnique ||
    match v.expr, v.relation with
    | .var c, some r => r.hasUniqueIndex c.column
    | _, _ => false

/-- The estimated number of distinct values.  A unique index wins over
statistics, which may be stale. -/
def distinctCount (p : Planner α) (v : Variable α) : α :=
  let default := p.settings.selectivity.distinct
  let recorded := v.recordedDistinct
  let distinct : α := if !Number.equal recorded (-1) && v.provenUnique then -1 else recorded
  if 0 < distinct then distinct
  else
    match v.relation with
    | none => default
    | some r =>
      if 0 < r.tuples then
        if distinct < 0 then Number.max (Number.floor (-distinct * r.tuples + 0.5)) 1
        else if r.tuples < default then r.tuples
        else default
      else default

/-- The greater of a value and one seen before, under an operator. -/
def raise (op : Procedure α) (best : Option (Datum α)) (value : Datum α) : Option (Datum α) :=
  match best with
  | some b => if op.holds b value then some value else some b
  | none => some value

/-- The last bound of an ascending histogram, or the first of a descending
one; the answer is absent if the histogram is of another order. -/
def histogramEnd (p : Planner α) (v : Variable α) (sort : Oid) : Option (Option (Datum α)) :=
  match v.slot? .histogram (some sort) with
  | some h => some h.values.getLast?
  | none =>
    match (p.operators.commutator? sort).bind fun back => v.slot? .histogram (some back) with
    | some h => some h.values.head?
    | none => if (v.slot? .histogram none).isSome then none else some none

/-- The greatest value on record in the order of a sort operator. -/
def maximum? (p : Planner α) (v : Variable α) (sort : Oid) :
    Except (PlanError α) (Option (Datum α)) := do
  if v.statistics.isNone then return none
  match histogramEnd p v sort with
  | none => return none
  | some top =>
    match v.slot? .mcv none with
    | none => return top
    | some mcv => return mcv.values.foldl (raise (← p.operators.lookup sort).procedure) top

end Variable

end QueryPlanner
