/-
  QueryPlanner.Selectivity.Clause

  The fraction of rows that a clause keeps, and a list of clauses that all
  have to hold.

  Clauses count as independent, except that a lower and an upper bound on the
  same expression make a range, whose share is what both bounds leave of the
  whole.
-/

import QueryPlanner.Selectivity.Join
import QueryPlanner.Selectivity.Match

namespace QueryPlanner.Selectivity

variable {α : Type} [Number α]

/-! ## Operators -/

/-- `args[0] op args[1]` as a restriction of one relation, or of any. -/
def restriction (p : Planner α) (opno : Oid) (args : List (Expr α)) (var : Option RtIndex) :
    Except (PlanError α) α := do
  let op ← p.operators.lookup opno
  let fraction ←
    match op.restrict with
    | some .equality => equality p opno args var
    | some .inequality => inequality p opno args var
    | some .scalarLess => scalar p opno false args var
    | some .scalarGreater => scalar p opno true args var
    | some (.matching kind) => matching p args var kind
    | some (.notMatching kind) => (1 - ·) <$> matching p args var kind
    | none => pure p.settings.selectivity.boolean
  return clampProbability fraction

/-- `args[0] op args[1]` as a join clause, relative to all pairs of rows. -/
def joinClause (p : Planner α) (opno : Oid) (args : List (Expr α)) (type : JoinType) :
    Except (PlanError α) α := do
  let op ← p.operators.lookup opno
  let fraction ←
    match op.join with
    | some .equality => joinEquality p opno args type
    | some .inequality => joinInequality p opno args type
    | some .scalarLess | some .scalarGreater => pure p.settings.selectivity.inequality
    | some (.matching _) => pure p.settings.selectivity.matching
    | some (.notMatching _) => pure (1 - p.settings.selectivity.matching)
    | none => pure p.settings.selectivity.boolean
  return clampProbability fraction

/-! ## Ranges -/

/-- The bounds found on one expression. -/
structure Bounds (α : Type) where
  expr : Expr α
  lower : Option α
  upper : Option α

/-- A bound, or the smaller of two. -/
def tighten (bound : Option α) (fraction : α) : Option α :=
  match bound with
  | some b => some (Number.min b fraction)
  | none => some fraction

/-- Adds a bound on an expression. -/
def addBound (e : Expr α) (isLower : Bool) (fraction : α) : List (Bounds α) → List (Bounds α)
  | [] => [if isLower then ⟨e, some fraction, none⟩ else ⟨e, none, some fraction⟩]
  | b :: rest =>
    if b.expr = e then
      (if isLower then { b with lower := tighten b.lower fraction }
       else { b with upper := tighten b.upper fraction }) :: rest
    else b :: addBound e isLower fraction rest

/-- Fixed while rows are read: nothing volatile, and no column of the relation
the estimate is for, or none at all. -/
def isFixed (e : Expr α) (var : Option RtIndex) : Bool :=
  match var with
  | some r => !e.relations.contains r && !e.isVolatile
  | none => e.isPseudoConstant

/-- The bounded operand of a comparison, and whether it is the left one. -/
def bounded? (e l r : Expr α) (var : Option RtIndex) : Option (Expr α × Bool) :=
  if var.isSome || e.relations.size == 1 then
    match isFixed l var, isFixed r var with
    | false, true => some (l, true)
    | true, false => some (r, false)
    | _, _ => none
  else none

/-- A clause as a bound on an expression: the expression, and whether the
bound is a lower one. -/
def bound? (p : Planner α) (e : Expr α) (var : Option RtIndex) : Option (Expr α × Bool) :=
  match e.binary? with
  | none => none
  | some (opno, l, r) =>
    match bounded? e l r var, (p.operators.get? opno).bind (·.restrict) with
    | some (x, onLeft), some .scalarLess => some (x, !onLeft)
    | some (x, onLeft), some .scalarGreater => some (x, onLeft)
    | _, _ => none

/-- What a list of clauses comes to before its ranges are estimated: the
product of the independent clauses, and the bounds. -/
structure Conjunction (α : Type) where
  product : α
  bounds : List (Bounds α)

/-- One more clause with its own fraction. -/
def Conjunction.add (p : Planner α) (var : Option RtIndex) (c : Conjunction α) (e : Expr α)
    (fraction : α) : Conjunction α :=
  match bound? p e var with
  | some (x, isLower) => { c with bounds := addBound x isLower fraction c.bounds }
  | none => { c with product := c.product * fraction }

/-- The fraction of rows between two bounds, both of which leave out the
nulls. -/
def between (p : Planner α) (e : Expr α) (lower upper : α) (var : Option RtIndex) :
    Except (PlanError α) α := do
  let defaults := p.settings.selectivity
  if Number.equal lower defaults.inequality || Number.equal upper defaults.inequality then
    return defaults.range
  else
    let range := upper + lower - 1 + (← nullTest p .isNull e var)
    if 0 < range then return range
    else if range < disagreement then return defaults.range
    else return tinyRange

/-- The fraction of rows within bounds. -/
def Bounds.fraction (p : Planner α) (var : Option RtIndex) (b : Bounds α) :
    Except (PlanError α) α :=
  match b.lower, b.upper with
  | some lo, some hi => between p b.expr lo hi var
  | some f, none => .ok f
  | none, some f => .ok f
  | none, none => .ok 1

/-- The fraction of rows that clauses keep together, from the fraction that
each keeps. -/
def together (p : Planner α) (var : Option RtIndex) (clauses : List (Expr α × α)) :
    Except (PlanError α) α := do
  let c := clauses.foldl (fun (c : Conjunction α) x => c.add p var x.1 x.2) ⟨1, []⟩
  let product ← c.bounds.foldlM (fun acc b => do return acc * (← b.fraction p var)) c.product
  return clampProbability product

/-! ## Clauses -/

/-- A guess for a boolean function. -/
def functionFraction : α := 0.3333333

/-- A boolean column, which stands for `column = true`. -/
def booleanColumn (p : Planner α) (v : Var) (var : Option RtIndex) : Except (PlanError α) α := do
  match (← p.entry v.relation).relation? with
  | none => return 1
  | some _ =>
    match p.operators.find? "=" .bool .bool with
    | none => throw .noBooleanEquality
    | some opno => restriction p opno [.var v, .const .bool (some (.bool true))] var

/-- Either of two independent events. -/
def either (a b : α) : α := a + b - a * b

mutual

/-- The fraction of rows a clause keeps.  Without a relation in question an
operator over several relations is a join clause. -/
def clause (p : Planner α) (var : Option RtIndex) (type : JoinType) :
    Expr α → Except (PlanError α) α
  | .var v => if Variable.concerns var v.relation then booleanColumn p v var else .ok 1
  | .const _ (some (.bool true)) => .ok 1
  | .const .. => .ok 0
  | .relabel a _ _ => clause p var type a
  | .func .. => .ok functionFraction
  | .op opno args =>
    if var.isNone && decide (1 < (Expr.op opno args).relations.size) then
      joinClause p opno args type
    else restriction p opno args var
  | .boolTest test a => boolTest p test a var fun _ => clause p var type a
  | .nullTest test a => nullTest p test a var
  | .and args => do
    let fractions ← each p var type args
    together p var (args.zip fractions)
  | .or args => do
    let fractions ← each p var type args
    return fractions.foldl either 0
  | .not a => do return 1 - (← clause p var type a)

/-- The fraction that each clause of a list keeps. -/
def each (p : Planner α) (var : Option RtIndex) (type : JoinType) :
    List (Expr α) → Except (PlanError α) (List α)
  | [] => .ok []
  | e :: rest => do
    let f ← clause p var type e
    let fs ← each p var type rest
    return f :: fs

end

/-- The fraction of rows that a list of clauses keeps. -/
def clauseList (p : Planner α) (clauses : List (Expr α)) (var : Option RtIndex)
    (type : JoinType) : Except (PlanError α) α := do
  let fractions ← each p var type clauses
  together p var (clauses.zip fractions)

end QueryPlanner.Selectivity
