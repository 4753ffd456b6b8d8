/-
  QueryPlanner.Grouping

  How many groups rows fall into, and how evenly they fill hash buckets.

  The distinct values of grouping expressions are multiplied, after those
  known to be equal to another have been left out, and bounded by the size of
  the relation they come from.
-/

import QueryPlanner.Variable
import QueryPlanner.Selectivity.Equality

namespace QueryPlanner

variable {α : Type} [Number α]

/-- A merge clause `a = b`, written either way round, is known to hold. -/
def Planner.knownEqual (p : Planner α) (a b : Expr α) : Bool :=
  (p.baseRelations.flatMap (·.joinClauses)).any fun c =>
    c.isMergejoinable &&
      match c.leftExpr?, c.rightExpr? with
      | some l, some r => (l = a && r = b) || (l = b && r = a)
      | _, _ => false

namespace Grouping

/-- A grouping expression with its relation and its number of distinct
values. -/
structure GroupVar (α : Type) where
  expr : Expr α
  relation : Option (Relation α)
  distinct : α

/-- Two expressions come from one relation. -/
def sameRelation (a b : Option (Relation α)) : Bool := a.map (·.id) == b.map (·.id)

/-- Adds a grouping expression.  Of two expressions of different relations
that are known to be equal the one with fewer values stays, the earlier one
if they have as many. -/
def addVar (p : Planner α) (new : GroupVar α) : List (GroupVar α) → List (GroupVar α)
  | [] => [new]
  | old :: rest =>
    if old.expr = new.expr then old :: rest
    else if !sameRelation new.relation old.relation && p.knownEqual new.expr old.expr then
      if old.distinct ≤ new.distinct then old :: rest else addVar p new rest
    else old :: addVar p new rest

/-- A variable as a grouping expression. -/
def groupVar (p : Planner α) (e : Expr α) (v : Variable α) : GroupVar α :=
  ⟨e, v.relation, v.distinctCount p⟩

/-- Adds the columns that an expression reads. -/
def addColumns (p : Planner α) (vars : List (GroupVar α)) (e : Expr α) :
    Except (PlanError α) (List (GroupVar α)) :=
  e.vars.foldlM (fun vars v => do
    return addVar p (groupVar p (.var v) (← Variable.examine p (.var v) none)) vars) vars

/-- What grouping expressions come to: the factor of the boolean ones, and
the others; `none` if every row is a group of its own. -/
def collect (p : Planner α) (factor : α) (vars : List (GroupVar α)) :
    List (Expr α) → Except (PlanError α) (Option (α × List (GroupVar α)))
  | [] => .ok (some (factor, vars))
  | e :: rest =>
    if e.type = .bool then collect p (factor * 2) vars rest
    else do
      let v ← Variable.examine p e none
      if v.statistics.isSome || v.isUnique then
        collect p factor (addVar p (groupVar p e v) vars) rest
      else if e.vars.isEmpty then
        if e.isVolatile then return none else collect p factor vars rest
      else
        collect p factor (← addColumns p vars e) rest

/-- The groups of one relation: its distinct values multiplied, no more than
its rows, or than a tenth of them for several expressions, which are likely
to depend on each other; then scaled to the rows its restrictions leave. -/
def relationGroups (first : GroupVar α) (others : List (GroupVar α)) : Option α :=
  match first.relation with
  | none => none
  | some r =>
    if 0 < r.tuples then
      let product := others.foldl (fun acc v => acc * v.distinct) first.distinct
      let most := others.foldl (fun acc v => Number.max acc v.distinct) first.distinct
      let tenth := r.tuples * 0.1
      let bound :=
        if others.isEmpty then r.tuples
        else if tenth < most then Number.min most r.tuples
        else tenth
      some (Number.min product bound * (r.rows / r.tuples))
    else none

/-- The expressions of the relation that one comes from. -/
def alongside (first : GroupVar α) (vars : List (GroupVar α)) : List (GroupVar α) :=
  vars.filter fun v => sameRelation v.relation first.relation

/-- The expressions of other relations. -/
def elsewhere (first : GroupVar α) (vars : List (GroupVar α)) : List (GroupVar α) :=
  vars.filter fun v => !sameRelation v.relation first.relation

omit [Number α] in
theorem length_elsewhere_le (first : GroupVar α) (vars : List (GroupVar α)) :
    (elsewhere first vars).length ≤ vars.length :=
  List.length_filter_le _ _

/-- The groups of all relations, multiplied in the order of their first
expressions. -/
def product (acc : α) : List (GroupVar α) → α
  | [] => acc
  | first :: rest =>
    match relationGroups first (alongside first rest) with
    | some n => product (acc * n) (elsewhere first rest)
    | none => product acc (elsewhere first rest)
termination_by vars => vars.length
decreasing_by
  all_goals
    have h := length_elsewhere_le first rest
    simp only [List.length_cons]
    omega

/-- The number of groups that rows fall into. -/
def estimate (p : Planner α) (exprs : List (Expr α)) (inputRows : α) :
    Except (PlanError α) α := do
  match ← collect p 1 [] exprs with
  | none => return inputRows
  | some (factor, []) => return Number.min factor inputRows
  | some (factor, vars) =>
    return Number.max (Number.min (Number.ceil (product factor vars)) inputRows) 1

/-! ## Hash buckets -/

/-- The fraction of a relation expected in one bucket: an even spread of the
distinct values, scaled up by how much more common the most common value is
than the average one. -/
def bucketFraction (nullFraction distinct surviving buckets mostCommon : α) : α :=
  let average := (1 - nullFraction) / distinct
  let even := if buckets < surviving then 1 / buckets else 1 / surviving
  let fraction :=
    if 0 < average ∧ average < mostCommon then even * (mostCommon / average) else even
  Number.clamp 1.0e-6 1 fraction

/-- The fraction of an inner relation expected in one bucket when it is hashed
by a key. -/
def bucketSize (p : Planner α) (key : Expr α) (buckets : Nat) : Except (PlanError α) α := do
  let v ← Variable.examine p key none
  let distinct := v.distinctCount p
  if v.statistics.isNone && Number.equal distinct p.settings.selectivity.distinct then
    return 0.1
  else
    -- restrictions remove distinct values as well as rows
    let surviving :=
      match v.relation with
      | some r => if 0 < r.tuples then distinct * (r.rows / r.tuples) else distinct
      | none => distinct
    let mostCommon := ((v.slot? .mcv none).bind (·.numbers.head?)).getD 0
    return bucketFraction v.nullFraction distinct surviving (Number.ofNat (max buckets 1)) mostCommon

end Grouping

end QueryPlanner
