/-
  QueryPlanner.Selectivity.Match

  The fraction of rows that a match with a pattern keeps.

  A pattern that is all prefix is an equality.  Otherwise the prefix is
  estimated as the range from the prefix to the next greater string, and the
  rest by the weight of its characters.
-/

import QueryPlanner.Pattern.FixedPrefix
import QueryPlanner.Pattern.Successor
import QueryPlanner.Pattern.Weight
import QueryPlanner.Selectivity.Range
import QueryPlanner.Selectivity.Test

namespace QueryPlanner.Selectivity

variable {α : Type} [Number α]

/-- The operator of a name on two values of a type. -/
def typeOperator (p : Planner α) (name : String) (type : DataType) :
    Except (PlanError α) Oid :=
  match p.operators.find? name type type with
  | some opno => .ok opno
  | none => .error (.noTypeOperator name type)

/-- A prefix as a value of a column's type, from its bytes; bytes that are no
text have no counterpart among texts. -/
def prefixValue (type : DataType) (fixed : Datum α) : Option (Datum α) :=
  if type = .bytea then fixed.bytes?.map .bytea
  else
    match fixed with
    | .bytea b => (String.fromUTF8? ⟨b.toArray⟩).map .text
    | d => some d

/-- The least fraction of a range that is not empty. -/
def tinyRange : α := 1.0e-10

/-- A range so far below nothing that its bounds disagree. -/
def disagreement : α := -0.01

/-- `variable >= fixed`, and below the next greater string where there is
one. -/
def prefixRange (p : Planner α) (e : Expr α) (type : DataType) (fixed : Datum α) :
    Except (PlanError α) α := do
  let atLeast ← typeOperator p ">=" type
  let above ← scalar p atLeast true [e, .const type (some fixed)] none
  match Successor.ofDatum fixed with
  | none => return above
  | some next =>
    let lessThan ← typeOperator p "<" type
    let below ← scalar p lessThan false [e, .const type (some next)] none
    -- both bounds left out the nulls, which are added back once
    let range := below + above - 1 + (← nullTest p .isNull e none)
    if range ≤ 0 then
      return if range < disagreement then p.settings.selectivity.range else tinyRange
    else return range

/-- The types whose columns are matched with patterns. -/
def isMatchable : DataType → Bool
  | .text | .varchar | .bpchar | .name | .bytea => true
  | _ => false

/-- `variable ~~ pattern` and the other match operators, the variable on the
left. -/
def matching (p : Planner α) (args : List (Expr α)) (var : Option RtIndex) (kind : PatternType) :
    Except (PlanError α) α := do
  let default := p.settings.selectivity.matching
  match ← Variable.restriction? p args var with
  | none => return default
  | some r =>
    match r.onLeft, comparand r.other, args with
    | true, .null, _ => return 0
    | true, .value pattern patternType, e :: _ =>
      if patternType ≠ .text ∧ patternType ≠ .bytea then return default
      else if !isMatchable r.var.type then return default
      else
        let type := r.var.type
        let split ← FixedPrefix.ofPattern kind pattern
        match split.status, split.fixed.bind (prefixValue type) with
        | .whole, some fixed =>
          let equal ← typeOperator p "=" type
          equality p equal [e, .const type (some fixed)] var
        | .front, some fixed =>
          let range ← prefixRange p e type fixed
          return clampProbability (range * (← PatternWeight.ofPattern kind split.rest))
        | _, _ => return clampProbability (← PatternWeight.ofPattern kind split.rest)
    | _, _, _ => return default

end QueryPlanner.Selectivity
