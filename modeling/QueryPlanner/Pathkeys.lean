/-
  QueryPlanner.Pathkeys

  Sort orderings of rows.

  An ordering is a list of positions, most significant first.  A position is
  a set of items, each an expression with a sort operator, that all describe
  the order at that position: behind a merge join on `a = b` rows are sorted
  by `a` and by `b` alike.
-/

import QueryPlanner.Clause
import QueryPlanner.TargetList

namespace QueryPlanner

/-- An expression and the operator it is sorted by. -/
structure SortItem (α : Type) where
  key : Expr α
  op : Oid
deriving DecidableEq

/-- Interchangeable items of one position. -/
abbrev SortPosition (α : Type) := List (SortItem α)

/-- Positions, most significant first. -/
abbrev Pathkeys (α : Type) := List (SortPosition α)

/-- How two orderings lie to each other; the better one implies the other. -/
inductive PathkeysComparison where
  | equal
  | better1
  | better2
  | different
deriving DecidableEq

def PathkeysComparison.label : PathkeysComparison → String
  | .equal => "Equal" | .better1 => "Better1" | .better2 => "Better2" | .different => "Different"

/-- The order in which an index is read. -/
inductive ScanDirection where
  | forward
  | backward
deriving DecidableEq

def ScanDirection.label : ScanDirection → String
  | .forward => "forward" | .backward => "backward"

namespace SortPosition

variable {α : Type} [DecidableEq α]

/-- Every item of `p` is one of `q`. -/
def isSubset (p q : SortPosition α) : Bool := p.all fun item => q.contains item

/-- Adds an item, once. -/
def add (p : SortPosition α) (item : SortItem α) : SortPosition α :=
  if p.contains item then p else p ++ [item]

/-- Some item sorts by this expression. -/
def hasKey (p : SortPosition α) (e : Expr α) : Bool := p.any fun item => item.key = e

end SortPosition

namespace Pathkeys

variable {α : Type} [DecidableEq α]

/-! ## Comparison -/

/-- What two verdicts on containment say together. -/
def verdict : Bool → Bool → PathkeysComparison
  | true, true => .equal
  | true, false => .better2
  | false, true => .better1
  | false, false => .different

/-- Compares position by position, given whether the first ordering may still
be contained in the second and the second in the first. -/
def compareFrom (first second : Bool) : Pathkeys α → Pathkeys α → PathkeysComparison
  | p :: ps, q :: qs =>
    let first := first && SortPosition.isSubset p q
    let second := second && SortPosition.isSubset q p
    if !first && !second then .different else compareFrom first second ps qs
  | ps, qs => verdict (first && ps.isEmpty) (second && qs.isEmpty)

/-- Compares two orderings. -/
def compare (a b : Pathkeys α) : PathkeysComparison := compareFrom true true a b

/-- Rows ordered by `b` are ordered by `a`. -/
def containedIn (a b : Pathkeys α) : Bool :=
  match compare a b with
  | .equal | .better2 => true
  | .better1 | .different => false

/-- An ordering delivers the required one. -/
def satisfies (a required : Pathkeys α) : Bool := containedIn required a

/-- The leading positions of an ordering that help to produce the query's: all
those of the query if it delivers them, and none otherwise. -/
def usefulFor (query a : Pathkeys α) : Nat :=
  if query.isEmpty || a.isEmpty then 0
  else if containedIn query a then query.length
  else 0

/-- Adds a position, once. -/
def addPosition (ps : Pathkeys α) (p : SortPosition α) : Pathkeys α :=
  if ps.contains p then ps else ps ++ [p]

/-! ## Orderings of sorts and joins -/

/-- The ordering of an ORDER BY list. -/
def ofSortItems (items : List (SortItem α)) : Pathkeys α := items.map fun item => [item]

/-- What a merge clause equates with an expression. -/
def equated? (c : Clause α) (e : Expr α) : Option (SortItem α) :=
  match c.merge, c.leftExpr?, c.rightExpr? with
  | some m, some l, some r =>
    if l = e then some ⟨r, m.operators.rightSort⟩
    else if r = e then some ⟨l, m.operators.leftSort⟩
    else none
  | _, _, _ => none

/-- Adds an item if the target list shows it. -/
def addVisible (target : TargetList α) (p : SortPosition α) (item : SortItem α) :
    SortPosition α :=
  if target.provides item.key then SortPosition.add p item else p

/-- A position of a join's ordering: the items of the outer position that the
join shows, each with what the merge clauses equate with it. -/
def joinPosition (target : TargetList α) (clauses : List (Clause α)) (outer : SortPosition α) :
    SortPosition α :=
  outer.foldl (fun p item =>
    if target.provides item.key then
      (clauses.filterMap (equated? · item.key)).foldl (addVisible target) (SortPosition.add p item)
    else p) []

/-- The ordering of a join whose outer input has an ordering, up to the first
position of which nothing is left. -/
def ofJoin (outer : Pathkeys α) (target : TargetList α) (clauses : List (Clause α)) :
    Pathkeys α :=
  (outer.map (joinPosition target clauses)).takeWhile fun p => !p.isEmpty

/-- The side of a merge clause that a target list provides, the left one
first. -/
def mergeItem (target : TargetList α) (c : Clause α) : Except (PlanError α) (SortItem α) :=
  match c.merge with
  | none => .error (.notMergejoinable c.expr)
  | some m =>
    match c.leftExpr?.filter target.provides, c.rightExpr?.filter target.provides with
    | some l, _ => .ok ⟨l, m.operators.leftSort⟩
    | none, some r => .ok ⟨r, m.operators.rightSort⟩
    | none, none => .error (.operandsNotInTarget c.expr)

/-- The ordering an input needs to be merged on some clauses. -/
def ofMergeClauses (clauses : List (Clause α)) (target : TargetList α) :
    Except (PlanError α) (Pathkeys α) :=
  clauses.foldlM (fun ps c => do return addPosition ps [← mergeItem target c]) []

/-- An operand of a merge clause is an item of a position. -/
def fits (p : SortPosition α) (c : Clause α) : Bool :=
  match c.merge with
  | none => false
  | some m =>
    c.leftExpr?.any (fun e => p.contains ⟨e, m.operators.leftSort⟩)
      || c.rightExpr?.any (fun e => p.contains ⟨e, m.operators.rightSort⟩)

/-- The clauses usable for a merge of an input with an ordering: each
position takes the first clause that fits and is not taken, and the first
position without one ends the list. -/
def mergeClauses (taken : List (Clause α)) (clauses : List (Clause α)) :
    Pathkeys α → List (Clause α)
  | [] => taken
  | p :: ps =>
    match clauses.find? fun c => fits p c && !c.isIn taken with
    | some c => mergeClauses (taken ++ [c]) clauses ps
    | none => taken

/-- The merge clauses of a list usable with an ordering. -/
def findMergeClauses (ps : Pathkeys α) (clauses : List (Clause α)) : List (Clause α) :=
  mergeClauses [] clauses ps

/-! ## Reading backwards -/

/-- An item with its sort operator commuted. -/
def commuteItem? (operators : OperatorCatalog α) (item : SortItem α) : Option (SortItem α) :=
  (operators.commutator? item.op).map (⟨item.key, ·⟩)

/-- The ordering read backwards, if every sort operator has a commutator. -/
def commute? (operators : OperatorCatalog α) (ps : Pathkeys α) : Option (Pathkeys α) :=
  ps.mapM fun p => p.mapM (commuteItem? operators)

end Pathkeys

/-- The text of an ordering: the expressions of each position with `=`
between them. -/
def Pathkeys.display (ps : Pathkeys Float) : String :=
  "(" ++ ", ".intercalate (ps.map fun p => "=".intercalate (p.map (·.key.display))) ++ ")"

end QueryPlanner
