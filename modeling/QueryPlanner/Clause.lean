/-
  QueryPlanner.Clause

  Clauses of a query and what the planner derives from them once.

  A clause has an identity: two clauses with the same text are different
  clauses, and lists of clauses are united by identity.
-/

import QueryPlanner.Operator.Catalog

namespace QueryPlanner

/-- A clause that can be merge joined: its operator, and the operators that
go with it. -/
structure MergeClause where
  opno : Oid
  operators : MergeOperators
deriving DecidableEq

/-- A clause of a query.  `required` are the relations it reads, `left` and
`right` those of its two operands; it can be merged or hashed only if each
operand reads relations of its own. -/
structure Clause (α : Type) where
  id : Nat
  expr : Expr α
  required : RelSet
  left : RelSet
  right : RelSet
  merge : Option MergeClause
  hash : Option Oid

namespace Clause

variable {α : Type}

/-- What is known of an expression as a clause. -/
def analyze (operators : OperatorCatalog α) (id : Nat) (e : Expr α) : Clause α :=
  match e.binary? with
  | none => ⟨id, e, e.relations, .empty, .empty, none, none⟩
  | some (opno, l, r) =>
    let left := l.relations
    let right := r.relations
    let info :=
      if !left.isEmpty && !right.isEmpty && !left.overlaps right then operators.get? opno else none
    { id := id
      expr := e
      required := e.relations
      left := left
      right := right
      merge := info.bind fun op => op.merge.map (⟨opno, ·⟩)
      hash := info.bind fun op => if op.hashable then some opno else none }

def isMergejoinable (c : Clause α) : Bool := c.merge.isSome

/-- The left operand. -/
def leftExpr? (c : Clause α) : Option (Expr α) := c.expr.binary?.map (·.2.1)

/-- The right operand. -/
def rightExpr? (c : Clause α) : Option (Expr α) := c.expr.binary?.map (·.2.2)

/-- Has one operand entirely from either input. -/
def separates (c : Clause α) (outer inner : RelSet) : Bool :=
  (c.left.isSubset outer && c.right.isSubset inner)
    || (c.left.isSubset inner && c.right.isSubset outer)

/-- The clause is in a list. -/
def isIn (cs : List (Clause α)) (c : Clause α) : Bool := cs.any fun d => d.id == c.id

/-- The first list with the clauses of the second that it lacks. -/
def union (into extra : List (Clause α)) : List (Clause α) :=
  extra.foldl (fun cs c => if c.isIn cs then cs else cs ++ [c]) into

/-- The clauses not among those handled. -/
def remaining (handled cs : List (Clause α)) : List (Clause α) :=
  cs.filter fun c => !c.isIn handled

end Clause

/-- Clauses of a relation that apply once the relations `unjoined` have been
joined to it. -/
structure JoinInfo (α : Type) where
  unjoined : RelSet
  clauses : List (Clause α)

namespace JoinInfo

variable {α : Type}

/-- Changes the clauses that wait for a set of relations; an entry is made
where there is none. -/
def update (unjoined : RelSet) (f : List (Clause α) → List (Clause α)) :
    List (JoinInfo α) → List (JoinInfo α)
  | [] => [⟨unjoined, f []⟩]
  | info :: rest =>
    if info.unjoined = unjoined then ⟨unjoined, f info.clauses⟩ :: rest
    else info :: update unjoined f rest

/-- Every waiting clause, once. -/
def clausesOf (infos : List (JoinInfo α)) : List (Clause α) :=
  infos.foldl (fun cs info => Clause.union cs info.clauses) []

end JoinInfo

end QueryPlanner
