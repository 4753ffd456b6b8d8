/-
  QueryPlanner.TargetList

  The output columns of a relation.
-/

import QueryPlanner.Expr

namespace QueryPlanner

/-- An output column with its number. -/
structure TargetEntry (α : Type) where
  number : Nat
  expr : Expr α
deriving DecidableEq

/-- Output columns in order. -/
abbrev TargetList (α : Type) := List (TargetEntry α)

namespace TargetList

variable {α : Type}

/-- The column that an expression is. -/
def find? [DecidableEq α] (e : Expr α) (t : TargetList α) : Option (TargetEntry α) :=
  List.find? (fun entry => entry.expr = e) t

/-- The expression is some column. -/
def provides [DecidableEq α] (t : TargetList α) (e : Expr α) : Bool := (find? e t).isSome

/-- The columns numbered anew from `first`. -/
def renumber (first : Nat) (t : TargetList α) : TargetList α :=
  t.mapIdx fun i entry => ⟨first + i, entry.expr⟩

/-- Adds an expression as the last column, unless it is one. -/
def add [DecidableEq α] (e : Expr α) (t : TargetList α) : TargetList α :=
  if provides t e then t else t ++ [⟨t.length + 1, e⟩]

/-- The columns of two inputs, one behind the other. -/
def join (outer inner : TargetList α) : TargetList α :=
  renumber 1 outer ++ renumber (outer.length + 1) inner

end TargetList

end QueryPlanner
