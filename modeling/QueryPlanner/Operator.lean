/-
  QueryPlanner.Operator

  Operators: what they decide on two values, and what the planner knows about
  them.

  The six comparisons decide by `Datum.compare?`, match operators by
  `patternMatch`; an operator may also be given by any function on values.
  All of them are strict, and none holds of values it cannot compare.
-/

import QueryPlanner.Pattern

namespace QueryPlanner

/-! ## Comparisons -/

/-- The six comparisons. -/
inductive Strategy where
  | equal | notEqual | less | lessEqual | greater | greaterEqual
deriving DecidableEq

namespace Strategy

def all : List Strategy := [.equal, .notEqual, .less, .lessEqual, .greater, .greaterEqual]

def symbol : Strategy → String
  | .equal => "=" | .notEqual => "<>" | .less => "<"
  | .lessEqual => "<=" | .greater => ">" | .greaterEqual => ">="

/-- The same comparison with its sides exchanged. -/
def commutator : Strategy → Strategy
  | .equal => .equal | .notEqual => .notEqual | .less => .greater
  | .lessEqual => .greaterEqual | .greater => .less | .greaterEqual => .lessEqual

/-- The opposite comparison. -/
def negator : Strategy → Strategy
  | .equal => .notEqual | .notEqual => .equal | .less => .greaterEqual
  | .lessEqual => .greater | .greater => .lessEqual | .greaterEqual => .less

/-- The comparison holds of values that lie this way to each other. -/
def accepts : Strategy → Ordering → Bool
  | .equal, o => o.isEq
  | .notEqual, o => o.isNe
  | .less, o => o.isLT
  | .lessEqual, o => o.isLE
  | .greater, o => o.isGT
  | .greaterEqual, o => o.isGE

end Strategy

/-- How an operator decides. -/
inductive Procedure (α : Type) where
  | ordering (s : Strategy)
  | pattern (engine : RegexEngine) (kind : PatternType) (negated : Bool)
  | custom (decide : Datum α → Datum α → Bool)

/-- Whether the operator holds of two values. -/
def Procedure.holds {α : Type} [Number α] : Procedure α → Datum α → Datum α → Bool
  | .ordering s, l, r =>
    match l.compare? r with
    | some o => s.accepts o
    | none => false
  | .pattern engine kind negated, l, r =>
    match l.bytes?, r.bytes? with
    | some text, some patt =>
      match patternMatch engine kind text patt with
      | some matched => matched != negated
      | none => false
    | _, _ => false
  | .custom f, l, r => f l r

/-! ## Operators -/

/-- Which estimate an operator's selectivity is, in restrictions and in joins. -/
inductive Estimator where
  | equality
  | inequality
  | scalarLess
  | scalarGreater
  | matching (kind : PatternType)
  | notMatching (kind : PatternType)
deriving DecidableEq

def Estimator.label : Estimator → String
  | .equality => "Eq" | .inequality => "Neq"
  | .scalarLess => "ScalarLt" | .scalarGreater => "ScalarGt"
  | .matching kind => "Match(" ++ kind.label ++ ")"
  | .notMatching kind => "NotMatch(" ++ kind.label ++ ")"

/-- Operators that go with a merge joinable one: the sort operators of its
sides, and `<` and `>` between values of the two sides. -/
structure MergeOperators where
  leftSort : Oid
  rightSort : Oid
  less : Oid
  greater : Oid
deriving DecidableEq

/-- An operator as registered in the catalog. -/
structure Operator (α : Type) where
  oid : Oid
  name : String
  left : DataType
  right : DataType
  commutator : Option Oid := none
  negator : Option Oid := none
  restrict : Option Estimator := none
  join : Option Estimator := none
  merge : Option MergeOperators := none
  hashable : Bool := false
  procedure : Procedure α

end QueryPlanner
