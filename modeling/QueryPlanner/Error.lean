/-
  QueryPlanner.Error

  Why planning can fail: an identifier that does not resolve, input that the
  estimators cannot work with, or a sum that its type has no room for.  Missing
  statistics are never a failure.
-/

import QueryPlanner.Expr.Printer

namespace QueryPlanner

/-- The causes of failure. -/
inductive PlanError (α : Type) where
  /-- No operator has this identifier. -/
  | unknownOperator (opno : Oid)
  /-- No equality operator for booleans. -/
  | noBooleanEquality
  /-- No operator of this name on two values of a type. -/
  | noTypeOperator (name : String) (type : DataType)
  | unknownRelation (relation : Oid)
  | noRangeTableEntry (relid : RtIndex)
  /-- The range table entry has no relation built for it. -/
  | noBaseRelation (relid : RtIndex)
  /-- No relation of the planner has this number. -/
  | unknownRelationNumber (id : Nat)
  | restrictionArity (count : Nat)
  | joinArity (count : Nat)
  /-- The inputs of a join share a relation. -/
  | overlappingInputs (outer inner : RelSet)
  | notBaseRelation (relids : RelSet)
  | indexScanOverJoin (relids : RelSet)
  | wrongSeqScan (relid : RtIndex) (relids : RelSet)
  | wrongIndexScan (relid : RtIndex) (relids : RelSet)
  | notMergejoinable (clause : Expr α)
  | notHashable (clause : Expr α)
  /-- No operand of a merge clause is in a target list. -/
  | operandsNotInTarget (clause : Expr α)
  | noMergeClauses
  | nothingToJoin
  | emptyLevel
  | noSingleResult
  | noPath (relids : RelSet)
  /-- A pattern that is neither text nor bytes. -/
  | notAPattern (value : Datum α)
  | caseInsensitiveBytes
  | regexOnBytes
  /-- A sum that is out of the range of its type. -/
  | overflow

namespace PlanError

/-- The kinds of failure. -/
inductive Kind where
  | lookup
  | invalidInput
  | overflow
deriving DecidableEq

def Kind.label : Kind → String
  | .lookup => "Lookup" | .invalidInput => "InvalidInput" | .overflow => "Overflow"

variable {α : Type}

def kind : PlanError α → Kind
  | .unknownOperator _ | .noBooleanEquality | .noTypeOperator .. | .unknownRelation _
  | .noRangeTableEntry _ | .noBaseRelation _ | .unknownRelationNumber _ => .lookup
  | .overflow => .overflow
  | _ => .invalidInput

/-- What could not be resolved, or what is wrong with the input. -/
def detail : PlanError Float → String
  | .unknownOperator opno => "operator " ++ toString opno.toNat
  | .noBooleanEquality => "operator = (bool, bool)"
  | .noTypeOperator name type => "operator " ++ name ++ " for type " ++ type.label
  | .unknownRelation relation => "relation " ++ toString relation.toNat
  | .noRangeTableEntry relid => "range table entry " ++ toString relid
  | .noBaseRelation relid => "base relation " ++ toString relid
  | .unknownRelationNumber id => "relation info " ++ toString id
  | .restrictionArity n => "restriction clause needs two arguments, got " ++ toString n
  | .joinArity n => "join clause needs two arguments, got " ++ toString n
  | .overlappingInputs outer inner =>
    "can not join overlapping relations " ++ outer.display ++ " and " ++ inner.display
  | .notBaseRelation relids => relids.display ++ " is not a base relation"
  | .indexScanOverJoin relids => "index scan over join relation " ++ relids.display
  | .wrongSeqScan relid relids =>
    "sequential scan of " ++ toString relid ++ " can not produce " ++ relids.display
  | .wrongIndexScan relid relids =>
    "index scan of " ++ toString relid ++ " can not produce " ++ relids.display
  | .notMergejoinable clause => clause.display ++ " is not mergejoinable"
  | .notHashable clause => clause.display ++ " is not hashable"
  | .operandsNotInTarget clause =>
    "neither side of " ++ clause.display ++ " is in the target list"
  | .noMergeClauses => "merge join without merge clauses"
  | .nothingToJoin => "nothing to join"
  | .emptyLevel => "join search produced an empty level"
  | .noSingleResult => "join search did not end in a single relation"
  | .noPath relids => "no path for " ++ relids.display
  | .notAPattern value => "pattern must be text or bytea, got " ++ value.display
  | .caseInsensitiveBytes => "case insensitive matching not supported on type bytea"
  | .regexOnBytes => "regular-expression matching not supported on type bytea"
  | .overflow => "attempt to add with overflow"

/-- The message shown for a failure. -/
def message (e : PlanError Float) : String :=
  match e.kind with
  | .lookup => "cache lookup failed for " ++ e.detail
  | .invalidInput => "invalid input: " ++ e.detail
  | .overflow => e.detail

end PlanError

end QueryPlanner
