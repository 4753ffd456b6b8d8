/-
  QueryPlanner.Operator.Catalog

  The operators known to a planner, found by identifier and by name.

  Registering an operator under an identifier or a name in use hides the one
  registered before.  The built-in catalog holds the six comparisons of every
  data type and the match operators of the character types and of bytes, with
  identifiers given out in that order.
-/

import QueryPlanner.Error
import QueryPlanner.Operator

namespace QueryPlanner

/-- Operators, the latest registered first. -/
structure OperatorCatalog (α : Type) where
  operators : List (Operator α)

namespace OperatorCatalog

variable {α : Type}

def empty : OperatorCatalog α := ⟨[]⟩

def register (c : OperatorCatalog α) (op : Operator α) : OperatorCatalog α :=
  ⟨op :: c.operators⟩

/-- The operator with an identifier. -/
def get? (c : OperatorCatalog α) (opno : Oid) : Option (Operator α) :=
  c.operators.find? fun op => op.oid == opno

/-- The operator with an identifier that has to exist. -/
def lookup (c : OperatorCatalog α) (opno : Oid) : Except (PlanError α) (Operator α) :=
  match c.get? opno with
  | some op => .ok op
  | none => .error (.unknownOperator opno)

/-- The identifier of the operator with a name and operand types. -/
def find? (c : OperatorCatalog α) (name : String) (left right : DataType) : Option Oid :=
  (c.operators.find? fun op => op.name == name && op.left == left && op.right == right).map (·.oid)

/-- The operator that a text names: `name:type` if both operands have one type,
and `name:left:right`. -/
def resolve? (c : OperatorCatalog α) (text : String) : Option Oid :=
  match text.splitOn ":" with
  | [name, type] => (DataType.ofName? type).bind fun t => c.find? name t t
  | [name, left, right] => do
    c.find? name (← DataType.ofName? left) (← DataType.ofName? right)
  | _ => none

def commutator? (c : OperatorCatalog α) (opno : Oid) : Option Oid :=
  (c.get? opno).bind (·.commutator)

def negator? (c : OperatorCatalog α) (opno : Oid) : Option Oid :=
  (c.get? opno).bind (·.negator)

def merge? (c : OperatorCatalog α) (opno : Oid) : Option MergeOperators :=
  (c.get? opno).bind (·.merge)

/-- The first identifier of a built-in operator. -/
def firstOid : Oid := 1000

/-- An identifier above all in use, if there is one. -/
def nextOid (c : OperatorCatalog α) : Except (PlanError α) Oid :=
  match (c.operators.map (·.oid)).max? with
  | some top => if top.toNat + 1 < UInt32.size then .ok (top + 1) else .error .overflow
  | none => .ok firstOid

/-! ## Built-in operators -/

/-- Position of a comparison among the six of its type. -/
def strategyOffset (s : Strategy) : Oid := UInt32.ofNat (Strategy.all.idxOf s)

/-- The estimate of a comparison. -/
def strategyEstimator : Strategy → Estimator
  | .equal => .equality
  | .notEqual => .inequality
  | .less | .lessEqual => .scalarLess
  | .greater | .greaterEqual => .scalarGreater

/-- A comparison of a type whose six operators start at `base`. -/
def comparison (base : Oid) (type : DataType) (s : Strategy) : Operator α where
  oid := base + strategyOffset s
  name := s.symbol
  left := type
  right := type
  commutator := some (base + strategyOffset s.commutator)
  negator := some (base + strategyOffset s.negator)
  restrict := some (strategyEstimator s)
  join := some (strategyEstimator s)
  merge :=
    if s = .equal then
      some {
        leftSort := base + strategyOffset .less
        rightSort := base + strategyOffset .less
        less := base + strategyOffset .less
        greater := base + strategyOffset .greater }
    else none
  hashable := s = .equal
  procedure := .ordering s

/-- The name of a match operator. -/
def matchName : PatternType → String
  | .like => "~~" | .likeAnyCase => "~~*" | .regex => "~" | .regexAnyCase => "~*"

/-- A match operator of a pair that starts at `base`, the negated one behind
the other. -/
def matchOperator (engine : RegexEngine) (base : Oid) (left right : DataType)
    (kind : PatternType) (negated : Bool) : Operator α where
  oid := if negated then base + 1 else base
  name := if negated then "!" ++ matchName kind else matchName kind
  left := left
  right := right
  negator := some (if negated then base else base + 1)
  restrict := some (if negated then .notMatching kind else .matching kind)
  join := some (if negated then .notMatching kind else .matching kind)
  procedure := .pattern engine kind negated

/-- The character types with match operators. -/
def textTypes : List DataType := [.text, .varchar, .bpchar, .name]

/-- The pairs of match operators: operand types and kind of pattern. -/
def matchPairs : List (DataType × DataType × PatternType) :=
  (textTypes.flatMap fun t => PatternType.all.map fun kind => (t, DataType.text, kind))
    ++ [(.bytea, .bytea, .like)]

/-- The identifier behind the comparisons of every type. -/
def firstMatchOid : Oid := firstOid + 6 * UInt32.ofNat DataType.all.length

/-- The built-in operators by identifier. -/
def builtinOperators (engine : RegexEngine) : List (Operator α) :=
  (DataType.all.zipIdx.flatMap fun (type, i) =>
      Strategy.all.map (comparison (firstOid + 6 * UInt32.ofNat i) type))
    ++ (matchPairs.zipIdx.flatMap fun ((left, right, kind), i) =>
      [false, true].map
        (matchOperator engine (firstMatchOid + 2 * UInt32.ofNat i) left right kind))

/-- The built-in catalog, over an engine for regular expressions. -/
def builtin (engine : RegexEngine) : OperatorCatalog α := ⟨(builtinOperators engine).reverse⟩

end OperatorCatalog

end QueryPlanner
