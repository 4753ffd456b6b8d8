/-
  QueryPlanner.Expr

  Scalar and boolean expressions over the columns of a query.

  An expression is a tree; what the planner asks of one (the columns it reads,
  whether it is volatile, how many operators it evaluates) is a walk over the
  tree, given by a pair of functions on an expression and on a list of them.
-/

import QueryPlanner.Datum
import QueryPlanner.RelSet

namespace QueryPlanner

/-- Column number inside a relation or an index, from 1; system columns are
negative. -/
abbrev AttrNumber := Int

/-- A column of a range table entry. -/
structure Var where
  relation : RtIndex
  column : AttrNumber
  type : DataType
  typmod : Int := -1
deriving DecidableEq

/-- Boolean tests, which never yield unknown. -/
inductive BoolTest where
  | isTrue | isNotTrue | isFalse | isNotFalse | isUnknown | isNotUnknown
deriving DecidableEq

/-- Tests for null. -/
inductive NullTest where
  | isNull | isNotNull
deriving DecidableEq

def BoolTest.all : List BoolTest :=
  [.isTrue, .isNotTrue, .isFalse, .isNotFalse, .isUnknown, .isNotUnknown]

def BoolTest.text : BoolTest → String
  | .isTrue => "IS TRUE" | .isNotTrue => "IS NOT TRUE"
  | .isFalse => "IS FALSE" | .isNotFalse => "IS NOT FALSE"
  | .isUnknown => "IS UNKNOWN" | .isNotUnknown => "IS NOT UNKNOWN"

def NullTest.all : List NullTest := [.isNull, .isNotNull]

def NullTest.text : NullTest → String
  | .isNull => "IS NULL" | .isNotNull => "IS NOT NULL"

/-- An expression.  A constant without a value is null; a relabeling changes
the type an expression is seen with and nothing else. -/
inductive Expr (α : Type) where
  | var (v : Var)
  | const (type : DataType) (value : Option (Datum α))
  | relabel (arg : Expr α) (type : DataType) (typmod : Int)
  | func (id : Oid) (type : DataType) (args : List (Expr α)) (isVolatile : Bool)
  | op (opno : Oid) (args : List (Expr α))
  | boolTest (test : BoolTest) (arg : Expr α)
  | nullTest (test : NullTest) (arg : Expr α)
  | and (args : List (Expr α))
  | or (args : List (Expr α))
  | not (arg : Expr α)

namespace Expr

variable {α : Type}

/-! ## Equality -/

mutual

/-- Equality of expressions is decided from the root down. -/
def decEq [DecidableEq α] : (a b : Expr α) → Decidable (a = b)
  | .var v, .var w => decidable_of_iff (v = w) (by simp)
  | .const t v, .const u w => decidable_of_iff (t = u ∧ v = w) (by simp)
  | .relabel a t m, .relabel b u n =>
    match decEq a b with
    | .isTrue h => decidable_of_iff (t = u ∧ m = n) (by simp [h])
    | .isFalse h => .isFalse (by simp [h])
  | .func i t as v, .func j u bs w =>
    match decEqList as bs with
    | .isTrue h => decidable_of_iff (i = j ∧ t = u ∧ v = w) (by simp [h])
    | .isFalse h => .isFalse (by simp [h])
  | .op i as, .op j bs =>
    match decEqList as bs with
    | .isTrue h => decidable_of_iff (i = j) (by simp [h])
    | .isFalse h => .isFalse (by simp [h])
  | .boolTest t a, .boolTest u b =>
    match decEq a b with
    | .isTrue h => decidable_of_iff (t = u) (by simp [h])
    | .isFalse h => .isFalse (by simp [h])
  | .nullTest t a, .nullTest u b =>
    match decEq a b with
    | .isTrue h => decidable_of_iff (t = u) (by simp [h])
    | .isFalse h => .isFalse (by simp [h])
  | .and as, .and bs =>
    match decEqList as bs with
    | .isTrue h => .isTrue (by simp [h])
    | .isFalse h => .isFalse (by simp [h])
  | .or as, .or bs =>
    match decEqList as bs with
    | .isTrue h => .isTrue (by simp [h])
    | .isFalse h => .isFalse (by simp [h])
  | .not a, .not b =>
    match decEq a b with
    | .isTrue h => .isTrue (by simp [h])
    | .isFalse h => .isFalse (by simp [h])
  | .var _, .const .. | .var _, .relabel .. | .var _, .func .. | .var _, .op ..
  | .var _, .boolTest .. | .var _, .nullTest .. | .var _, .and _ | .var _, .or _
  | .var _, .not _ => .isFalse nofun
  | .const .., .var _ | .const .., .relabel .. | .const .., .func .. | .const .., .op ..
  | .const .., .boolTest .. | .const .., .nullTest .. | .const .., .and _ | .const .., .or _
  | .const .., .not _ => .isFalse nofun
  | .relabel .., .var _ | .relabel .., .const .. | .relabel .., .func .. | .relabel .., .op ..
  | .relabel .., .boolTest .. | .relabel .., .nullTest .. | .relabel .., .and _
  | .relabel .., .or _ | .relabel .., .not _ => .isFalse nofun
  | .func .., .var _ | .func .., .const .. | .func .., .relabel .. | .func .., .op ..
  | .func .., .boolTest .. | .func .., .nullTest .. | .func .., .and _ | .func .., .or _
  | .func .., .not _ => .isFalse nofun
  | .op .., .var _ | .op .., .const .. | .op .., .relabel .. | .op .., .func ..
  | .op .., .boolTest .. | .op .., .nullTest .. | .op .., .and _ | .op .., .or _
  | .op .., .not _ => .isFalse nofun
  | .boolTest .., .var _ | .boolTest .., .const .. | .boolTest .., .relabel ..
  | .boolTest .., .func .. | .boolTest .., .op .. | .boolTest .., .nullTest ..
  | .boolTest .., .and _ | .boolTest .., .or _ | .boolTest .., .not _ => .isFalse nofun
  | .nullTest .., .var _ | .nullTest .., .const .. | .nullTest .., .relabel ..
  | .nullTest .., .func .. | .nullTest .., .op .. | .nullTest .., .boolTest ..
  | .nullTest .., .and _ | .nullTest .., .or _ | .nullTest .., .not _ => .isFalse nofun
  | .and _, .var _ | .and _, .const .. | .and _, .relabel .. | .and _, .func ..
  | .and _, .op .. | .and _, .boolTest .. | .and _, .nullTest .. | .and _, .or _
  | .and _, .not _ => .isFalse nofun
  | .or _, .var _ | .or _, .const .. | .or _, .relabel .. | .or _, .func ..
  | .or _, .op .. | .or _, .boolTest .. | .or _, .nullTest .. | .or _, .and _
  | .or _, .not _ => .isFalse nofun
  | .not _, .var _ | .not _, .const .. | .not _, .relabel .. | .not _, .func ..
  | .not _, .op .. | .not _, .boolTest .. | .not _, .nullTest .. | .not _, .and _
  | .not _, .or _ => .isFalse nofun

/-- Equality of argument lists. -/
def decEqList [DecidableEq α] : (as bs : List (Expr α)) → Decidable (as = bs)
  | [], [] => .isTrue rfl
  | [], _ :: _ => .isFalse nofun
  | _ :: _, [] => .isFalse nofun
  | a :: as, b :: bs =>
    match decEq a b, decEqList as bs with
    | .isTrue h, .isTrue k => .isTrue (by simp [h, k])
    | .isFalse h, _ => .isFalse (by simp [h])
    | _, .isFalse k => .isFalse (by simp [k])

end

instance [DecidableEq α] : DecidableEq (Expr α) := decEq

/-! ## Types -/

/-- The type an expression is seen with; tests and connectives are boolean. -/
def type : Expr α → DataType
  | .var v => v.type
  | .const t _ => t
  | .relabel _ t _ => t
  | .func _ t _ _ => t
  | _ => .bool

/-- The type modifier, `-1` where there is none. -/
def typmod : Expr α → Int
  | .var v => v.typmod
  | .relabel _ _ m => m
  | _ => -1

/-- The expression below one relabeling. -/
def stripRelabel : Expr α → Expr α
  | .relabel a _ _ => a
  | e => e

/-- Operator and operands of a clause with two operands. -/
def binary? : Expr α → Option (Oid × Expr α × Expr α)
  | .op opno [l, r] => some (opno, l, r)
  | _ => none

/-! ## Walks -/

mutual

/-- The columns read, in the order of the text, with repetitions. -/
def occurrences : Expr α → List Var
  | .var v => [v]
  | .const .. => []
  | .relabel a _ _ => a.occurrences
  | .func _ _ as _ => occurrencesList as
  | .op _ as => occurrencesList as
  | .boolTest _ a => a.occurrences
  | .nullTest _ a => a.occurrences
  | .and as => occurrencesList as
  | .or as => occurrencesList as
  | .not a => a.occurrences

def occurrencesList : List (Expr α) → List Var
  | [] => []
  | a :: as => a.occurrences ++ occurrencesList as

end

/-- The distinct columns read, by first occurrence. -/
def vars (e : Expr α) : List Var := e.occurrences.eraseDups

/-- The range table positions read. -/
def relations (e : Expr α) : RelSet := RelSet.ofList (e.vars.map (·.relation))

mutual

/-- Some function called in the expression is volatile. -/
def isVolatile : Expr α → Bool
  | .var _ | .const .. => false
  | .relabel a _ _ => a.isVolatile
  | .func _ _ as v => v || isVolatileList as
  | .op _ as => isVolatileList as
  | .boolTest _ a => a.isVolatile
  | .nullTest _ a => a.isVolatile
  | .and as => isVolatileList as
  | .or as => isVolatileList as
  | .not a => a.isVolatile

def isVolatileList : List (Expr α) → Bool
  | [] => false
  | a :: as => a.isVolatile || isVolatileList as

end

/-- Reads no column and calls nothing volatile, so that its value is fixed
for one execution. -/
def isPseudoConstant (e : Expr α) : Bool := e.relations.isEmpty && !e.isVolatile

mutual

/-- The operators and functions evaluated. -/
def operatorCount : Expr α → Nat
  | .var _ | .const .. => 0
  | .relabel a _ _ => a.operatorCount
  | .func _ _ as _ => 1 + operatorCountList as
  | .op _ as => 1 + operatorCountList as
  | .boolTest _ a => a.operatorCount
  | .nullTest _ a => a.operatorCount
  | .and as => operatorCountList as
  | .or as => operatorCountList as
  | .not a => a.operatorCount

def operatorCountList : List (Expr α) → Nat
  | [] => 0
  | a :: as => a.operatorCount + operatorCountList as

end

mutual

/-- Every column moved to one range table position. -/
def bind (r : RtIndex) : Expr α → Expr α
  | .var v => .var { v with relation := r }
  | .const t v => .const t v
  | .relabel a t m => .relabel (a.bind r) t m
  | .func i t as v => .func i t (bindList r as) v
  | .op i as => .op i (bindList r as)
  | .boolTest t a => .boolTest t (a.bind r)
  | .nullTest t a => .nullTest t (a.bind r)
  | .and as => .and (bindList r as)
  | .or as => .or (bindList r as)
  | .not a => .not (a.bind r)

def bindList (r : RtIndex) : List (Expr α) → List (Expr α)
  | [] => []
  | a :: as => a.bind r :: bindList r as

end

/-- Relabelings of constants carried out. -/
def fold : Expr α → Expr α
  | .relabel a t m =>
    match a.fold with
    | .const _ v => .const t v
    | b => .relabel b t m
  | e => e

end Expr

end QueryPlanner
