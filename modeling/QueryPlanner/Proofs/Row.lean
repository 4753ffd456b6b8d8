/-
  QueryPlanner.Proofs.Row

  What expressions stand for at a row.

  Truth has three values.  Operators are strict and decide by their procedure
  in the catalog; functions are given by what they are interpreted as.  A row
  passes a clause that is true there: a filter drops a row both where the
  clause is false and where it is unknown.
-/

import QueryPlanner.Expr
import QueryPlanner.Operator.Catalog

namespace QueryPlanner

/-! ## Three-valued truth -/

/-- True, false, or unknown, which is `none`. -/
abbrev Truth := Option Bool

namespace Truth

/-- False if either is; true if both are. -/
def and : Truth → Truth → Truth
  | some false, _ | _, some false => some false
  | some true, some true => some true
  | _, _ => none

def not (t : Truth) : Truth := t.map Bool.not

/-- True if either is; false if both are. -/
def or (t u : Truth) : Truth := (t.not.and u.not).not

@[simp] theorem and_eq_true {t u : Truth} :
    t.and u = some true ↔ t = some true ∧ u = some true := by
  rcases t with _ | (_ | _) <;> rcases u with _ | (_ | _) <;> simp [and]

end Truth

/-- The outcome of a boolean test. -/
def BoolTest.holds : BoolTest → Truth → Bool
  | .isTrue, t => t == some true
  | .isNotTrue, t => t != some true
  | .isFalse, t => t == some false
  | .isNotFalse, t => t != some false
  | .isUnknown, t => t == none
  | .isNotUnknown, t => t != none

/-- The outcome of a test for null. -/
def NullTest.holds {α : Type} : NullTest → Option (Datum α) → Bool
  | .isNull, v => v.isNone
  | .isNotNull, v => v.isSome

/-! ## Rows -/

/-- The values of all columns of a query's range table at one row; a null is
`none`. -/
abbrev Row (α : Type) := RtIndex → AttrNumber → Option (Datum α)

/-- What operators and functions compute. -/
structure Interpretation (α : Type) where
  operators : OperatorCatalog α
  function : Oid → List (Option (Datum α)) → Option (Datum α)

/-- A value read as a truth value. -/
def Truth.ofValue {α : Type} : Option (Datum α) → Truth
  | some (.bool b) => some b
  | _ => none

/-- A truth value as a value. -/
def Truth.value {α : Type} (t : Truth) : Option (Datum α) := t.map .bool

@[simp] theorem Truth.ofValue_value {α : Type} (t : Truth) :
    ofValue (t.value : Option (Datum α)) = t := by
  cases t <;> rfl

variable {α : Type} [Number α]

/-- What an operator makes of its operands. -/
def OperatorCatalog.apply (c : OperatorCatalog α) (opno : Oid) :
    List (Option (Datum α)) → Truth
  | [some l, some r] => (c.get? opno).map fun op => op.procedure.holds l r
  | _ => none

namespace Expr

mutual

/-- The value of an expression at a row. -/
def value (i : Interpretation α) (row : Row α) : Expr α → Option (Datum α)
  | .var v => row v.relation v.column
  | .const _ v => v
  | .relabel a _ _ => a.value i row
  | .func id _ as _ => i.function id (values i row as)
  | .op opno as => (i.operators.apply opno (values i row as)).value
  | .boolTest t a => some (.bool (t.holds (.ofValue (a.value i row))))
  | .nullTest t a => some (.bool (t.holds (a.value i row)))
  | .and as => ((values i row as).foldr (fun v t => (Truth.ofValue v).and t) (some true)).value
  | .or as => ((values i row as).foldr (fun v t => (Truth.ofValue v).or t) (some false)).value
  | .not a => (Truth.ofValue (a.value i row)).not.value

def values (i : Interpretation α) (row : Row α) : List (Expr α) → List (Option (Datum α))
  | [] => []
  | a :: as => a.value i row :: values i row as

end

variable {i : Interpretation α} {row : Row α}

/-- A clause is true at a row. -/
def Holds (i : Interpretation α) (row : Row α) (e : Expr α) : Prop :=
  Truth.ofValue (e.value i row) = some true

instance (e : Expr α) : Decidable (e.Holds i row) := inferInstanceAs (Decidable (_ = _))

/-- A conjunction holds where every clause of it does. -/
theorem holds_and {es : List (Expr α)} : (Expr.and es).Holds i row ↔ ∀ e ∈ es, e.Holds i row := by
  rw [Holds, value, Truth.ofValue_value]
  induction es with
  | nil => simp [values]
  | cons e rest ih =>
      rw [values, List.foldr_cons, Truth.and_eq_true, ih, List.forall_mem_cons]
      rfl

end Expr

end QueryPlanner
