/-
  QueryPlanner.Expr.Printer

  The text of an expression in messages and tables.
-/

import QueryPlanner.Datum.Printer
import QueryPlanner.Expr

namespace QueryPlanner.Expr

/-- The text of a column. -/
def varText (v : Var) : String := "$" ++ toString v.relation ++ "." ++ toString v.column

/-- The text of a two-operand operator, or the call form of any other arity. -/
def opText (opno : Oid) : List String → String
  | [l, r] => "(" ++ l ++ " op" ++ toString opno.toNat ++ " " ++ r ++ ")"
  | args => "op" ++ toString opno.toNat ++ "(" ++ ", ".intercalate args ++ ")"

mutual

/-- The text of an expression. -/
def display : Expr Float → String
  | .var v => varText v
  | .const _ none => "NULL"
  | .const _ (some d) => d.display
  | .relabel a t _ => a.display ++ "::" ++ t.label
  | .func i _ as _ => "f" ++ toString i.toNat ++ "(" ++ ", ".intercalate (displayList as) ++ ")"
  | .op i as => opText i (displayList as)
  | .boolTest t a => a.display ++ " " ++ t.text
  | .nullTest t a => a.display ++ " " ++ t.text
  | .and as => "(" ++ " AND ".intercalate (displayList as) ++ ")"
  | .or as => "(" ++ " OR ".intercalate (displayList as) ++ ")"
  | .not a => "NOT " ++ a.display

/-- The texts of the expressions of a list. -/
def displayList : List (Expr Float) → List String
  | [] => []
  | a :: as => a.display :: displayList as

end

end QueryPlanner.Expr
