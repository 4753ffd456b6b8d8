/-
  QueryPlanner.Stored.Expr

  The stored form of expressions, and of orderings, which are made of them.

  An expression is a record with the member of its kind.  An operator is
  stored by its identifier, and may be read by its name and operand types too.
-/

import QueryPlanner.Pathkeys
import QueryPlanner.Stored.Datum

namespace QueryPlanner

/-! ## Types and operators -/

namespace DataType

def stored (t : DataType) : Stored := .text t.label

def ofStored? (s : Stored) : Option DataType := s.named? all label

end DataType

/-- An operator by its identifier, or by name and operand types. -/
def OperatorCatalog.ofStored? (c : OperatorCatalog Float) : Stored → Option Oid
  | .text name => c.resolve? name
  | s => s.uint32?

/-! ## Expressions -/

namespace Expr

mutual

/-- The stored form of an expression. -/
def stored : Expr Float → Stored
  | .var v => .record [("var",
      .list [.int v.relation, .int v.column, v.type.stored, .int v.typmod])]
  | .const t v => .record [("const", .list [t.stored, (v.map Datum.stored).getD .null])]
  | .relabel a t m => .record [("relabel", .list [a.stored, t.stored, .int m])]
  | .func i t as v => .record [("func", .record [("id", .int i.toNat), ("ret", t.stored),
      ("args", .list (storedList as)), ("volatile", .bool v)])]
  | .op i as => .record [("op", .int i.toNat), ("args", .list (storedList as))]
  | .boolTest t a => .record [("booltest", .list [.text t.text, a.stored])]
  | .nullTest t a => .record [("nulltest", .list [.text t.text, a.stored])]
  | .and as => .record [("and", .list (storedList as))]
  | .or as => .record [("or", .list (storedList as))]
  | .not a => .record [("not", a.stored)]

def storedList : List (Expr Float) → List Stored
  | [] => []
  | a :: as => a.stored :: storedList as

end

/-- A type modifier, none if it is left out. -/
def typmodOf? (more : List Stored) : Option Int :=
  (more.headD .null).getD (-1) fun s => s.int32?.map Int32.toInt

/-- The members that tell what kind of expression is stored. -/
def kinds : List String :=
  ["var", "const", "relabel", "func", "op", "booltest", "nulltest", "and", "or", "not"]

/-- An expression nested no deeper than a bound. -/
def ofStoredWithin? (c : OperatorCatalog Float) : Nat → Stored → Option (Expr Float)
  | 0, _ => none
  | n + 1, s => do
    let inner := ofStoredWithin? c n
    match ← (s.firstOf? kinds).or (s.namedFirst? ["and", "or"]) with
    | ("var", .list (r :: k :: t :: more)) =>
      return .var ⟨← r.size?, ← k.short?, ← DataType.ofStored? t, ← typmodOf? more⟩
    | ("const", .list [t, v]) =>
      return .const (← DataType.ofStored? t) (← v.optional? (Datum.ofStored? .query))
    | ("relabel", .list (a :: t :: more)) =>
      return .relabel (← inner a) (← DataType.ofStored? t) (← typmodOf? more)
    | ("func", f) =>
      return .func (← (f.member "id").uint32?) (← DataType.ofStored? (f.member "ret"))
        (← (f.member "args").items? inner) (← (f.member "volatile").getD false Stored.bool?)
    | ("op", i) => return .op (← c.ofStored? i) (← (s.member "args").items? inner)
    | ("booltest", .list [t, a]) =>
      return .boolTest (← t.named? BoolTest.all BoolTest.text) (← inner a)
    | ("nulltest", .list [t, a]) =>
      return .nullTest (← t.named? NullTest.all NullTest.text) (← inner a)
    | ("and", as) => return .and (← as.items? inner)
    | ("or", as) => return .or (← as.items? inner)
    | ("not", a) => return .not (← inner a)
    | _ => none

/-- The expression of a stored form. -/
def ofStored? (c : OperatorCatalog Float) (s : Stored) : Option (Expr Float) :=
  ofStoredWithin? c s.height s

end Expr

/-! ## Orderings and target lists -/

def SortItem.ofStored? (c : OperatorCatalog Float) : Stored → Option (SortItem Float)
  | .list [e, op] => do return ⟨← Expr.ofStored? c e, ← c.ofStored? op⟩
  | _ => none

def Pathkeys.ofStored? (c : OperatorCatalog Float) (s : Stored) : Option (Pathkeys Float) :=
  s.items? (Stored.items? (SortItem.ofStored? c))

/-- Expressions as columns numbered from 1. -/
def TargetList.ofStored? (c : OperatorCatalog Float) (s : Stored) : Option (TargetList Float) := do
  return (← s.items? (Expr.ofStored? c)).mapIdx fun i e => ⟨i + 1, e⟩

end QueryPlanner
