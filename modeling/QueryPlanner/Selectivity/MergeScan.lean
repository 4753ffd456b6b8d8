/-
  QueryPlanner.Selectivity.MergeScan

  How much of each input a merge join reads before the other runs out.

  The left input stops once its values pass the right side's greatest one,
  and the other way round.  Only one side can stop early.
-/

import QueryPlanner.Selectivity.Range

namespace QueryPlanner.Selectivity

variable {α : Type} [Number α]

/-- The fractions read of the two inputs. -/
structure MergeScan (α : Type) where
  left : α
  right : α

/-- Both inputs read whole. -/
def MergeScan.whole : MergeScan α := ⟨1, 1⟩

/-- The larger fraction is of the input that ends first, which is read
whole. -/
def MergeScan.settle (s : MergeScan α) : MergeScan α :=
  if s.right < s.left then { s with left := 1 }
  else if s.left < s.right then { s with right := 1 }
  else .whole

/-- `<=` from left to right and from right to left, found from the operators
of a merge clause. -/
def atMostOperators? (operators : OperatorCatalog α) (m : MergeOperators) : Option (Oid × Oid) := do
  let forward := operators.negator? m.greater
  let backward := (operators.commutator? m.less).bind operators.negator?
  return (← forward, ← backward)

/-- An estimate is believed only if it is not the default. -/
def believed (p : Planner α) (fraction : α) : α :=
  if Number.equal fraction p.settings.selectivity.inequality then 1 else fraction

/-- What a merge join on a clause reads of its inputs. -/
def mergeScan (p : Planner α) (e : Expr α) : Except (PlanError α) (MergeScan α) := do
  match e.binary? with
  | none => return .whole
  | some (opno, l, r) =>
    let lv ← Variable.examine p l none
    let rv ← Variable.examine p r none
    match p.operators.merge? opno with
    | none => return .whole
    | some m =>
      match ← lv.maximum? p m.leftSort with
      | none => return .whole
      | some leftMax =>
        match ← rv.maximum? p m.rightSort with
        | none => return .whole
        | some rightMax =>
          match atMostOperators? p.operators m with
          | none => return .whole
          | some (forward, backward) =>
            let left ← comparison p forward false lv rightMax r.type
            let right ← comparison p backward false rv leftMax l.type
            return MergeScan.settle ⟨believed p left, believed p right⟩

end QueryPlanner.Selectivity
