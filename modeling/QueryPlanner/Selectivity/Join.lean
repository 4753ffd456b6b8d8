/-
  QueryPlanner.Selectivity.Join

  The fraction of the pairs of two inputs that an equality keeps.

  Where both sides have most common values, equal ones are paired, each value
  with the first that is still free.  Pairs are known exactly; what is left is
  spread evenly over the remaining distinct values.
-/

import QueryPlanner.JoinType
import QueryPlanner.Selectivity.Equality

namespace QueryPlanner.Selectivity

variable {α : Type} [Number α]

/-- The place of the first value that fits and is free. -/
def firstFree? (fits : Datum α → Bool) (taken : List Nat) (values : List (Datum α)) : Option Nat :=
  (values.zipIdx.find? fun (v, j) => !taken.contains j && fits v).map (·.2)

/-- Pairs the values of one list with those of another, from the places `i`
and on; the pairs are places in both lists. -/
def pairUp (op : Procedure α) (others : List (Datum α)) (pairs : List (Nat × Nat)) (i : Nat) :
    List (Datum α) → List (Nat × Nat)
  | [] => pairs
  | v :: rest =>
    match firstFree? (op.holds v) (pairs.map (·.2)) others with
    | some j => pairUp op others (pairs ++ [(i, j)]) (i + 1) rest
    | none => pairUp op others pairs (i + 1) rest

/-- The most common values of one side of a join. -/
structure JoinSide (α : Type) where
  values : List (Datum α)
  numbers : List α
  nullFraction : α
  distinct : α

/-- The frequency of the value at a place. -/
def JoinSide.frequency (s : JoinSide α) (i : Nat) : α := s.numbers[i]?.getD 0

/-- The frequencies of the paired values and of the others. -/
def JoinSide.split (s : JoinSide α) (paired : List Nat) : α × α :=
  let sums := (List.range s.values.length).foldl
    (fun (matched, unmatched) i =>
      if paired.contains i then (matched + s.frequency i, unmatched)
      else (matched, unmatched + s.frequency i)) ((0 : α), (0 : α))
  (clampProbability sums.1, clampProbability sums.2)

/-- A side in numbers: frequencies of its paired and of its other common
values, and of all values that are not common. -/
structure SideShares (α : Type) where
  unmatched : α
  other : α
  values : α
  distinct : α

def JoinSide.shares (s : JoinSide α) (paired : List Nat) : SideShares α :=
  let (matched, unmatched) := s.split paired
  { unmatched := unmatched
    other := clampProbability (1 - s.nullFraction - matched - unmatched)
    values := Number.ofNat s.values.length
    distinct := s.distinct }

/-- The estimate seen from one side, with the other side's distinct values as
what its own are spread over. -/
def estimateFrom (pairShare pairs : α) (own facing : SideShares α) : α :=
  let sel :=
    if facing.values < facing.distinct then
      pairShare + own.unmatched * facing.other / (facing.distinct - facing.values)
    else pairShare
  if pairs < facing.distinct then
    sel + own.other * (facing.other + facing.unmatched) / (facing.distinct - pairs)
  else sel

/-- The estimate from the common values of both sides: of the two views the
smaller one. -/
def fromCommonValues (op : Procedure α) (l r : JoinSide α) : α :=
  let pairs := pairUp op r.values [] 0 l.values
  let pairShare := clampProbability
    (pairs.foldl (fun acc (i, j) => acc + l.frequency i * r.frequency j) (0 : α))
  let ls := l.shares (pairs.map (·.1))
  let rs := r.shares (pairs.map (·.2))
  let count : α := Number.ofNat pairs.length
  Number.min (estimateFrom pairShare count ls rs) (estimateFrom pairShare count rs ls)

/-- The right side of a join; where its duplicates are removed, every value
has the same frequency, null among them. -/
def rightSide (type : JoinType) (v : Variable α) (mcv : SlotView α) (distinct : α) : JoinSide α :=
  if type.dedupsInner then
    ⟨mcv.values, List.replicate mcv.values.length (1 / distinct), 1 / distinct, distinct⟩
  else ⟨mcv.values, mcv.numbers, v.nullFraction, distinct⟩

/-- `a = b` across two relations. -/
def joinEquality (p : Planner α) (opno : Oid) (args : List (Expr α)) (type : JoinType) :
    Except (PlanError α) α := do
  let (l, r) ← Variable.joinOperands p args
  let nl := l.distinctCount p
  let nr := r.distinctCount p
  match l.slot? .mcv none, r.slot? .mcv none with
  | some ml, some mr =>
    let op ← p.operators.lookup opno
    return clampProbability (fromCommonValues op.procedure
      ⟨ml.values, ml.numbers, l.nullFraction, nl⟩ (rightSide type r mr nr))
  | _, _ =>
    return clampProbability
      ((1 - l.nullFraction) * (1 - r.nullFraction) / Number.max nl nr)

/-- `a <> b` across two relations. -/
def joinInequality (p : Planner α) (opno : Oid) (args : List (Expr α)) (type : JoinType) :
    Except (PlanError α) α := do
  match p.operators.negator? opno with
  | some equal => return 1 - (← joinEquality p equal args type)
  | none => return 1 - p.settings.selectivity.equality

end QueryPlanner.Selectivity
