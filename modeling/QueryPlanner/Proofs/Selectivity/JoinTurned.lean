/-
  QueryPlanner.Proofs.Selectivity.JoinTurned

  An equality of two columns is estimated alike from both sides.

  Values are paired from left to right, so the pairs found for `b = a` are in
  another order than those for `a = b`.  But `=` of a type is an equality on all
  values, and of values that are distinct on each side it leaves no choice: the
  pairs are those of equal values, from either side.  All else that the estimate
  takes from the pairs are sums over them, and of the two views it takes the
  smaller one.
-/

import QueryPlanner.Pattern.Regex.Engine
import QueryPlanner.Proofs.Selectivity.Join
import QueryPlanner.Proofs.Selectivity.Monotone

namespace QueryPlanner

namespace Selectivity

/-! ## Equality of values -/

/-- In exact numbers values are equal if they are of one family and at one
place in it. -/
theorem holds_equal_rational (log2 : Rat → Rat) (a b : Datum Rat) :
    letI := Number.rational log2
    (Procedure.ordering .equal).holds a b = true ↔ a.family = b.family ∧ a.place = b.place := by
  let _ := Number.rational log2
  rw [holds_rational]
  by_cases hfamily : a.family = b.family
  · rw [if_pos hfamily, and_iff_right hfamily]
    exact Ordering.isEq_iff_eq_eq.trans Std.LawfulEqCmp.compare_eq_iff_eq
  · rw [if_neg hfamily]
    exact iff_of_false Bool.false_ne_true fun h => hfamily h.1

/-- So `=` of a type decides as an equality does. -/
theorem equalityOn_equal (log2 : Rat → Rat) (values : List (Datum Rat)) :
    letI := Number.rational log2
    (Procedure.ordering .equal).EqualityOn values := by
  let _ := Number.rational log2
  constructor
  · intro a _ b _ hab
    obtain ⟨hfamily, hplace⟩ := (holds_equal_rational log2 a b).mp hab
    exact (holds_equal_rational log2 b a).mpr ⟨hfamily.symm, hplace.symm⟩
  · intro a _ b _ c _ hab hbc
    obtain ⟨hfamily, hplace⟩ := (holds_equal_rational log2 a b).mp hab
    obtain ⟨hfamily', hplace'⟩ := (holds_equal_rational log2 b c).mp hbc
    exact (holds_equal_rational log2 a c).mpr ⟨hfamily.trans hfamily', hplace.trans hplace'⟩

/-! ## Pairs seen from the other side -/

/-- The order of the paired places does not matter. -/
theorem JoinSide.shares_perm {α : Type} [Number α] (s : JoinSide α) {paired paired' : List Nat}
    (h : paired.Perm paired') : s.shares paired = s.shares paired' := by
  have hcontains (i : Nat) : paired.contains i = paired'.contains i := h.contains_eq
  rw [shares, shares, split, split]
  simp only [hcontains]

section Pairs

variable {log2 : Rat → Rat} {l r : JoinSide Rat} {pairs pairs' : List (Nat × Nat)}

/-- The same pairs, with the sides exchanged, make the same estimate. -/
theorem fromPairs_swap (hperm : pairs'.Perm (pairs.map Prod.swap)) :
    letI := Number.rational log2
    fromPairs r l pairs' = fromPairs l r pairs := by
  let _ := Number.rational log2
  have hlength : pairs'.length = pairs.length := by
    rw [hperm.length_eq, List.length_map]
  have hright : r.shares (pairs'.map (·.1)) = r.shares (pairs.map (·.2)) := by
    have hfst := hperm.map (·.1)
    rw [List.map_map] at hfst
    exact r.shares_perm hfst
  have hleft : l.shares (pairs'.map (·.2)) = l.shares (pairs.map (·.1)) := by
    have hsnd := hperm.map (·.2)
    rw [List.map_map] at hsnd
    exact l.shares_perm hsnd
  have hsum : pairSum r l pairs' = pairSum l r pairs := by
    rw [pairSum_rational, pairSum_rational,
      (hperm.map fun x => r.numbers[x.1]?.getD 0 * l.numbers[x.2]?.getD 0).sum_eq, List.map_map]
    refine congrArg List.sum (List.map_congr_left ?_)
    intro x _
    exact mul_comm _ _
  rw [fromPairs, fromPairs, hsum, hlength, hleft, hright, Number.min_rational,
    Number.min_rational, min_comm]

end Pairs

/-! ## Columns -/

section Columns

variable {log2 : Rat → Rat} {p : Planner Rat} {l r : Variable Rat} {op : Procedure Rat}

/-- The common values that are read of a column, if any, are distinct. -/
def CommonDistinct {α : Type} [Number α] (op : Procedure α) (v : Variable α) : Prop :=
  ∀ mcv, v.slot? .mcv none = some mcv → op.Distinct mcv.values

theorem joinFraction_turned
    (hequality : ∀ values, @Procedure.EqualityOn Rat (Number.rational log2) op values)
    (hl : @CommonDistinct Rat (Number.rational log2) op l)
    (hr : @CommonDistinct Rat (Number.rational log2) op r) :
    letI := Number.rational log2
    joinFraction p op r l = joinFraction p op l r := by
  let _ := Number.rational log2
  have hunknown : (1 - r.nullFraction) * (1 - l.nullFraction) /
        Number.max (r.distinctCount p) (l.distinctCount p) =
      (1 - l.nullFraction) * (1 - r.nullFraction) /
        Number.max (l.distinctCount p) (r.distinctCount p) := by
    rw [Number.max_rational, Number.max_rational, max_comm, mul_comm]
  rw [joinFraction, joinFraction]
  cases hml : l.slot? .mcv none with
  | none => cases r.slot? .mcv none <;> exact hunknown
  | some ml =>
      cases hmr : r.slot? .mcv none with
      | none => exact hunknown
      | some mr =>
          have hpaired := pairedOff_pairUp op ml.values mr.values
          have hpaired' := pairedOff_pairUp op mr.values ml.values
          have hperm := hpaired.perm_swap hpaired' (hequality _) (hl ml hml) (hr mr hmr)
          dsimp only
          rw [fromCommonValues_eq, fromCommonValues_eq]
          exact fromPairs_swap hperm

/-- **An equality join is estimated alike from both sides.**  In exact numbers,
for a built-in `=` and operands whose common values, where they are known, are
distinct on each side, the estimates of `a = b` and of `b = a` are one, and the
pairs that the scan finds are all the pairs of equal values. -/
theorem joinEquality_turned (log2 : Rat → Rat) {a b : Expr Rat} {op : Operator Rat}
    (hcompares : p.operators.Compares engine op.left)
    (hop : op ∈ (OperatorCatalog.builtin engine : OperatorCatalog Rat).operators)
    (hequal : op.IsComparison .equal)
    (ha : @Variable.examine Rat (Number.rational log2) p a none = .ok l)
    (hb : @Variable.examine Rat (Number.rational log2) p b none = .ok r)
    (hl : @CommonDistinct Rat (Number.rational log2) op.procedure l)
    (hr : @CommonDistinct Rat (Number.rational log2) op.procedure r) :
    letI := Number.rational log2
    (∃ f, joinEquality p op.oid [a, b] .inner = .ok f ∧
      joinEquality p op.oid [b, a] .inner = .ok f) ∧
    ∀ ml mr, l.slot? .mcv none = some ml → r.slot? .mcv none = some mr → ∀ i j,
      (i, j) ∈ pairUp op.procedure mr.values [] 0 ml.values ↔
        ∃ x y, ml.values[i]? = some x ∧ mr.values[j]? = some y ∧
          op.procedure.holds x y = true := by
  let _ := Number.rational log2
  have hkeeps : JoinType.inner.dedupsInner = false := rfl
  have hget : p.operators.get? op.oid = some op := by
    obtain ⟨base, dataType, rfl, hsix⟩ := hcompares.hasSix hop hequal
    exact hsix .equal
  have hprocedure : op.procedure = .ordering .equal := hequal
  have hequality (values : List (Datum Rat)) : op.procedure.EqualityOn values := by
    rw [hprocedure]
    exact equalityOn_equal log2 values
  constructor
  · have hforward := joinEquality_eq hkeeps hget ha hb
    have hbackward := joinEquality_eq hkeeps hget hb ha
    rw [joinFraction_turned hequality hl hr] at hbackward
    exact ⟨_, hforward, hbackward⟩
  · intro ml mr hml hmr i j
    have hpaired := pairedOff_pairUp op.procedure ml.values mr.values
    exact hpaired.mem_iff (hequality _) (hl ml hml) (hr mr hmr)

end Columns

section Example

/-- `$1.1 = $2.1` and `$2.1 = $1.1`, where 45 is common in both tables: the one
pair is found from both sides. -/
theorem joinEquality_turned_ages :
    letI := Number.rational id
    (∃ f, joinEquality (twoTables members guests) 1012 firstColumns .inner = .ok f ∧
      joinEquality (twoTables members guests) 1012 firstColumns.reverse .inner = .ok f) ∧
    (1, 0) ∈ pairUp sameAge.procedure [.int4 45, .int4 60] [] 0 [.int4 30, .int4 45] := by
  let _ := Number.rational id
  have hmembers : CommonDistinct sameAge.procedure (columnOf 1) := by
    intro mcv hmcv
    cases hmcv
    decide +kernel
  have hguests : CommonDistinct sameAge.procedure (columnOf 2) := by
    intro mcv hmcv
    cases hmcv
    decide +kernel
  have hcompares : (twoTables members guests).operators.Compares Regex.engine sameAge.left :=
    OperatorCatalog.compares_builtin sameAge.left
  obtain ⟨hestimates, hpairs⟩ := joinEquality_turned id hcompares sameAge_mem rfl
    (examine_columnOf (.inl rfl)) (examine_columnOf (.inr rfl)) hmembers hguests
  refine ⟨hestimates, (hpairs _ _ rfl rfl 1 0).mpr ?_⟩
  exact ⟨.int4 45, .int4 45, rfl, rfl, by decide +kernel⟩

end Example

end Selectivity

end QueryPlanner
