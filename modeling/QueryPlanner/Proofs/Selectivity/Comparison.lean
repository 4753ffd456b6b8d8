/-
  QueryPlanner.Proofs.Selectivity.Comparison

  What the estimate of a built-in comparison is.

  The six comparisons of a type share their estimators: equalities have one,
  inequalities one, and the four orderings one for either direction.  For an
  ordering of a column by a constant it comes to a number read off the
  statistics, whichever side the column stands on: with the column on the
  right the commutator is estimated in place of the operator.
-/

import QueryPlanner.Proofs.Operator.Comparison
import QueryPlanner.Proofs.PlanM
import QueryPlanner.Selectivity.Clause

namespace QueryPlanner

open PlanM

variable {α : Type} [Number α] {p : Planner α} {a : Expr α} {args : List (Expr α)}
  {var : Option RtIndex} {dataType : DataType} {base : Oid} {s : Strategy}

namespace Variable

/-- Of a constant nothing is known but its value. -/
theorem examine_const (p : Planner α) (var : Option RtIndex) (dataType : DataType)
    (value : Option (Datum α)) :
    examine p (.const dataType value) var = .ok (unbound p (.const dataType value)) := rfl

/-- A column of a built relation is found with the statistics of its column. -/
theorem examine_column {v : Var} {r : Relation α} {entry : RangeTableEntry}
    (hvar : concerns var v.relation = true) (hr : p.baseRelation v.relation = .ok r)
    (hentry : p.entry v.relation = .ok entry) :
    examine p (.var v) var = .ok { bound p (.var v) (some r) with
      statistics := entry.relation?.bind fun relation =>
        p.statistics.column relation v.column } := by
  have hexamine : examine p (.var v) var = ofColumn p (.var v) v := if_pos hvar
  rw [hexamine, ofColumn, hr, hentry]
  rfl

end Variable

namespace Selectivity

/-! ## Estimators -/

/-- The estimate of a comparison, before it is moved into `[0, 1]`. -/
def comparisonEstimate (p : Planner α) (opno : Oid) (s : Strategy) (args : List (Expr α))
    (var : Option RtIndex) : Except (PlanError α) α :=
  match s with
  | .equal => equality p opno args var
  | .notEqual => inequality p opno args var
  | s => scalar p opno s.keepsGreater args var

/-- Comparisons are registered with their estimate. -/
theorem restriction_comparison (h : p.operators.HasSix base dataType) (s : Strategy) :
    restriction p (base + OperatorCatalog.strategyOffset s) args var =
      clampProbability <$>
        comparisonEstimate p (base + OperatorCatalog.strategyOffset s) s args var := by
  rw [restriction, OperatorCatalog.lookup_of_get? (h s), map_eq_pure_bind]
  cases s <;> rfl

theorem restriction_comparison_eq_ok (h : p.operators.HasSix base dataType) {f : α} :
    restriction p (base + OperatorCatalog.strategyOffset s) args var = .ok f ↔
      ∃ g, comparisonEstimate p (base + OperatorCatalog.strategyOffset s) s args var = .ok g ∧
        clampProbability g = f := by
  rw [restriction_comparison h, map_eq_pure_bind, except_bind_eq_ok]
  refine exists_congr fun g => and_congr_right fun _ => ?_
  exact ⟨Except.ok.inj, congrArg Except.ok⟩

theorem comparisonEstimate_of_isRange {opno : Oid} (hs : s.IsRange) :
    comparisonEstimate p opno s args var = scalar p opno s.keepsGreater args var := by
  cases s with
  | equal => exact absurd rfl hs.1
  | notEqual => exact absurd rfl hs.2
  | less | lessEqual | greater | greaterEqual => rfl

/-! ## Orderings -/

/-- The share of the values that are not common which an ordering keeps, half
of them if no histogram tells. -/
def otherShare (s : Strategy) (v : Variable α) (constant : Datum α) (type : DataType) : α :=
  (histogramFraction (.ordering s) s.keepsGreater constant type v.type
    (v.slot? .histogram none)).getD 0.5

/-- The rows that an ordering of a column by a constant keeps, as the
statistics tell: common values are compared one by one, the other values that
are present are placed in the histogram. -/
def rangeFraction (s : Strategy) (v : Variable α) (stats : ColumnStatistics α)
    (constant : Datum α) (type : DataType) : α :=
  let (kept, common) :=
    commonFrequencies ((Procedure.ordering s).holds · constant) (v.slot? .mcv none)
  (1 - stats.nullFraction - common) * otherShare s v constant type + kept

/-- A column and a constant, in either order. -/
def operands (onLeft : Bool) (a : Expr α) (constant : Datum α) (type : DataType) :
    List (Expr α) :=
  if onLeft then [a, .const type (some constant)] else [.const type (some constant), a]

variable {v : Variable α} {stats : ColumnStatistics α}

theorem restriction?_operands (hv : Variable.examine p a var = .ok v)
    (hrelation : v.relation.isSome = true) (onLeft : Bool) (constant : Datum α) (type : DataType) :
    Variable.restriction? p (operands onLeft a constant type) var =
      .ok (some ⟨v, .const type (some constant), onLeft⟩) := by
  obtain ⟨r, hr⟩ := Option.isSome_iff_exists.mp hrelation
  have hconst := Variable.examine_const p var type (some constant)
  cases onLeft with
  | true =>
      refine except_bind_eq_ok.mpr ⟨v, hv, except_bind_eq_ok.mpr ⟨_, hconst, ?_⟩⟩
      rw [hr]
      rfl
  | false =>
      refine except_bind_eq_ok.mpr ⟨_, hconst, except_bind_eq_ok.mpr ⟨v, hv, ?_⟩⟩
      rw [hr]
      rfl

theorem comparison_eq {opno : Oid} {op : Operator α} (hop : p.operators.get? opno = some op)
    (hs : op.IsComparison s) (hstats : v.statistics = some stats) (constant : Datum α)
    (type : DataType) :
    comparison p opno s.keepsGreater v constant type =
      .ok (clampProbability (rangeFraction s v stats constant type)) := by
  rw [comparison, hstats]
  refine except_bind_eq_ok.mpr ⟨op, OperatorCatalog.lookup_of_get? hop, ?_⟩
  rw [hs]
  rfl

/-- The estimate of an ordering is read off the statistics. -/
theorem restriction_operands (h : p.operators.HasSix base dataType) (hs : s.IsRange)
    (hv : Variable.examine p a var = .ok v) (hrelation : v.relation.isSome = true)
    (hstats : v.statistics = some stats) (onLeft : Bool) (constant : Datum α) (type : DataType) :
    restriction p (base + OperatorCatalog.strategyOffset s) (operands onLeft a constant type) var =
      .ok (clampProbability (clampProbability
        (rangeFraction (if onLeft then s else s.commutator) v stats constant type))) := by
  have hoperands := restriction?_operands hv hrelation onLeft constant type
  refine (restriction_comparison_eq_ok h).mpr ⟨_, ?_, rfl⟩
  rw [comparisonEstimate_of_isRange hs]
  refine except_bind_eq_ok.mpr ⟨_, hoperands, ?_⟩
  cases onLeft with
  | true => exact comparison_eq (h s) rfl hstats constant type
  | false =>
      have hcomparison := comparison_eq (h s.commutator) rfl hstats constant type
      rw [hs.keepsGreater_commutator] at hcomparison
      simpa [h.commutator?, comparand] using hcomparison

end Selectivity

end QueryPlanner
