/-
  QueryPlanner.Proofs.Selectivity.MergeScan

  What a merge reads of an input does not depend on the side it is written on.

  The operators behind the two directions are found differently: `<=` from left
  to right is the opposite of `>`, and from right to left it is the opposite of
  the commutator of `<`.  Among the comparisons of one type both are `<=`, and
  both sides are sorted by `<`, so either input is read up to the greatest value
  of the other in the same way.  The estimates are then settled: the larger one
  is reset, or both are.
-/

import QueryPlanner.Pattern.Regex.Engine
import QueryPlanner.Proofs.Selectivity
import QueryPlanner.Proofs.Selectivity.Equality
import QueryPlanner.Proofs.Selectivity.Probability

namespace QueryPlanner

open PlanM

variable {α : Type} [Number α]

/-! ## Operators -/

namespace OperatorCatalog

variable {c : OperatorCatalog α} {base : Oid} {type : DataType}

/-- A merge on the equality of a type goes by the orderings of the type. -/
def mergeOperators (base : Oid) : MergeOperators where
  leftSort := base + strategyOffset .less
  rightSort := base + strategyOffset .less
  less := base + strategyOffset .less
  greater := base + strategyOffset .greater

omit [Number α] in
theorem HasSix.merge? (h : c.HasSix base type) :
    c.merge? (base + strategyOffset .equal) = some (mergeOperators base) := by
  rw [OperatorCatalog.merge?, h .equal]
  rfl

omit [Number α] in
/-- In both directions `<=` of the type is found. -/
theorem HasSix.atMostOperators? (h : c.HasSix base type) :
    Selectivity.atMostOperators? c (mergeOperators base) =
      some (base + strategyOffset .lessEqual, base + strategyOffset .lessEqual) := by
  have hforward : c.negator? (mergeOperators base).greater =
      some (base + strategyOffset .lessEqual) := h.negator? .greater
  have hbackward : (c.commutator? (mergeOperators base).less).bind c.negator? =
      some (base + strategyOffset .lessEqual) := by
    rw [mergeOperators, h.commutator? .less, Option.bind_some, Strategy.commutator,
      h.negator? .greater]
    rfl
  rw [Selectivity.atMostOperators?, hforward, hbackward]
  rfl

end OperatorCatalog

namespace Selectivity

/-! ## Settled fractions -/

/-- The same fractions with the inputs exchanged. -/
def MergeScan.turned (s : MergeScan α) : MergeScan α := ⟨s.right, s.left⟩

theorem settle_turned [Number.Ordered α] (s : MergeScan α) :
    s.turned.settle = s.settle.turned := by
  have hapart : s.left < s.right → ¬ s.right < s.left := by
    intro hlt hgt
    exact (Number.Ordered.lt_iff.mp hlt).2 (Number.Ordered.lt_iff.mp hgt).1
  rw [MergeScan.settle, MergeScan.settle, MergeScan.turned]
  by_cases hlt : s.left < s.right
  · rw [if_pos hlt, if_neg (hapart hlt), if_pos hlt]
    rfl
  · rw [if_neg hlt]
    split <;> rfl

/-- One of the inputs is read whole. -/
theorem settle_eq_one (s : MergeScan α) : s.settle.left = 1 ∨ s.settle.right = 1 := by
  rw [MergeScan.settle]
  split
  · exact .inl rfl
  · split
    · exact .inr rfl
    · exact .inl rfl

section Probabilities

open Number (Probabilities)

variable [Probabilities α] {p : Planner α} {f : α} {s : MergeScan α}

theorem isProbability_settle (hleft : IsProbability s.left) (hright : IsProbability s.right) :
    IsProbability s.settle.left ∧ IsProbability s.settle.right := by
  rw [MergeScan.settle]
  split
  · exact ⟨Probabilities.one, hright⟩
  · split
    · exact ⟨hleft, Probabilities.one⟩
    · exact ⟨Probabilities.one, Probabilities.one⟩

theorem isProbability_believed (h : IsProbability f) : IsProbability (believed p f) := by
  rw [believed]
  split
  · exact Probabilities.one
  · exact h

end Probabilities

/-! ## Inputs -/

variable {p : Planner α} {a b : Expr α} {l r : Variable α} {base : Oid} {dataType : DataType}
  {ltop rtop : Option (Datum α)} {s : MergeScan α}

/-- The share of a variable's rows with values up to some value. -/
def shareUpTo (p : Planner α) (v : Variable α) (top : Datum α) (type : DataType) : α :=
  match v.statistics with
  | none => p.settings.selectivity.inequality
  | some stats => clampProbability (rangeFraction .lessEqual v stats top type)

theorem comparison_lessEqual (h : p.operators.HasSix base dataType) (v : Variable α)
    (top : Datum α) (type : DataType) :
    comparison p (base + OperatorCatalog.strategyOffset .lessEqual) false v top type =
      .ok (shareUpTo p v top type) := by
  rw [shareUpTo]
  cases hstats : v.statistics with
  | none =>
      rw [comparison, hstats]
      rfl
  | some stats => exact comparison_eq (h .lessEqual) rfl hstats top type

/-- What a merge reads of two variables, given the greatest values on record. -/
def scanUpTo (p : Planner α) (l r : Variable α) (ltype rtype : DataType) :
    Option (Datum α) → Option (Datum α) → MergeScan α
  | some ltop, some rtop =>
    MergeScan.settle ⟨believed p (shareUpTo p l rtop rtype), believed p (shareUpTo p r ltop ltype)⟩
  | _, _ => .whole

theorem scanUpTo_turned [Number.Ordered α] (l r : Variable α) (ltype rtype : DataType)
    (ltop rtop : Option (Datum α)) :
    scanUpTo p r l rtype ltype rtop ltop = (scanUpTo p l r ltype rtype ltop rtop).turned := by
  cases ltop <;> cases rtop
  case some.some ltop rtop =>
    rw [scanUpTo, scanUpTo, ← settle_turned]
    rfl
  all_goals rfl

theorem scanUpTo_eq_one (l r : Variable α) (ltype rtype : DataType)
    (ltop rtop : Option (Datum α)) :
    (scanUpTo p l r ltype rtype ltop rtop).left = 1 ∨
      (scanUpTo p l r ltype rtype ltop rtop).right = 1 := by
  cases ltop <;> cases rtop
  case some.some ltop rtop => exact settle_eq_one _
  all_goals exact .inl rfl

/-- A greatest value comes from statistics. -/
theorem exists_statistics {v : Variable α} {sort : Oid} {top : Datum α}
    (h : v.maximum? p sort = .ok (some top)) : ∃ stats, v.statistics = some stats := by
  cases hstats : v.statistics with
  | none =>
      rw [Variable.maximum?, hstats] at h
      cases h
  | some stats => exact ⟨stats, rfl⟩

theorem isProbability_shareUpTo [Number.Probabilities α] {v : Variable α}
    {stats : ColumnStatistics α} (hstats : v.statistics = some stats) (top : Datum α)
    (type : DataType) : IsProbability (shareUpTo p v top type) := by
  rw [shareUpTo, hstats]
  exact Number.Probabilities.clamp _

theorem isProbability_scanUpTo [Number.Probabilities α] {sort : Oid} (ltype rtype : DataType)
    (hl : l.maximum? p sort = .ok ltop) (hr : r.maximum? p sort = .ok rtop) :
    IsProbability (scanUpTo p l r ltype rtype ltop rtop).left ∧
      IsProbability (scanUpTo p l r ltype rtype ltop rtop).right := by
  have hwhole : IsProbability (1 : α) := Number.Probabilities.one
  cases ltop <;> cases rtop
  case some.some ltop rtop =>
    obtain ⟨lstats, hlstats⟩ := exists_statistics hl
    obtain ⟨rstats, hrstats⟩ := exists_statistics hr
    exact isProbability_settle (isProbability_believed (isProbability_shareUpTo hlstats rtop rtype))
      (isProbability_believed (isProbability_shareUpTo hrstats ltop ltype))
  all_goals exact ⟨hwhole, hwhole⟩

/-! ## Clauses -/

/-- What a merge on a built-in equality reads of its inputs. -/
theorem mergeScan_equality (h : p.operators.HasSix base dataType)
    (hl : Variable.examine p a none = .ok l) (hr : Variable.examine p b none = .ok r)
    (hltop : l.maximum? p (base + OperatorCatalog.strategyOffset .less) = .ok ltop)
    (hrtop : r.maximum? p (base + OperatorCatalog.strategyOffset .less) = .ok rtop) :
    mergeScan p (.op (base + OperatorCatalog.strategyOffset .equal) [a, b]) =
      .ok (scanUpTo p l r a.type b.type ltop rtop) := by
  have hleft : l.maximum? p (OperatorCatalog.mergeOperators base).leftSort = .ok ltop := hltop
  have hright : r.maximum? p (OperatorCatalog.mergeOperators base).rightSort = .ok rtop := hrtop
  rw [mergeScan, Expr.binary?]
  simp only [hl, hr, h.merge?, hleft, hright, bind, Except.bind]
  cases ltop with
  | none => rfl
  | some ltop =>
      cases rtop with
      | none => rfl
      | some rtop => simp only [h.atMostOperators?, comparison_lessEqual h]; rfl

/-- If it succeeds, both operands are bound, and their greatest values are
looked for. -/
theorem operands_of_mergeScan (h : p.operators.HasSix base dataType)
    (hs : mergeScan p (.op (base + OperatorCatalog.strategyOffset .equal) [a, b]) = .ok s) :
    ∃ l r ltop rtop, Variable.examine p a none = .ok l ∧ Variable.examine p b none = .ok r ∧
      l.maximum? p (base + OperatorCatalog.strategyOffset .less) = .ok ltop ∧
      r.maximum? p (base + OperatorCatalog.strategyOffset .less) = .ok rtop := by
  have hsort := OperatorCatalog.lookup_of_get? (h .less)
  rw [mergeScan, Expr.binary?] at hs
  obtain ⟨l, hl, hs⟩ := except_bind_eq_ok.mp hs
  obtain ⟨r, hr, -⟩ := except_bind_eq_ok.mp hs
  obtain ⟨ltop, hltop⟩ := Variable.maximum?_total (v := l) ⟨_, hsort⟩
  obtain ⟨rtop, hrtop⟩ := Variable.maximum?_total (v := r) ⟨_, hsort⟩
  exact ⟨l, r, ltop, rtop, hl, hr, hltop, hrtop⟩

/-- **The fractions that a merge reads follow its operands.**  Where a merge on
`a = b` with a built-in equality can be estimated, so can one on `b = a`, and
the fractions are those of the first with the inputs exchanged.  One of the two
is exactly 1, and among numbers whose probabilities are closed under what
estimates do with them, as those of exact numbers are, both are probabilities. -/
theorem mergeScan_turned [Number.Ordered α] {op : Operator α}
    (hcompares : p.operators.Compares engine op.left)
    (hop : op ∈ (OperatorCatalog.builtin engine : OperatorCatalog α).operators)
    (hequal : op.IsComparison .equal) (hs : mergeScan p (.op op.oid [a, b]) = .ok s) :
    mergeScan p (.op op.oid [b, a]) = .ok s.turned ∧ (s.left = 1 ∨ s.right = 1) ∧
      (Number.Probabilities α → IsProbability s.left ∧ IsProbability s.right) := by
  obtain ⟨base, dataType, rfl, hsix⟩ := hcompares.hasSix hop hequal
  obtain ⟨l, r, ltop, rtop, hl, hr, hltop, hrtop⟩ := operands_of_mergeScan hsix hs
  have hscan : s = scanUpTo p l r a.type b.type ltop rtop :=
    Except.ok.inj (hs.symm.trans (mergeScan_equality hsix hl hr hltop hrtop))
  subst hscan
  refine ⟨?_, scanUpTo_eq_one l r a.type b.type ltop rtop, ?_⟩
  · rw [← scanUpTo_turned]
    exact mergeScan_equality hsix hr hl hrtop hltop
  · intro _
    exact isProbability_scanUpTo a.type b.type hltop hrtop

section Example

/-- Numbers from 0 to some bound, spread evenly. -/
def numbersUpTo (bound : Int32) : ColumnStatistics Rat where
  nullFraction := 0
  averageWidth := 4
  distinct := -1
  slots := [⟨.histogram, 1014, [.int4 0, .int4 bound], []⟩]

/-- `$1.1 = $2.1` and `$2.1 = $1.1`, with numbers up to 1000 in the first table
and up to 100 in the second: a tenth of the first is read. -/
theorem mergeScan_turned_upToHundred :
    letI := Number.rational id
    ∃ s, mergeScan (twoTables (numbersUpTo 1000) (numbersUpTo 100)) (.op 1012 firstColumns) =
        .ok s ∧ (s.left, s.right) = (1 / 10, 1) ∧
      mergeScan (twoTables (numbersUpTo 1000) (numbersUpTo 100))
        (.op 1012 firstColumns.reverse) = .ok s.turned ∧
      IsProbability s.left ∧ IsProbability s.right := by
  let _ := Number.rational id
  have hline := Number.ordered_rational id
  have hrun : (mergeScan (twoTables (numbersUpTo 1000) (numbersUpTo 100))
      (.op 1012 firstColumns)).toOption.map (fun s => (s.left, s.right)) =
        some (1 / 10, 1) := by decide +kernel
  cases hscan : mergeScan (twoTables (numbersUpTo 1000) (numbersUpTo 100))
      (.op 1012 firstColumns) with
  | error e =>
      rw [hscan] at hrun
      cases hrun
  | ok s =>
      rw [hscan] at hrun
      obtain ⟨hturned, -, hprobabilities⟩ := mergeScan_turned
        (OperatorCatalog.compares_builtin sameAge.left) sameAge_mem rfl hscan
      exact ⟨s, rfl, Option.some.inj hrun, hturned,
        hprobabilities (Number.probabilities_rational id)⟩

end Example

end Selectivity

end QueryPlanner
