/-
  QueryPlanner.Proofs.Path.Priced

  No path is cheaper to finish than to start.

  A cost is a startup with a run added to it, so all depends on runs that are
  not negative.  Some of them subtract: an input is charged without its
  startup, an index scan blends two charges for the heap, and rescans leave
  out the first row.  The bounds behind them come from elsewhere: fractions
  are probabilities, correlations lie between -1 and 1, and an input that is
  priced costs at least its startup.

  What this takes of the numbers is `Number.Amounts`, which exact rationals
  have with any logarithm that is not negative from 2 on.
-/

import Mathlib.Algebra.Order.Floor.Semifield
import Mathlib.Data.Rat.Floor
import QueryPlanner.Proofs.Number
import QueryPlanner.Proofs.Path.Candidates
import QueryPlanner.Proofs.Selectivity.Probability

namespace QueryPlanner

open PlanM

/-! ## Amounts -/

/-- The number lies in `[-1, 1]`. -/
def IsCorrelation {α : Type} [Number α] (c : α) : Prop := -1 ≤ c ∧ c ≤ 1

/-- A line without gaps, on which the amounts from zero on are closed under
what costs do with them. -/
class Number.Amounts (α : Type) [Number α] : Prop extends Number.Ordered α where
  le_refl (a : α) : a ≤ a
  ofNat (n : Nat) : (0 : α) ≤ Number.ofNat n
  ofDecimal (m k : Nat) : (0 : α) ≤ Number.ofDecimal m k
  add {a b : α} : 0 ≤ a → 0 ≤ b → 0 ≤ a + b
  mul {a b : α} : 0 ≤ a → 0 ≤ b → 0 ≤ a * b
  div {a b : α} : 0 ≤ a → 0 ≤ b → 0 ≤ a / b
  sub {a b : α} : b ≤ a → 0 ≤ a - b
  le_add_right {a b : α} : 0 ≤ b → a ≤ a + b
  le_add_left {a b : α} : 0 ≤ b → a ≤ b + a
  ceil {a : α} : 0 ≤ a → 0 ≤ Number.ceil a
  clampRows (a : α) : 0 ≤ clampRows a
  log2 {a : α} : 2 ≤ a → 0 ≤ Number.log2 a
  uncorrelated : IsCorrelation (0 : α)
  dilute {c : α} : IsCorrelation c → IsCorrelation (c * 0.75)
  /-- A square of a correlation takes one amount to the other, and not past
  it. -/
  blend {a b c : α} : 0 ≤ a → 0 ≤ b → IsCorrelation c → 0 ≤ a + c * c * (b - a)

namespace Number

/-- A number between two amounts is one. -/
theorem blend_nonneg {a b c : Rat} (ha : 0 ≤ a) (hb : 0 ≤ b) (hc : -1 ≤ c ∧ c ≤ 1) :
    0 ≤ a + c * c * (b - a) := by
  have hsquare : c * c ≤ 1 := by nlinarith [hc.1, hc.2]
  have hsplit : a + c * c * (b - a) = (1 - c * c) * a + c * c * b := by ring
  rw [hsplit]
  exact add_nonneg (mul_nonneg (by linarith) ha) (mul_nonneg (mul_self_nonneg c) hb)

theorem isCorrelation_rational_iff {log2 : Rat → Rat} {c : Rat} :
    @IsCorrelation Rat (rational log2) c ↔ -1 ≤ c ∧ c ≤ 1 := by
  show -((1 : Int) : Rat) ≤ c ∧ c ≤ ((1 : Int) : Rat) ↔ _
  rw [Int.cast_one]

theorem zero_le_rational_iff {log2 : Rat → Rat} {a : Rat} :
    letI := rational log2
    (instOfNat 0).ofNat ≤ a ↔ 0 ≤ a := by
  show ((0 : Int) : Rat) ≤ a ↔ 0 ≤ a
  rw [Int.cast_zero]

theorem amounts_rational (log2 : Rat → Rat) (hlog : ∀ x, 2 ≤ x → 0 ≤ log2 x) :
    @Amounts Rat (rational log2) :=
  letI := rational log2
  { ordered_rational log2 with
    le_refl := fun _ => Rat.le_refl
    ofNat := fun n => zero_le_rational_iff.mpr (Int.cast_nonneg (Int.natCast_nonneg n))
    ofDecimal := fun m k => zero_le_rational_iff.mpr
      (div_nonneg (Nat.cast_nonneg m) (Nat.cast_nonneg _))
    add := fun ha hb => zero_le_rational_iff.mpr
      (add_nonneg (zero_le_rational_iff.mp ha) (zero_le_rational_iff.mp hb))
    mul := fun ha hb => zero_le_rational_iff.mpr
      (mul_nonneg (zero_le_rational_iff.mp ha) (zero_le_rational_iff.mp hb))
    div := fun ha hb => zero_le_rational_iff.mpr
      (div_nonneg (zero_le_rational_iff.mp ha) (zero_le_rational_iff.mp hb))
    sub := fun hab => zero_le_rational_iff.mpr (sub_nonneg.mpr hab)
    le_add_right := fun hb => le_add_of_nonneg_right (zero_le_rational_iff.mp hb)
    le_add_left := fun hb => le_add_of_nonneg_left (zero_le_rational_iff.mp hb)
    ceil := fun {a} ha => by
      refine zero_le_rational_iff.mpr ?_
      show 0 ≤ ((a.ceil : Int) : Rat)
      exact (zero_le_rational_iff.mp ha).trans Rat.le_ceil
    clampRows := fun a => by
      refine zero_le_rational_iff.mpr ?_
      show 0 ≤ if a ≤ ((1 : Int) : Rat) then ((1 : Int) : Rat) else
        if 0 ≤ a then (((a + 1 / 2).floor : Int) : Rat) else -((-a + 1 / 2).floor : Int)
      rw [Int.cast_one]
      split_ifs with hone hzero
      · exact zero_le_one
      · exact Int.cast_nonneg (Rat.le_floor_iff.mpr (by push_cast; linarith))
      · linarith
    log2 := fun {a} ha => by
      refine zero_le_rational_iff.mpr (hlog a ?_)
      have htwo : ((2 : Int) : Rat) ≤ a := ha
      exact_mod_cast htwo
    uncorrelated := by
      rw [isCorrelation_rational_iff]
      show -1 ≤ ((0 : Int) : Rat) ∧ ((0 : Int) : Rat) ≤ 1
      norm_num
    dilute := fun {c} hc => by
      rw [isCorrelation_rational_iff] at hc ⊢
      show -1 ≤ c * ((75 : Nat) / (Nat.pow 10 2 : Nat)) ∧ c * ((75 : Nat) / (Nat.pow 10 2 : Nat)) ≤ 1
      norm_num
      constructor <;> linarith
    blend := fun ha hb hc => zero_le_rational_iff.mpr (blend_nonneg (zero_le_rational_iff.mp ha)
      (zero_le_rational_iff.mp hb) (isCorrelation_rational_iff.mp hc)) }

end Number

variable {α : Type} [Number α] [Number.Amounts α] {p : Planner α} {r : Relation α}

open Number (Amounts Probabilities)

namespace Number

theorem zero_nonneg : (0 : α) ≤ 0 := Amounts.ofNat 0

theorem one_nonneg : (0 : α) ≤ 1 := Amounts.ofNat 1

theorem two_nonneg : (0 : α) ≤ 2 := Amounts.ofNat 2

theorem le_of_not_lt {a b : α} (h : ¬ a < b) : b ≤ a := by
  by_contra hba
  exact h (lt_of_not_le (Amounts.le_refl b) (Amounts.le_refl a) hba)

theorem le_max_right (a b : α) : b ≤ Number.max a b := by
  rw [Number.max, if_pos (Amounts.le_refl a)]
  split
  next => exact Amounts.le_refl b
  next h => exact le_of_not_lt h

theorem max_nonneg (a : α) {b : α} (hb : 0 ≤ b) : 0 ≤ Number.max a b :=
  Ordered.le_trans hb (le_max_right a b)

theorem min_nonneg {a b : α} (ha : 0 ≤ a) (hb : 0 ≤ b) : 0 ≤ Number.min a b := by
  rw [Number.min, if_pos (Amounts.le_refl a)]
  split
  next => exact hb
  next => exact ha

theorem clamp_nonneg {lo hi : α} (x : α) (hlo : 0 ≤ lo) (hhi : 0 ≤ hi) :
    0 ≤ clamp lo hi x := by
  unfold clamp
  split
  next => exact hlo
  next h =>
    split
    next => exact hhi
    next => exact Ordered.le_trans hlo (le_of_not_lt h)

theorem sum_nonneg {xs : List α} (h : ∀ x ∈ xs, 0 ≤ x) : 0 ≤ Number.sum xs :=
  List.foldlRecOn (motive := (0 ≤ ·)) xs _ zero_nonneg fun _ hs x hx => Amounts.add hs (h x hx)

end Number

/-! ## Parameters and inputs -/

/-- No unit of cost is negative. -/
structure CostParams.NonNeg (params : CostParams α) : Prop where
  seqPage : 0 ≤ params.seqPage
  randomPage : 0 ≤ params.randomPage
  cpuTuple : 0 ≤ params.cpuTuple
  cpuIndexTuple : 0 ≤ params.cpuIndexTuple
  cpuOperator : 0 ≤ params.cpuOperator
  placeholderPages : 0 ≤ params.placeholderPages
  placeholderTuples : 0 ≤ params.placeholderTuples

theorem CostParams.nonNeg_standard : (.standard : CostParams α).NonNeg where
  seqPage := Amounts.ofNat 1
  randomPage := Amounts.ofNat 4
  cpuTuple := Amounts.ofDecimal 1 2
  cpuIndexTuple := Amounts.ofDecimal 1 3
  cpuOperator := Amounts.ofDecimal 25 4
  placeholderPages := Amounts.ofNat 10
  placeholderTuples := Amounts.ofNat 1000

/-- A startup that is not negative, and a total that is not below it. -/
structure PathCost.Priced (c : PathCost α) : Prop where
  startup : 0 ≤ c.startup
  total : c.startup ≤ c.total

/-- The path of some rows is not cheaper to finish than to start. -/
structure Path.Priced (path : Path α) : Prop where
  rows : 0 ≤ path.rows
  startup : 0 ≤ path.startup
  total : path.startup ≤ path.total

/-- All inputs of an operator are priced. -/
def PathOperator.Priced : PathOperator α → Prop
  | .seqScan _ | .indexScan _ => True
  | .nestLoop join | .mergeJoin join .. | .hashJoin join _ => join.outer.Priced ∧ join.inner.Priced

/-- The correlations on record of a column lie in `[-1, 1]`. -/
def ColumnStatistics.Correlated (s : ColumnStatistics α) : Prop :=
  ∀ slot ∈ s.slots, slot.kind = .correlation → ∀ c ∈ slot.numbers, IsCorrelation c

/-- So do all that a provider has. -/
structure StatisticsProvider.Correlated (provider : StatisticsProvider α) : Prop where
  column : ∀ relation n s, provider.column relation n = some s → s.Correlated
  index : ∀ index n s, provider.index index n = some s → s.Correlated

theorem Path.priced_ofRun {startup run : α} (hstartup : 0 ≤ startup) (hrun : 0 ≤ run) :
    (ofRun startup run).Priced :=
  ⟨hstartup, Amounts.le_add_right hrun⟩

theorem Path.Priced.total_nonneg {path : Path α} (h : path.Priced) : 0 ≤ path.total :=
  Number.Ordered.le_trans h.startup h.total

theorem Path.Priced.run_nonneg {path : Path α} (h : path.Priced) :
    0 ≤ path.total - path.startup :=
  Amounts.sub h.total

variable {params : CostParams α}

theorem qualCost_nonneg (h : params.NonNeg) (quals : List (Expr α)) : 0 ≤ qualCost params quals := by
  refine Number.sum_nonneg fun x hx => ?_
  obtain ⟨q, -, rfl⟩ := List.mem_map.mp hx
  exact Amounts.mul (Amounts.ofNat _) h.cpuOperator

/-- What is paid for every row that is looked at. -/
theorem check_nonneg (h : params.NonNeg) (quals : List (Expr α)) :
    0 ≤ params.cpuTuple + qualCost params quals :=
  Amounts.add h.cpuTuple (qualCost_nonneg h quals)

theorem priced_sortCost (h : params.NonNeg) {inputCost : α} (hinput : 0 ≤ inputCost) (rows : α) :
    (sortCost params inputCost rows).Priced := by
  have htwo : (2 : α) ≤ Number.max rows 2 := Number.le_max_right rows 2
  have hrows : (0 : α) ≤ Number.max rows 2 := Number.max_nonneg rows Number.two_nonneg
  have hcompare : 0 ≤ 2 * params.cpuOperator * Number.max rows 2 * Number.log2 (Number.max rows 2) :=
    Amounts.mul (Amounts.mul (Amounts.mul Number.two_nonneg h.cpuOperator) hrows)
      (Amounts.log2 htwo)
  exact Path.priced_ofRun (Amounts.add hinput hcompare) (Amounts.mul h.cpuOperator hrows)

/-! ## Scans -/

namespace Path

theorem priced_seqScanCost {relid : RtIndex} {c : PathCost α} (hparams : p.settings.cost.NonNeg)
    (hpages : 0 ≤ r.pages) (htuples : 0 ≤ r.tuples) (h : seqScanCost p r relid = .ok c) :
    c.Priced := by
  unfold seqScanCost at h
  split at h
  next =>
    cases h
    exact priced_ofRun Number.zero_nonneg (Amounts.add (Amounts.mul hparams.seqPage hpages)
      (Amounts.mul (check_nonneg hparams _) htuples))
  next => exact nomatch h

theorem pagesFetched_nonneg {pages tuples : α} (hpages : 0 ≤ pages) (htuples : 0 ≤ tuples) :
    0 ≤ pagesFetched pages tuples := by
  have htwice : 0 ≤ 2 * pages := Amounts.mul Number.two_nonneg hpages
  exact Amounts.ceil (Number.min_nonneg
    (Amounts.div (Amounts.mul htwice htuples) (Amounts.add htwice htuples)) hpages)

end Path

namespace IndexAccess

/-- The visit of an index costs at least its startup, selects a fraction of
the rows, and comes with a correlation. -/
structure AccessCost.Priced (access : AccessCost α) : Prop where
  startup : 0 ≤ access.startup
  total : access.startup ≤ access.total
  selectivity : 0 ≤ access.selectivity
  correlation : IsCorrelation access.correlation

variable {index : Index α} {quals : List (Expr α)} {access : AccessCost α}

theorem visitedPages_nonneg (index : Index α) {visited : α} (h : 0 ≤ visited) :
    0 ≤ visitedPages index visited := by
  unfold visitedPages
  split
  next hmany =>
    have hothers : 0 ≤ index.pages - 1 := Amounts.sub (Number.Ordered.lt_iff.mp hmany.1).1
    have htuples : 0 ≤ index.tuples := (Number.Ordered.lt_iff.mp hmany.2).1
    exact Amounts.ceil (Amounts.add (Amounts.mul (Amounts.div h htuples) hothers) Number.one_nonneg)
  next => exact Number.one_nonneg

variable [Probabilities α]

theorem priced_basicCost (hparams : p.settings.cost.NonNeg)
    (h : basicCost p r index quals = .ok access) : access.Priced := by
  unfold basicCost at h
  dsimp only at h
  split at h
  next => exact nomatch h
  next relid _ =>
    obtain ⟨selectivity, hselectivity, h⟩ := except_bind_eq_ok.mp h
    cases h
    have hfraction : IsProbability selectivity :=
      Selectivity.Estimates.isProbability (.clauseList _ hselectivity)
    have hvisited : 0 ≤ Number.max (Number.min (selectivity * r.tuples) index.tuples) 1 :=
      Number.max_nonneg _ Number.one_nonneg
    have hoperators : 0 ≤ p.settings.cost.cpuOperator * Number.ofNat quals.length :=
      Amounts.mul hparams.cpuOperator (Amounts.ofNat _)
    refine ⟨Number.max_nonneg _ Number.zero_nonneg, ?_, hfraction.1, Amounts.uncorrelated⟩
    refine Number.Ordered.le_trans (Amounts.le_add_left ?_) (Amounts.le_add_right ?_)
    · exact Amounts.mul (visitedPages_nonneg index hvisited) hparams.seqPage
    · exact Amounts.mul hvisited (Amounts.add hparams.cpuIndexTuple hoperators)

omit [Amounts α] [Probabilities α] in
theorem correlated_leadingStatistics {s : ColumnStatistics α} (hp : p.statistics.Correlated)
    (h : leadingStatistics p r index = .ok (some s)) : s.Correlated := by
  unfold leadingStatistics at h
  split at h
  next n relid _ _ =>
    obtain ⟨entry, -, h⟩ := except_bind_eq_ok.mp h
    obtain ⟨relation, -, hs⟩ := Option.bind_eq_some_iff.mp (Except.ok.inj h)
    exact hp.column relation n s hs
  next => exact hp.index index.oid 1 s (Except.ok.inj h)
  next => exact nomatch h

omit [Probabilities α] in
theorem isCorrelation_correlation {c : α} (hp : p.statistics.Correlated)
    (h : correlation p r index = .ok (some c)) : IsCorrelation c := by
  unfold correlation at h
  split at h
  next => exact nomatch h
  next sort _ =>
    obtain ⟨s, hs, h⟩ := except_bind_eq_ok.mp h
    obtain ⟨recorded, hrecorded, hc⟩ := Option.map_eq_some_iff.mp (Except.ok.inj h)
    obtain ⟨slot, hslot, hnumber⟩ := Option.bind_eq_some_iff.mp hrecorded
    obtain ⟨statistics, rfl, hfound⟩ := Option.bind_eq_some_iff.mp hslot
    have hkind : slot.kind = .correlation := by
      have hmatches := List.find?_some hfound
      simp only [Bool.and_eq_true, beq_iff_eq] at hmatches
      exact hmatches.1
    have hrecord : IsCorrelation recorded :=
      correlated_leadingStatistics hp hs slot (List.mem_of_find?_eq_some hfound) hkind recorded
        (List.mem_of_mem_head? hnumber)
    -- keys behind the leading one only bring it closer to zero
    split at hc
    next => exact hc ▸ Amounts.dilute hrecord
    next => exact hc ▸ hrecord

theorem priced_cost (hparams : p.settings.cost.NonNeg) (hstatistics : p.statistics.Correlated)
    (h : cost p r index quals = .ok access) : access.Priced := by
  obtain ⟨basic, hbasic, h⟩ := except_bind_eq_ok.mp h
  have hpriced : basic.Priced := priced_basicCost hparams hbasic
  split at h
  next =>
    obtain ⟨found, hfound, h⟩ := except_bind_eq_ok.mp h
    cases found with
    | none =>
        cases h
        exact hpriced
    | some c =>
        cases h
        exact ⟨hpriced.startup, hpriced.total, hpriced.selectivity,
          isCorrelation_correlation hstatistics hfound⟩
  next =>
    cases h
    exact hpriced

end IndexAccess

namespace Path

variable [Probabilities α] {c : PathCost α} {path : Path α}

theorem priced_indexScanCost {scan : IndexScan α} (hparams : p.settings.cost.NonNeg)
    (hstatistics : p.statistics.Correlated) (h : indexScanCost p r scan = .ok c) : c.Priced := by
  unfold indexScanCost at h
  split at h
  next =>
    obtain ⟨access, haccess, h⟩ := except_bind_eq_ok.mp h
    cases h
    have hpriced := IndexAccess.priced_cost hparams hstatistics haccess
    have htuples : 0 ≤ clampRows (access.selectivity * r.tuples) := Amounts.clampRows _
    have hpages : 0 ≤ Number.max r.pages 1 := Number.max_nonneg _ Number.one_nonneg
    have hmost : 0 ≤ pagesFetched (Number.max r.pages 1)
        (clampRows (access.selectivity * r.tuples)) * p.settings.cost.randomPage :=
      Amounts.mul (pagesFetched_nonneg hpages htuples) hparams.randomPage
    have hleast : 0 ≤ Number.ceil (access.selectivity * Number.max r.pages 1)
        * p.settings.cost.seqPage :=
      Amounts.mul (Amounts.ceil (Amounts.mul hpriced.selectivity hpages)) hparams.seqPage
    have hheap := Amounts.blend hmost hleast hpriced.correlation
    exact priced_ofRun hpriced.startup (Amounts.add (Amounts.add (Amounts.sub hpriced.total) hheap)
      (Amounts.mul (check_nonneg hparams _) htuples))
  next => exact nomatch h

/-! ## Joins -/

theorem rowsPassing_nonneg {join : Join α} {clauses : List (Clause α)} {rows : α}
    (ho : join.outer.Priced) (hi : join.inner.Priced) (h : rowsPassing p join clauses = .ok rows) :
    0 ≤ rows := by
  obtain ⟨fraction, hfraction, h⟩ := except_bind_eq_ok.mp h
  cases h
  have hprobability : IsProbability fraction :=
    Selectivity.Estimates.isProbability (.clauseList _ hfraction)
  exact Amounts.mul (Amounts.mul ho.rows hi.rows) hprobability.1

omit [Probabilities α] in
/-- Rescans leave out the first row, of more than one. -/
theorem priced_nestLoopCost {join : Join α} (hparams : p.settings.cost.NonNeg)
    (ho : join.outer.Priced) (hi : join.inner.Priced) : (nestLoopCost p join).Priced := by
  have hscans : 0 ≤ join.outer.total - join.outer.startup
      + join.outer.rows * (join.inner.total - join.inner.startup) :=
    Amounts.add ho.run_nonneg (Amounts.mul ho.rows hi.run_nonneg)
  have hcheck := Amounts.mul (Amounts.mul (check_nonneg hparams
    (join.restrictions.map (·.expr))) ho.rows) hi.rows
  refine priced_ofRun (Amounts.add ho.startup hi.startup) (Amounts.add ?_ hcheck)
  split
  next hmany =>
    have hothers : 0 ≤ join.outer.rows - 1 := Amounts.sub (Number.Ordered.lt_iff.mp hmany).1
    exact Amounts.add hscans (Amounts.mul hothers hi.startup)
  next => exact hscans

omit [Probabilities α] in
/-- Reading a fraction of an input costs nothing negative, before the first
row and behind it. -/
theorem mergeInput_nonneg {input : Path α} {fraction : α} (hparams : p.settings.cost.NonNeg)
    (hinput : input.Priced) (sort : Pathkeys α) (hfraction : 0 ≤ fraction) :
    0 ≤ (mergeInput p input sort fraction).1 ∧ 0 ≤ (mergeInput p input sort fraction).2 := by
  unfold mergeInput
  split
  next => exact ⟨hinput.startup, Amounts.mul hinput.run_nonneg hfraction⟩
  next =>
    have hsorted := priced_sortCost hparams hinput.total_nonneg input.rows
    exact ⟨hsorted.startup, Amounts.mul (Amounts.sub hsorted.total) hfraction⟩

end Path

namespace Selectivity

variable [Probabilities α]

/-- Without statistics a comparison is the default, which is not believed. -/
theorem believed_nonneg {opno : Oid} {greater : Bool} {v : Variable α} {constant : Datum α}
    {type : DataType} {fraction : α} (h : comparison p opno greater v constant type = .ok fraction) :
    0 ≤ believed p fraction := by
  unfold believed
  split
  next => exact Number.one_nonneg
  next hdefault =>
    unfold comparison at h
    split at h
    next =>
      cases h
      exact absurd (Number.equal_iff.mpr ⟨Amounts.le_refl _, Amounts.le_refl _⟩) hdefault
    next => exact (isProbability_of_bind_clamp h).1

omit [Probabilities α] in
theorem settle_nonneg {s : MergeScan α} (hleft : 0 ≤ s.left) (hright : 0 ≤ s.right) :
    0 ≤ s.settle.left ∧ 0 ≤ s.settle.right := by
  unfold MergeScan.settle
  split
  next => exact ⟨Number.one_nonneg, hright⟩
  next =>
    split
    next => exact ⟨hleft, Number.one_nonneg⟩
    next => exact ⟨Number.one_nonneg, Number.one_nonneg⟩

theorem mergeScan_nonneg {e : Expr α} {s : MergeScan α} (h : mergeScan p e = .ok s) :
    0 ≤ s.left ∧ 0 ≤ s.right := by
  have hwhole : 0 ≤ (MergeScan.whole : MergeScan α).left ∧ 0 ≤ (MergeScan.whole : MergeScan α).right :=
    ⟨Number.one_nonneg, Number.one_nonneg⟩
  unfold mergeScan at h
  split at h
  next => cases h; exact hwhole
  next =>
    obtain ⟨lv, -, h⟩ := except_bind_eq_ok.mp h
    obtain ⟨rv, -, h⟩ := except_bind_eq_ok.mp h
    split at h
    next => cases h; exact hwhole
    next =>
      obtain ⟨leftMax, -, h⟩ := except_bind_eq_ok.mp h
      split at h
      next => cases h; exact hwhole
      next =>
        obtain ⟨rightMax, -, h⟩ := except_bind_eq_ok.mp h
        split at h
        next => cases h; exact hwhole
        next =>
          split at h
          next => cases h; exact hwhole
          next =>
            obtain ⟨left, hleft, h⟩ := except_bind_eq_ok.mp h
            obtain ⟨right, hright, h⟩ := except_bind_eq_ok.mp h
            cases h
            exact settle_nonneg (believed_nonneg hleft) (believed_nonneg hright)

end Selectivity

namespace Path

theorem bucketSize_nonneg {key : Expr α} {buckets : Nat} {fraction : α}
    (h : Grouping.bucketSize p key buckets = .ok fraction) : 0 ≤ fraction := by
  obtain ⟨v, -, h⟩ := except_bind_eq_ok.mp h
  dsimp only at h
  split at h
  next =>
    cases h
    exact Amounts.ofDecimal 1 1
  next =>
    cases h
    exact Number.clamp_nonneg _ (Amounts.ofDecimal 10 7) Number.one_nonneg

theorem bucketFraction_nonneg {inner : RelSet} {buckets : Nat} {clauses : List (Clause α)}
    {fraction : α} (h : bucketFraction p inner buckets clauses = .ok fraction) : 0 ≤ fraction := by
  unfold bucketFraction at h
  have hone : (0 : α) ≤ 1 := Number.one_nonneg
  revert hone h
  generalize (1 : α) = least
  intro h hleast
  induction clauses generalizing least with
  | nil =>
      cases h
      exact hleast
  | cons c rest ih =>
      rw [List.foldlM_cons] at h
      obtain ⟨next, hnext, h⟩ := except_bind_eq_ok.mp h
      obtain ⟨key, -, hnext⟩ := except_bind_eq_ok.mp hnext
      obtain ⟨size, hsize, hnext⟩ := except_bind_eq_ok.mp hnext
      cases hnext
      exact ih _ h (Number.min_nonneg hleast (bucketSize_nonneg hsize))

variable [Probabilities α] {c : PathCost α} {path : Path α}

theorem priced_mergeJoinCost {join : Join α} {clauses : List (Clause α)}
    {outerSort innerSort : Pathkeys α} (hparams : p.settings.cost.NonNeg)
    (ho : join.outer.Priced) (hi : join.inner.Priced)
    (h : mergeJoinCost p join clauses outerSort innerSort = .ok c) : c.Priced := by
  unfold mergeJoinCost at h
  split at h
  next => exact nomatch h
  next first rest =>
    obtain ⟨scan, hscan, h⟩ := except_bind_eq_ok.mp h
    obtain ⟨members, -, h⟩ := except_bind_eq_ok.mp h
    dsimp only at h
    obtain ⟨rows, hrows, h⟩ := except_bind_eq_ok.mp h
    cases h
    obtain ⟨hleft, hright⟩ := Selectivity.mergeScan_nonneg hscan
    -- whichever side of the clause is the outer one, both fractions are amounts
    have houter : 0 ≤ if first.left.isSubset members then scan.left else scan.right := by
      split
      next => exact hleft
      next => exact hright
    have hinner : 0 ≤ if first.left.isSubset members then scan.right else scan.left := by
      split
      next => exact hright
      next => exact hleft
    obtain ⟨hostart, horun⟩ := mergeInput_nonneg hparams ho outerSort houter
    obtain ⟨histart, hirun⟩ := mergeInput_nonneg hparams hi innerSort hinner
    have hcompared := Amounts.mul (qualCost_nonneg hparams ((first :: rest).map (·.expr)))
      (Amounts.add (Amounts.mul ho.rows houter) (Amounts.mul hi.rows hinner))
    have hchecked := Amounts.mul (check_nonneg hparams
      ((Clause.remaining (first :: rest) join.restrictions).map (·.expr)))
      (rowsPassing_nonneg ho hi hrows)
    exact priced_ofRun (Amounts.add hostart histart)
      (Amounts.add (Amounts.add (Amounts.add horun hirun) hcompared) hchecked)

theorem priced_hashJoinCost {join : Join α} {clauses : List (Clause α)}
    (hparams : p.settings.cost.NonNeg) (ho : join.outer.Priced) (hi : join.inner.Priced)
    (h : hashJoinCost p join clauses = .ok c) : c.Priced := by
  unfold hashJoinCost at h
  dsimp only at h
  obtain ⟨members, -, h⟩ := except_bind_eq_ok.mp h
  obtain ⟨fraction, hfraction, h⟩ := except_bind_eq_ok.mp h
  obtain ⟨rows, hrows, h⟩ := except_bind_eq_ok.mp h
  cases h
  have hprobes := Amounts.mul (Amounts.mul hparams.cpuOperator ho.rows)
    (Amounts.ceil (Amounts.mul hi.rows (bucketFraction_nonneg hfraction)))
  have hchecked := Amounts.mul (check_nonneg hparams
    ((Clause.remaining clauses join.restrictions).map (·.expr))) (rowsPassing_nonneg ho hi hrows)
  exact priced_ofRun
    (Amounts.add (Amounts.add ho.startup hi.total_nonneg) (Amounts.mul hparams.cpuOperator hi.rows))
    (Amounts.add (Amounts.add (Amounts.add ho.run_nonneg (Amounts.mul hparams.cpuOperator ho.rows))
      hprobes) hchecked)

/-! ## Paths -/

/-- An operator with priced inputs is priced, as a way of producing a relation
whose size is not negative. -/
theorem priced_cost {operator : PathOperator α} (hparams : p.settings.cost.NonNeg)
    (hstatistics : p.statistics.Correlated) (hpages : 0 ≤ r.pages) (htuples : 0 ≤ r.tuples)
    (hinputs : operator.Priced) (h : cost p r operator = .ok c) : c.Priced := by
  cases operator with
  | seqScan relid => exact priced_seqScanCost hparams hpages htuples h
  | indexScan scan => exact priced_indexScanCost hparams hstatistics h
  | nestLoop join =>
      cases h
      exact priced_nestLoopCost hparams hinputs.1 hinputs.2
  | mergeJoin join clauses outerSort innerSort =>
      exact priced_mergeJoinCost hparams hinputs.1 hinputs.2 h
  | hashJoin join clauses => exact priced_hashJoinCost hparams hinputs.1 hinputs.2 h

end Path

/-- A relation whose size is not negative, and whose paths are priced. -/
structure Relation.Priced (r : Relation α) : Prop where
  pages : 0 ≤ r.pages
  tuples : 0 ≤ r.tuples
  rows : 0 ≤ r.rows
  paths : ∀ path ∈ r.paths, path.Priced

section Offers

variable [Probabilities α] {path : Path α} {paths : List (Path α)} {j : Pairing α}
  {operator : PathOperator α} {order : Pathkeys α}

theorem Path.priced_build (hparams : p.settings.cost.NonNeg) (hstatistics : p.statistics.Correlated)
    (hr : r.Priced) (hinputs : operator.Priced) (h : build p r operator order = .ok path) :
    path.Priced := by
  obtain ⟨c, hc, rfl⟩ := build_eq_ok h
  have hpriced := priced_cost hparams hstatistics hr.pages hr.tuples hinputs hc
  exact ⟨hr.rows, hpriced.startup, hpriced.total⟩

/-- Scans have no inputs. -/
theorem Path.priced_of_mem_scans (hparams : p.settings.cost.NonNeg)
    (hstatistics : p.statistics.Correlated) (hr : r.Priced) (h : scans p r = .ok paths)
    (hpath : path ∈ paths) : path.Priced := by
  obtain ⟨relid, operator, order, -, hscan, hbuild⟩ := scan_of_mem_scans h hpath
  refine priced_build hparams hstatistics hr ?_ hbuild
  cases hscan with
  | whole | ofIndex => trivial

omit [Amounts α] [Probabilities α] in
/-- Joins have two paths of their inputs, whatever the method. -/
theorem Pairing.Candidate.priced (h : j.Candidate operator order)
    (ho : ∀ path ∈ j.outer.paths, path.Priced) (hi : ∀ path ∈ j.inner.paths, path.Priced) :
    operator.Priced := by
  cases h with
  | sorted houter hinner | nested houter hinner | presorted houter hinner
  | halfSorted houter hinner | hashed houter hinner => exact ⟨ho _ houter, hi _ hinner⟩

theorem Pairing.priced_of_mem_paths (hparams : p.settings.cost.NonNeg)
    (hstatistics : p.statistics.Correlated) (hr : j.join.Priced) (ho : j.outer.Priced)
    (hi : j.inner.Priced) (h : j.paths p = .ok paths) (hpath : path ∈ paths) : path.Priced := by
  obtain ⟨operator, order, hcandidate, hbuild⟩ := offers_of_mem_paths h hpath
  exact Path.priced_build hparams hstatistics hr (hcandidate.priced ho.paths hi.paths) hbuild

end Offers

end QueryPlanner
