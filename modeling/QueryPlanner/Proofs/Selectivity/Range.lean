/-
  QueryPlanner.Proofs.Selectivity.Range

  An ordering and its opposite keep all rows that are not null.

  In exact numbers the estimate of an ordering comparison is a weighted sum:
  the frequencies of the common values that the comparison keeps, and of the
  other values the share that the histogram gives.  The opposite comparison
  keeps the other common values, sees the same bounds below the constant, and
  takes what the first leaves of the histogram.  Proper statistics, with
  frequencies that add up to at most 1, leave the final clamp nothing to do.
-/

import Mathlib.Algebra.BigOperators.Group.List.Basic
import Mathlib.Algebra.Order.BigOperators.Group.List
import Mathlib.Tactic.Linarith
import Mathlib.Tactic.LinearCombination
import Mathlib.Tactic.NormNum
import Mathlib.Tactic.Ring
import QueryPlanner.Pattern.Regex.Engine
import QueryPlanner.Proofs.Selectivity.Commuted

namespace QueryPlanner

/-! ## Proper statistics -/

namespace ColumnStatistics

/-- The frequencies of the most common values. -/
def commonNumbers {α : Type} (stats : ColumnStatistics α) : List α :=
  match stats.slot? .mcv none with
  | some slot => slot.numbers
  | none => []

/-- The most common values. -/
def commonValues {α : Type} (stats : ColumnStatistics α) : List (Datum α) :=
  match stats.slot? .mcv none with
  | some slot => slot.values
  | none => []

/-- The null fraction and the frequencies are parts of one whole. -/
structure Proper (stats : ColumnStatistics Rat) : Prop where
  nulls : 0 ≤ stats.nullFraction
  frequencies : ∀ f ∈ stats.commonNumbers, 0 ≤ f
  total : stats.nullFraction + stats.commonNumbers.sum ≤ 1

/-- A constant compares with the common values and with the bounds of the
histogram. -/
def ComparesWith {α : Type} [Number α] (stats : ColumnStatistics α) (constant : Datum α) :
    Prop :=
  ∀ kind ∈ [StatisticKind.mcv, .histogram], ∀ slot, stats.slot? kind none = some slot →
    ∀ value ∈ slot.values, (value.compare? constant).isSome = true

end ColumnStatistics

namespace Variable

variable {α : Type}

/-- What is read of a slot are its first entries. -/
theorem slot?_of_statistics {v : Variable α} {stats : ColumnStatistics α}
    (hstats : v.statistics = some stats) (kind : StatisticKind) (oid : Option Oid) :
    v.slot? kind oid = (stats.slot? kind oid).map fun slot =>
      ⟨slot.values.take v.slotLimit, slot.numbers.take v.slotLimit⟩ := by
  rw [slot?, hstats, Option.bind_some]

/-- The common values that are read, with their frequencies. -/
def common (v : Variable α) : List (Datum α × α) :=
  match v.slot? .mcv none with
  | some m => m.values.zip m.numbers
  | none => []

/-- The bounds of the histogram that is read, which has to have two. -/
def bounds? (v : Variable α) : Option (List (Datum α)) :=
  (v.slot? .histogram none).bind fun h => if 1 < h.values.length then some h.values else none

end Variable

namespace Selectivity

/-! ## Common values -/

/-- The frequencies of the values that are kept. -/
def weight (holds : Datum Rat → Bool) (pairs : List (Datum Rat × Rat)) : Rat :=
  (pairs.map fun x => if holds x.1 then x.2 else 0).sum

variable {holds holds' : Datum Rat → Bool} {pairs : List (Datum Rat × Rat)} {log2 : Rat → Rat}
  {v : Variable Rat} {stats : ColumnStatistics Rat}

theorem commonFrequencies_rational :
    letI := Number.rational log2
    commonFrequencies holds (v.slot? .mcv none) =
      (weight holds v.common, weight (fun _ => true) v.common) := by
  let _ := Number.rational log2
  have hfold (pairs : List (Datum Rat × Rat)) (kept all : Rat) :
      pairs.foldl (fun (kept, all) (value, frequency) =>
        (if holds value then kept + frequency else kept, all + frequency)) (kept, all) =
      (kept + weight holds pairs, all + weight (fun _ => true) pairs) := by
    induction pairs generalizing kept all with
    | nil => simp [weight]
    | cons x rest ih =>
        rw [List.foldl_cons, ih]
        simp only [weight, List.map_cons, List.sum_cons, if_true]
        split <;> simp [add_assoc]
  rw [Variable.common]
  cases v.slot? .mcv none with
  | none => rfl
  | some m =>
      have hm := hfold (m.values.zip m.numbers) 0 0
      rw [zero_add, zero_add] at hm
      exact hm

theorem weight_add_weight (h : ∀ x ∈ pairs, holds' x.1 = !holds x.1) :
    weight holds pairs + weight holds' pairs = weight (fun _ => true) pairs := by
  rw [weight, weight, weight, ← List.sum_map_add]
  refine congrArg List.sum (List.map_congr_left fun x hx => ?_)
  rw [h x hx]
  cases holds x.1 <;> simp

theorem weight_mono (hnonneg : ∀ x ∈ pairs, 0 ≤ x.2)
    (h : ∀ x ∈ pairs, holds x.1 = true → holds' x.1 = true) :
    weight holds pairs ≤ weight holds' pairs := by
  refine List.sum_le_sum fun x hx => ?_
  by_cases hx' : holds x.1 = true
  · rw [if_pos hx', if_pos (h x hx hx')]
  · rw [if_neg hx']
    split
    · exact hnonneg x hx
    · exact le_refl 0

theorem weight_terms_nonneg (hnonneg : ∀ x ∈ pairs, 0 ≤ x.2) :
    ∀ f ∈ pairs.map fun x => if holds x.1 then x.2 else 0, 0 ≤ f := by
  intro f hf
  obtain ⟨x, hx, rfl⟩ := List.mem_map.mp hf
  split
  · exact hnonneg x hx
  · exact le_refl 0

theorem weight_nonneg (hnonneg : ∀ x ∈ pairs, 0 ≤ x.2) : 0 ≤ weight holds pairs :=
  List.sum_nonneg (weight_terms_nonneg hnonneg)

theorem map_snd_zip_sublist {β γ : Type} (l : List β) (m : List γ) :
    ((l.zip m).map (·.2)).Sublist m := by
  induction l generalizing m with
  | nil => exact List.nil_sublist m
  | cons b l ih =>
      cases m with
      | nil => exact .slnil
      | cons c m => exact (ih m).cons_cons c

/-- What is read of a slot is a part of it. -/
theorem slot?_eq_some {kind : StatisticKind} {view : SlotView Rat}
    (hstats : v.statistics = some stats) (h : v.slot? kind none = some view) :
    ∃ slot, stats.slot? kind none = some slot ∧ view.values.Sublist slot.values ∧
      view.numbers.Sublist slot.numbers := by
  rw [Variable.slot?_of_statistics hstats] at h
  obtain ⟨slot, hslot, rfl⟩ := Option.map_eq_some_iff.mp h
  exact ⟨slot, hslot, List.take_sublist _ _, List.take_sublist _ _⟩

/-- Up to the limit all bounds on record are read. -/
theorem bounds?_of_slot? {slot : StatisticsSlot Rat} (hstats : v.statistics = some stats)
    (hslot : stats.slot? .histogram none = some slot)
    (hlimit : slot.values.length ≤ v.slotLimit) :
    v.bounds? = if 1 < slot.values.length then some slot.values else none := by
  rw [Variable.bounds?, Variable.slot?_of_statistics hstats, hslot, Option.map_some,
    Option.bind_some, List.take_of_length_le hlimit]

/-- The frequencies that are read are among those on record. -/
theorem frequencies_sublist (hstats : v.statistics = some stats) :
    (v.common.map (·.2)).Sublist stats.commonNumbers := by
  rw [Variable.common]
  cases hview : v.slot? .mcv none with
  | none => exact List.nil_sublist _
  | some view =>
      obtain ⟨slot, hslot, -, hnumbers⟩ := slot?_eq_some hstats hview
      rw [ColumnStatistics.commonNumbers, hslot]
      exact (map_snd_zip_sublist _ _).trans hnumbers

theorem frequency_nonneg (hstats : v.statistics = some stats) (hproper : stats.Proper) :
    ∀ x ∈ v.common, 0 ≤ x.2 := fun x hx =>
  hproper.frequencies x.2 ((frequencies_sublist hstats).subset (List.mem_map_of_mem hx))

/-- No more values are common than are on record as such. -/
theorem weight_common_le (hstats : v.statistics = some stats) (hproper : stats.Proper) :
    weight (fun _ => true) v.common ≤ stats.commonNumbers.sum := by
  simp only [weight, if_true]
  exact (frequencies_sublist hstats).sum_le_sum hproper.frequencies

/-- The values that are neither null nor common are a part of the rows. -/
theorem others_nonneg (hstats : v.statistics = some stats) (hproper : stats.Proper) :
    0 ≤ 1 - stats.nullFraction - weight (fun _ => true) v.common := by
  have hsum := weight_common_le hstats hproper
  have htotal := hproper.total
  linarith

/-- A common value that is read compares with a constant that all of them
compare with. -/
theorem common_comparable [Number Rat] {constant : Datum Rat} (hstats : v.statistics = some stats)
    (h : stats.ComparesWith constant) :
    ∀ x ∈ v.common, (x.1.compare? constant).isSome = true := by
  intro x hx
  rw [Variable.common] at hx
  cases hview : v.slot? .mcv none with
  | none =>
      rw [hview] at hx
      cases hx
  | some view =>
      obtain ⟨slot, hslot, hvalues, -⟩ := slot?_eq_some hstats hview
      rw [hview] at hx
      exact h .mcv (by decide) slot hslot x.1 (hvalues.subset (List.of_mem_zip hx).1)

theorem bound_comparable [Number Rat] {constant : Datum Rat} {bounds : List (Datum Rat)}
    (hstats : v.statistics = some stats) (h : stats.ComparesWith constant)
    (hbounds : v.bounds? = some bounds) :
    ∀ b ∈ bounds, (b.compare? constant).isSome = true := by
  intro b hb
  obtain ⟨view, hview, hbounds⟩ := Option.bind_eq_some_iff.mp hbounds
  obtain ⟨-, hvalues⟩ := Option.ite_none_right_eq_some.mp hbounds
  cases hvalues
  obtain ⟨slot, hslot, hvalues, -⟩ := slot?_eq_some hstats hview
  exact h .histogram (by decide) slot hslot b (hvalues.subset hb)

/-! ## Histograms -/

theorem findIdx?_congr {β : Type} {f g : β → Bool} {l : List β} (h : ∀ b ∈ l, f b = g b) :
    l.findIdx? f = l.findIdx? g := by
  induction l with
  | nil => rfl
  | cons b rest ih =>
      rw [List.findIdx?_cons, List.findIdx?_cons, h b List.mem_cons_self,
        ih fun c hc => h c (List.mem_cons_of_mem b hc)]

/-- A constant is placed by the bounds that sort below it. -/
theorem histogramShare_congr {α : Type} [Number α] {below below' : Datum α → Bool}
    {share : Datum α → Datum α → α} {bounds : List (Datum α)}
    (h : ∀ b ∈ bounds, below b = below' b) :
    histogramShare below share bounds = histogramShare below' share bounds := by
  cases bounds with
  | nil => rfl
  | cons first rest =>
      have hrest : (rest.findIdx? fun b => !below b) = rest.findIdx? fun b => !below' b :=
        findIdx?_congr fun b hb => congrArg not (h b (List.mem_cons_of_mem first hb))
      simp only [histogramShare, h first List.mem_cons_self, hrest]

/-- A bound sorts below the constant of an ordering; of equal values the
ordering decides. -/
def below {α : Type} [Number α] (s : Strategy) (constant bound : Datum α) : Bool :=
  (Procedure.ordering s).holds bound constant != s.keepsGreater

/-- The share of a histogram's values below the constant of an ordering. -/
def belowShare {α : Type} [Number α] (s : Strategy) (constant : Datum α)
    (type boundsType : DataType) (bounds : List (Datum α)) : α :=
  histogramShare (below s constant)
    (fun lo hi => bucketShare (Scale.convert? constant type lo hi boundsType)) bounds

/-- An ordering and its opposite see the same bounds below a constant. -/
theorem belowShare_negator {α : Type} [Number α] {s : Strategy} {constant : Datum α}
    {type boundsType : DataType} {bounds : List (Datum α)} (hs : s.IsRange)
    (h : ∀ b ∈ bounds, (b.compare? constant).isSome = true) :
    belowShare s.negator constant type boundsType bounds =
      belowShare s constant type boundsType bounds := by
  refine histogramShare_congr fun b hb => ?_
  rw [below, below, Procedure.holds_negator s (h b hb), hs.keepsGreater_negator, Bool.not_bne_not]

/-- A share of a histogram, which is neither nothing nor all. -/
def offEnds (x : Rat) : Rat := max (1 / 10000) (min (9999 / 10000) x)

theorem offEnds_mem (x : Rat) : 0 ≤ offEnds x ∧ offEnds x ≤ 1 := by
  refine ⟨le_max_of_le_left (by norm_num), max_le (by norm_num) (min_le_of_left_le ?_)⟩
  norm_num

theorem offEnds_mono {x y : Rat} (h : x ≤ y) : offEnds x ≤ offEnds y :=
  max_le_max_left _ (min_le_min_left _ h)

/-- The rest of a share is what is left of it. -/
theorem offEnds_one_sub (x : Rat) : offEnds (1 - x) = 1 - offEnds x := by
  rw [offEnds, offEnds]
  obtain hlow | hlow := le_total x (1 / 10000)
  · rw [min_eq_right (by linarith : x ≤ 9999 / 10000), max_eq_left hlow,
      min_eq_left (by linarith : 9999 / 10000 ≤ 1 - x)]
    norm_num
  · obtain hhigh | hhigh := le_total x (9999 / 10000)
    · rw [min_eq_right hhigh, max_eq_right hlow, min_eq_right (by linarith), max_eq_right]
      linarith
    · rw [min_eq_left hhigh, max_eq_left ((min_le_right _ _).trans (by linarith))]
      norm_num

section Rationals

variable (log2 : Rat → Rat)

theorem histogramFloor_rational : @histogramFloor Rat (Number.rational log2) = 1 / 10000 := by
  show ((1 : Nat) : Rat) / ((Nat.pow 10 4 : Nat) : Rat) = 1 / 10000
  norm_num

theorem histogramCeiling_rational :
    @histogramCeiling Rat (Number.rational log2) = 9999 / 10000 := by
  show ((9999 : Nat) : Rat) / ((Nat.pow 10 4 : Nat) : Rat) = 9999 / 10000
  norm_num

theorem half_rational :
    @OfScientific.ofScientific Rat (@Number.instOfScientific Rat (Number.rational log2)) 5 true 1 =
      1 / 2 := by
  show ((5 : Nat) : Rat) / ((Nat.pow 10 1 : Nat) : Rat) = 1 / 2
  norm_num

theorem clamp_histogram (x : Rat) :
    letI := Number.rational log2
    Number.clamp histogramFloor histogramCeiling x = offEnds x := by
  let _ := Number.rational log2
  rw [Number.clamp, histogramFloor_rational, histogramCeiling_rational, offEnds]
  split
  · rename_i hlow
    rw [min_eq_right (by linarith), max_eq_left hlow.le]
  · rename_i hlow
    split
    · rename_i hhigh
      rw [min_eq_left hhigh.le, max_eq_right (by norm_num)]
    · rename_i hhigh
      rw [min_eq_right (not_lt.mp hhigh), max_eq_right (not_lt.mp hlow)]

theorem clampProbability_rational (f : Rat) :
    @clampProbability Rat (Number.rational log2) f = if f < 0 then 0 else if 1 < f then 1 else f :=
  rfl

theorem clampProbability_of_mem {f : Rat} (hlow : 0 ≤ f) (hhigh : f ≤ 1) :
    letI := Number.rational log2
    clampProbability f = f := by
  rw [clampProbability_rational, if_neg hlow.not_gt, if_neg hhigh.not_gt]

/-! ## Estimates -/

variable {s : Strategy} {constant : Datum Rat} {type : DataType} {bounds : List (Datum Rat)}

theorem otherShare_of_bounds (h : v.bounds? = some bounds) :
    letI := Number.rational log2
    otherShare s v constant type =
      if s.keepsGreater then 1 - offEnds (belowShare s constant type v.type bounds)
      else offEnds (belowShare s constant type v.type bounds) := by
  let _ := Number.rational log2
  obtain ⟨hist, hhist, hbounds⟩ := Option.bind_eq_some_iff.mp h
  obtain ⟨hlong, hvalues⟩ := Option.ite_none_right_eq_some.mp hbounds
  cases hvalues
  rw [otherShare, hhist, histogramFraction, if_pos hlong, Option.getD_some, clamp_histogram log2,
    belowShare, ← offEnds_one_sub]
  split <;> rfl

theorem otherShare_of_no_bounds (h : v.bounds? = none) :
    letI := Number.rational log2
    otherShare s v constant type = 1 / 2 := by
  let _ := Number.rational log2
  rw [otherShare, ← half_rational log2]
  cases hhist : v.slot? .histogram none with
  | none => rfl
  | some hist =>
      have hshort : ¬ 1 < hist.values.length := fun hlong => by
        rw [Variable.bounds?, hhist, Option.bind_some, if_pos hlong] at h
        cases h
      rw [histogramFraction, if_neg hshort]
      rfl

theorem otherShare_mem (s : Strategy) (v : Variable Rat) (constant : Datum Rat) (type : DataType) :
    letI := Number.rational log2
    0 ≤ otherShare s v constant type ∧ otherShare s v constant type ≤ 1 := by
  let _ := Number.rational log2
  cases h : v.bounds? with
  | none =>
      rw [otherShare_of_no_bounds log2 h]
      norm_num
  | some bounds =>
      rw [otherShare_of_bounds log2 h]
      have hmem := offEnds_mem (belowShare s constant type v.type bounds)
      split
      · exact ⟨sub_nonneg.mpr hmem.2, sub_le_self 1 hmem.1⟩
      · exact hmem

/-- An ordering and its opposite share out the values of the histogram. -/
theorem otherShare_negator (hs : s.IsRange)
    (h : ∀ bounds, v.bounds? = some bounds → ∀ b ∈ bounds,
      (@Datum.compare? Rat (Number.rational log2) b constant).isSome = true) :
    letI := Number.rational log2
    otherShare s v constant type + otherShare s.negator v constant type = 1 := by
  let _ := Number.rational log2
  cases hbounds : v.bounds? with
  | none =>
      rw [otherShare_of_no_bounds log2 hbounds, otherShare_of_no_bounds log2 hbounds]
      norm_num
  | some bounds =>
      rw [otherShare_of_bounds log2 hbounds, otherShare_of_bounds log2 hbounds,
        belowShare_negator hs (h bounds hbounds), hs.keepsGreater_negator]
      cases s.keepsGreater with
      | true => exact sub_add_cancel 1 _
      | false => exact add_sub_cancel _ 1

theorem rangeFraction_rational :
    letI := Number.rational log2
    rangeFraction s v stats constant type =
      (1 - stats.nullFraction - weight (fun _ => true) v.common) * otherShare s v constant type +
        weight ((Procedure.ordering s).holds · constant) v.common := by
  let _ := Number.rational log2
  rw [rangeFraction, commonFrequencies_rational]

theorem rangeFraction_nonneg (s : Strategy) (constant : Datum Rat) (type : DataType)
    (hstats : v.statistics = some stats) (hproper : stats.Proper) :
    letI := Number.rational log2
    0 ≤ rangeFraction s v stats constant type := by
  let _ := Number.rational log2
  have hothers := mul_nonneg (others_nonneg hstats hproper)
    (otherShare_mem log2 s v constant type).1
  rw [rangeFraction_rational]
  exact add_nonneg hothers (weight_nonneg (frequency_nonneg hstats hproper))

theorem rangeFraction_le_one (s : Strategy) (constant : Datum Rat) (type : DataType)
    (hstats : v.statistics = some stats) (hproper : stats.Proper) :
    letI := Number.rational log2
    rangeFraction s v stats constant type ≤ 1 := by
  let _ := Number.rational log2
  have hothers := mul_le_of_le_one_right (others_nonneg hstats hproper)
    (otherShare_mem log2 s v constant type).2
  have hcommon : weight ((Procedure.ordering s).holds · constant) v.common ≤
      weight (fun _ => true) v.common :=
    weight_mono (frequency_nonneg hstats hproper) fun _ _ _ => rfl
  have hnulls := hproper.nulls
  rw [rangeFraction_rational]
  linarith

/-- An ordering and its opposite keep all values that are present. -/
theorem rangeFraction_negator (hs : s.IsRange) (hstats : v.statistics = some stats)
    (h : @ColumnStatistics.ComparesWith Rat (Number.rational log2) stats constant) :
    letI := Number.rational log2
    rangeFraction s v stats constant type + rangeFraction s.negator v stats constant type =
      1 - stats.nullFraction := by
  let _ := Number.rational log2
  have hothers : otherShare s v constant type + otherShare s.negator v constant type = 1 :=
    otherShare_negator log2 hs fun bounds => bound_comparable hstats h
  have hcommon : weight ((Procedure.ordering s).holds · constant) v.common +
      weight ((Procedure.ordering s.negator).holds · constant) v.common =
        weight (fun _ => true) v.common :=
    weight_add_weight fun x hx => Procedure.holds_negator s (common_comparable hstats h x hx)
  rw [rangeFraction_rational, rangeFraction_rational]
  linear_combination (1 - stats.nullFraction - weight (fun _ => true) v.common) * hothers + hcommon

/-- Proper statistics leave an estimate nothing to be clamped. -/
theorem clampProbability_rangeFraction (s : Strategy) (constant : Datum Rat) (type : DataType)
    (hstats : v.statistics = some stats) (hproper : stats.Proper) :
    letI := Number.rational log2
    clampProbability (rangeFraction s v stats constant type) =
      rangeFraction s v stats constant type :=
  clampProbability_of_mem log2 (rangeFraction_nonneg log2 s constant type hstats hproper)
    (rangeFraction_le_one log2 s constant type hstats hproper)

theorem restriction_range {p : Planner Rat} {a : Expr Rat} {var : Option RtIndex} {base : Oid}
    {dataType : DataType} (h : p.operators.HasSix base dataType) (hs : s.IsRange)
    (hv : @Variable.examine Rat (Number.rational log2) p a var = .ok v)
    (hrelation : v.relation.isSome = true) (hstats : v.statistics = some stats)
    (hproper : stats.Proper) (onLeft : Bool) (constant : Datum Rat) (type : DataType) :
    letI := Number.rational log2
    restriction p (base + OperatorCatalog.strategyOffset s) (operands onLeft a constant type) var =
      .ok (rangeFraction (if onLeft then s else s.commutator) v stats constant type) := by
  let _ := Number.rational log2
  have hclamp := clampProbability_rangeFraction log2 (if onLeft then s else s.commutator)
    constant type hstats hproper
  rw [restriction_operands h hs hv hrelation hstats, hclamp, hclamp]

end Rationals

/-- In exact numbers an ordering comparison of a column with a constant and
the opposite comparison keep all rows that are not null, whichever side the
column stands on, if the constant compares with what is on record. -/
theorem restriction_add_negator (log2 : Rat → Rat) {p : Planner Rat} {op : Operator Rat}
    {s : Strategy} {negator : Oid} {a : Expr Rat} {var : Option RtIndex} {v : Variable Rat}
    {stats : ColumnStatistics Rat} {constant : Datum Rat}
    (hcompares : p.operators.Compares engine op.left)
    (hop : op ∈ (OperatorCatalog.builtin engine : OperatorCatalog Rat).operators)
    (hcomparison : op.IsComparison s) (hs : s.IsRange) (hnegator : op.negator = some negator)
    (hv : @Variable.examine Rat (Number.rational log2) p a var = .ok v)
    (hrelation : v.relation.isSome = true) (hstats : v.statistics = some stats)
    (hproper : stats.Proper)
    (hconstant : @ColumnStatistics.ComparesWith Rat (Number.rational log2) stats constant)
    (onLeft : Bool) (type : DataType) :
    letI := Number.rational log2
    ∃ f g, restriction p op.oid (operands onLeft a constant type) var = .ok f ∧
      restriction p negator (operands onLeft a constant type) var = .ok g ∧
      f + g = 1 - stats.nullFraction := by
  let _ := Number.rational log2
  obtain ⟨base, dataType, rfl, hsix⟩ := hcompares.hasSix hop hcomparison
  cases hnegator
  refine ⟨_, _, restriction_range log2 hsix hs hv hrelation hstats hproper onLeft constant type,
    restriction_range log2 hsix hs.negator hv hrelation hstats hproper onLeft constant type, ?_⟩
  cases onLeft with
  | true => exact rangeFraction_negator log2 hs hstats hconstant
  | false =>
      rw [if_neg Bool.false_ne_true, if_neg Bool.false_ne_true, ← s.negator_commutator]
      exact rangeFraction_negator log2 hs.commutator hstats hconstant

section Example

theorem ages_proper : ages.Proper where
  nulls := by decide +kernel
  frequencies := by decide +kernel
  total := by decide +kernel

/-- All that is known of ages are integers. -/
theorem ages_comparesWith [Number Rat] (n : Int32) : ages.ComparesWith (.int4 n) := by
  intro kind hkind slot hslot value hvalue
  have hint4 : ∃ m, value = .int4 m := by
    simp only [List.mem_cons, List.not_mem_nil, or_false] at hkind
    obtain rfl | rfl := hkind
    all_goals
      cases hslot
      simp only [List.mem_cons, List.not_mem_nil, or_false] at hvalue
    · obtain rfl | rfl := hvalue <;> exact ⟨_, rfl⟩
    · obtain rfl | rfl | rfl := hvalue <;> exact ⟨_, rfl⟩
  obtain ⟨m, rfl⟩ := hint4
  rfl

/-- `40 < age` and `40 >= age` -/
theorem restriction_add_negator_forty :
    letI := Number.rational id
    ages.Proper ∧ ages.ComparesWith (.int4 40) ∧
      ∃ f g, restriction people 1014 [.const .int4 (some (.int4 40)), age] none = .ok f ∧
        restriction people 1017 [.const .int4 (some (.int4 40)), age] none = .ok g ∧
        f + g = 1 - 1 / 10 := by
  let _ := Number.rational id
  have hcompares : people.operators.Compares Regex.engine younger.left :=
    OperatorCatalog.compares_builtin younger.left
  have hforty : ages.ComparesWith (.int4 40) := ages_comparesWith 40
  exact ⟨ages_proper, hforty, restriction_add_negator id hcompares younger_mem rfl (by decide) rfl
    (Variable.examine_column rfl rfl rfl) rfl rfl ages_proper hforty false .int4⟩

/-- People of whom something else is known, with so many entries read of a
slot. -/
def peopleWith (stats : ColumnStatistics Rat) (limit : Nat) : Planner Rat :=
  letI := Number.rational id
  { people with
    settings := { people.settings with statisticsTarget := limit }
    statistics := ⟨fun _ _ => some stats, fun _ _ => none⟩ }

/-- The column `$1.1` of these people. -/
def firstColumn (stats : ColumnStatistics Rat) (limit : Nat) (type : DataType) : Variable Rat :=
  letI := Number.rational id
  { Variable.bound (peopleWith stats limit) (.var ⟨1, 1, type, -1⟩)
      (some (Relation.blank 0 .base (RelSet.singleton 1))) with
    statistics := some stats }

theorem examine_firstColumn (stats : ColumnStatistics Rat) (limit : Nat) (type : DataType) :
    letI := Number.rational id
    Variable.examine (peopleWith stats limit) (.var ⟨1, 1, type, -1⟩) none =
      .ok (firstColumn stats limit type) := by
  let _ := Number.rational id
  have hconcerns : Variable.concerns none (1 : RtIndex) = true := rfl
  exact Variable.examine_column (p := peopleWith stats limit) (v := ⟨1, 1, type, -1⟩) hconcerns
    rfl rfl

/-- Two tables whose columns something is known of. -/
def twoTables (left right : ColumnStatistics Rat) : Planner Rat :=
  letI := Number.rational id
  { people.addRelation (Relation.blank 1 .base (RelSet.singleton 2)) with
    statistics := ⟨fun relation _ => if relation = 7 then some left else some right,
      fun _ _ => none⟩
    rangeTable := [.stored 7, .stored 8] }

/-- The columns `$1.1` and `$2.1`. -/
def firstColumns : List (Expr Rat) := [.var ⟨1, 1, .int4, -1⟩, .var ⟨2, 1, .int4, -1⟩]

end Example

end Selectivity

end QueryPlanner
