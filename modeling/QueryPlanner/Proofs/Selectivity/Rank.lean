/-
  QueryPlanner.Proofs.Selectivity.Rank

  A histogram brackets the rank of a constant.

  The bounds of a histogram cut its values into buckets of equal size.  A
  constant with `j` of `n` bounds below it lies in bucket `j`, so no fewer than
  `j - 1` of the `n - 1` buckets are below it and no more than `j`.  Where in
  its bucket it is placed moves the estimate between these two and never
  beyond, so nothing here depends on the number line.
-/

import QueryPlanner.Proofs.Selectivity.Monotone

namespace QueryPlanner

/-- The comparison by which a bound counts as below the constant: of equal
values `<=` keeps the bound, and `>` leaves it. -/
def Strategy.lower : Strategy → Strategy
  | .lessEqual | .greater => .lessEqual
  | _ => .less

namespace Selectivity

/-! ## Ranks -/

/-- The number of bounds that sort below a constant. -/
def rank {α : Type} [Number α] (s : Strategy) (constant : Datum α) (bounds : List (Datum α)) : Nat :=
  bounds.countP ((Procedure.ordering s.lower).holds · constant)

/-- No bound sorts below an earlier one. -/
def Ascending {α : Type} [Number α] (bounds : List (Datum α)) : Prop :=
  bounds.Pairwise fun a b => (Procedure.ordering .less).holds b a = false

/-- Of comparable values the scan of a histogram tells the same ones below the
constant. -/
theorem below_eq_holds_lower {α : Type} [Number α] {s : Strategy} {b constant : Datum α}
    (hs : s.IsRange) (h : (b.compare? constant).isSome = true) :
    below s constant b = (Procedure.ordering s.lower).holds b constant := by
  obtain ⟨o, ho⟩ := Option.isSome_iff_exists.mp h
  rw [below, Procedure.holds, Procedure.holds, ho]
  cases s with
  | equal => exact absurd rfl hs.1
  | notEqual => exact absurd rfl hs.2
  | less | lessEqual | greater | greaterEqual => cases o <;> rfl

variable (log2 : Rat → Rat)

/-- Ascending bounds of one family are in their order. -/
theorem Ascending.atMost {bounds : List (Datum Rat)} {c : Datum Rat}
    (h : @Ascending Rat (Number.rational log2) bounds)
    (hfamily : ∀ b ∈ bounds, b.family = c.family) : bounds.Pairwise Datum.AtMost := by
  let _ := Number.rational log2
  apply h.imp_of_mem
  intro a b ha hb hab
  have hless : (Strategy.less).IsRange := by decide
  have hbelow : below .less a b = false := by
    rw [below, hab]
    rfl
  exact atMost_of_not_below log2 hless ((hfamily b hb).trans (hfamily a ha).symm) hbelow

/-! ## The scan -/

section Scan

variable {β : Type} {holds : β → Bool} {bounds : List β} {i : Nat}

/-- Where all that hold stand in front, the first place that does not hold is
their number. -/
theorem countP_of_findIdx? (hfront : bounds.Pairwise fun a b => holds b = true → holds a = true)
    (hi : (bounds.findIdx? fun b => !holds b) = some i) : bounds.countP holds = i := by
  induction bounds generalizing i with
  | nil => cases hi
  | cons b rest ih =>
      rw [List.pairwise_cons] at hfront
      rw [List.findIdx?_cons] at hi
      cases hb : holds b with
      | true =>
          rw [hb] at hi
          obtain ⟨k, hk, rfl⟩ := Option.map_eq_some_iff.mp hi
          rw [List.countP_cons_of_pos hb, ih hfront.2 hk]
      | false =>
          rw [hb] at hi
          cases hi
          have hnone : ∀ c ∈ b :: rest, ¬ holds c = true := by
            intro c hc hholds
            obtain rfl | hc := List.mem_cons.mp hc
            · rw [hb] at hholds
              cases hholds
            · rw [hfront.1 c hc hholds] at hb
              cases hb
          exact List.countP_eq_zero.mpr hnone

theorem countP_of_findIdx?_eq_none (hnone : (bounds.findIdx? fun b => !holds b) = none) :
    bounds.countP holds = bounds.length := by
  rw [List.countP_eq_length]
  intro b hb
  simpa using List.findIdx?_eq_none_iff.mp hnone b hb

end Scan

/-! ## Shares -/

/-- What a share of a histogram keeps to if `j` of its `n` bounds are below the
constant. -/
structure Brackets (n j : Nat) (share : Rat) : Prop where
  before : j = 0 → share = 1 / 10000
  past : j = n → share = 9999 / 10000
  low : 0 < j → j < n → offEnds (((j : Rat) - 1) / ((n : Rat) - 1)) ≤ share
  high : 0 < j → j < n → share ≤ offEnds ((j : Rat) / ((n : Rat) - 1))

theorem offEnds_zero : offEnds 0 = 1 / 10000 := by
  rw [offEnds, min_eq_right (by norm_num), max_eq_left (by norm_num)]

theorem offEnds_one : offEnds 1 = 9999 / 10000 := by
  rw [offEnds, min_eq_left (by norm_num), max_eq_right (by norm_num)]

section Shares

variable {holds : Datum Rat → Bool} {share : Datum Rat → Datum Rat → Rat}
  {bounds : List (Datum Rat)}

theorem brackets_histogramShare (hlong : 2 ≤ bounds.length)
    (hfront : bounds.Pairwise fun a b => holds b = true → holds a = true)
    (hshare : ∀ lo hi, 0 ≤ share lo hi ∧ share lo hi ≤ 1) :
    letI := Number.rational log2
    Brackets bounds.length (bounds.countP holds) (offEnds (histogramShare holds share bounds)) := by
  let _ := Number.rational log2
  obtain _ | ⟨first, rest⟩ := bounds
  · cases hlong
  rw [List.length_cons] at hlong ⊢
  cases hfirst : holds first with
  | false =>
      have hcount : (first :: rest).countP holds = 0 := by
        apply countP_of_findIdx? hfront
        rw [List.findIdx?_cons, hfirst]
        rfl
      rw [histogramShare_before log2 hfirst, hcount, offEnds_zero]
      exact ⟨fun _ => rfl, fun h => by omega, fun h => by omega, fun h => by omega⟩
  | true =>
      rw [List.countP_cons_of_pos hfirst]
      cases hfind : rest.findIdx? fun b => !holds b with
      | none =>
          rw [histogramShare_past log2 hfirst hfind, countP_of_findIdx?_eq_none hfind, offEnds_one]
          exact ⟨fun h => by omega, fun _ => rfl, fun _ h => by omega, fun _ h => by omega⟩
      | some i =>
          obtain ⟨lo, hi, -, hgetHi, -, -, hvalue⟩ :=
            histogramShare_bucket log2 share hfirst hfind
          obtain ⟨hlength, -⟩ := List.getElem?_eq_some_iff.mp hgetHi
          rw [hvalue, countP_of_findIdx? (List.pairwise_cons.mp hfront).2 hfind]
          -- The constant lies in bucket `i`, behind `i + 1` bounds.
          obtain ⟨hlow, hhigh⟩ := hshare lo hi
          have hbuckets : (((rest.length + 1 : Nat) : Rat) - 1) = rest.length := by
            push_cast
            ring
          have hbelow : (((i + 1 : Nat) : Rat) - 1) = i := by
            push_cast
            ring
          refine ⟨fun h => by omega, fun h => by omega, fun _ _ => ?_, fun _ _ => ?_⟩
          · rw [hbuckets, hbelow]
            apply offEnds_mono
            apply div_le_div_of_nonneg_right _ (Nat.cast_nonneg _)
            linarith
          · rw [hbuckets]
            apply offEnds_mono
            apply div_le_div_of_nonneg_right _ (Nat.cast_nonneg _)
            push_cast
            linarith

end Shares

/-! ## Estimates -/

/-- The fraction of a histogram's values that an ordering keeps, whichever way
a constant is placed between two bounds. -/
def placedFraction {α : Type} [Number α] (s : Strategy) (constant : Datum α)
    (place : Datum α → Datum α → Option (α × α × α)) (bounds : List (Datum α)) : α :=
  let share := histogramShare (below s constant) (fun lo hi => bucketShare (place lo hi)) bounds
  Number.clamp histogramFloor histogramCeiling (if s.keepsGreater then 1 - share else share)

variable {s : Strategy} {constant : Datum Rat} {bounds : List (Datum Rat)}

theorem brackets_placedFraction (hs : s.IsRange) (hlong : 2 ≤ bounds.length)
    (hsorted : @Ascending Rat (Number.rational log2) bounds)
    (hcomparable : ∀ b ∈ bounds,
      (@Datum.compare? Rat (Number.rational log2) b constant).isSome = true)
    (place : Datum Rat → Datum Rat → Option (Rat × Rat × Rat)) :
    letI := Number.rational log2
    Brackets bounds.length (rank s constant bounds)
      (if s.keepsGreater then 1 - placedFraction s constant place bounds
        else placedFraction s constant place bounds) := by
  let _ := Number.rational log2
  have hfamily : ∀ b ∈ bounds, b.family = constant.family := by
    intro b hb
    have hsome := hcomparable b hb
    rw [Datum.compare?_rational] at hsome
    by_contra h
    rw [if_neg h] at hsome
    cases hsome
  have hfront : bounds.Pairwise fun a b =>
      below s constant b = true → below s constant a = true := by
    apply (hsorted.atMost log2 hfamily).imp
    intro a b hab
    exact below_of_atMost log2 hs hab
  have hrank : rank s constant bounds = bounds.countP (below s constant) := by
    apply List.countP_congr
    intro b hb
    rw [below_eq_holds_lower hs (hcomparable b hb)]
  have hbrackets := brackets_histogramShare log2 hlong hfront
    fun lo hi => bucketShare_mem log2 (place lo hi)
  rw [placedFraction, clamp_histogram log2, hrank]
  cases s.keepsGreater with
  | false => exact hbrackets
  | true =>
      rw [if_pos rfl, if_pos rfl]
      show Brackets _ _ (1 - offEnds (1 - _))
      rw [offEnds_one_sub, sub_sub_cancel]
      exact hbrackets

/-- In exact numbers and without nulls and common values, the estimate of an
ordering is read off the rank of its constant among the ascending bounds of the
histogram, which may be repeated: off the ends without a bound below it or none
above, and between the shares of the bounds around it otherwise, wherever it is
placed between them.  `>` and `>=` keep what `<=` and `<` leave. -/
theorem comparison_brackets_rank (log2 : Rat → Rat) {p : Planner Rat} {opno : Oid}
    {op : Operator Rat} {v : Variable Rat} {stats : ColumnStatistics Rat}
    {slot : StatisticsSlot Rat} (hop : p.operators.get? opno = some op)
    (hcomparison : op.IsComparison s) (hs : s.IsRange) (hstats : v.statistics = some stats)
    (hnulls : stats.nullFraction = 0) (hcommon : stats.slot? .mcv none = none)
    (hslot : stats.slot? .histogram none = some slot) (hlong : 2 ≤ slot.values.length)
    (hlimit : slot.values.length ≤ v.slotLimit)
    (hsorted : @Ascending Rat (Number.rational log2) slot.values)
    (hcomparable : ∀ b ∈ slot.values,
      (@Datum.compare? Rat (Number.rational log2) b constant).isSome = true) (type : DataType) :
    letI := Number.rational log2
    comparison p opno s.keepsGreater v constant type =
        .ok (placedFraction s constant (fun lo hi => Scale.convert? constant type lo hi v.type)
          slot.values) ∧
      ∀ place, Brackets slot.values.length (rank s constant slot.values)
        (if s.keepsGreater then 1 - placedFraction s constant place slot.values
          else placedFraction s constant place slot.values) := by
  let _ := Number.rational log2
  have hbounds : v.bounds? = some slot.values := by
    rw [bounds?_of_slot? hstats hslot hlimit]
    exact if_pos hlong
  have hnone : v.common = [] := by
    rw [Variable.common, Variable.slot?, hstats, Option.bind_some, hcommon]
    rfl
  -- All values are neither null nor common.
  have hall : rangeFraction s v stats constant type = otherShare s v constant type := by
    rw [rangeFraction_rational, hnone, hnulls]
    simp [weight]
  have hplaced : otherShare s v constant type =
      placedFraction s constant (fun lo hi => Scale.convert? constant type lo hi v.type)
        slot.values := by
    rw [otherShare_of_bounds log2 hbounds, placedFraction, clamp_histogram log2, ← offEnds_one_sub]
    split <;> rfl
  have hmem := otherShare_mem log2 s v constant type
  refine ⟨?_, fun place => brackets_placedFraction log2 hs hlong hsorted hcomparable place⟩
  rw [comparison_eq hop hcomparison hstats, hall, clampProbability_of_mem log2 hmem.1 hmem.2,
    hplaced]

section Example

/-- Three buckets of heights, the middle one of a single value. -/
def heightBounds : List (Datum Rat) := [.int4 0, .int4 50, .int4 50, .int4 100]

def heights : ColumnStatistics Rat where
  nullFraction := 0
  averageWidth := 4
  distinct := -1
  slots := [⟨.histogram, 1014, heightBounds, []⟩]

/-- A column of heights. -/
def height : Variable Rat :=
  letI := Number.rational id
  { Variable.unbound people age with statistics := some heights }

/-- `height > 50` -/
theorem comparison_brackets_rank_fifty :
    letI := Number.rational id
    Ascending heightBounds ∧ rank .greater (.int4 50) heightBounds = 3 ∧
      ∃ f, comparison people 1016 true height (.int4 50) .int4 = .ok f ∧
        Brackets 4 3 (1 - f) := by
  let _ := Number.rational id
  have hop : people.operators.get? 1016 = some (OperatorCatalog.comparison 1012 .int4 .greater) :=
    rfl
  have hsorted : Ascending heightBounds := by
    unfold Ascending
    decide +kernel
  have hcomparable : ∀ b ∈ heightBounds, (b.compare? (.int4 50)).isSome = true := by
    decide +kernel
  obtain ⟨hestimate, hbrackets⟩ := comparison_brackets_rank id hop rfl (by decide)
    (rfl : height.statistics = some heights) rfl rfl rfl (by decide) (by decide) hsorted
    hcomparable .int4
  have hrank : rank .greater (.int4 50) heightBounds = 3 := by decide +kernel
  exact ⟨hsorted, hrank, _, hestimate, hrank ▸ hbrackets _⟩

end Example

end Selectivity

end QueryPlanner
