/-
  QueryPlanner.Proofs.Selectivity.Direction

  The direction that a histogram is stored in.

  The slot of a histogram names the operator that it was built with.  The
  greatest value on record is looked up by it, and is the same for bounds
  stored with `<` and for the bounds reversed and stored with `>`.  The scan of
  an ordering estimate does not look at it: it takes the first bound for the
  least one, so with reversed bounds a constant is either past all of them or
  not past any.
-/

import QueryPlanner.Proofs.Selectivity.Rank

namespace QueryPlanner

/-! ## Statistics with a histogram -/

namespace ColumnStatistics

variable {α : Type} (stats : ColumnStatistics α) (op sort : Oid) (bounds : List (Datum α))

/-- The statistics with a histogram that an operator built in place of theirs. -/
def withHistogram : ColumnStatistics α :=
  { stats with slots := ⟨.histogram, op, bounds, []⟩ :: stats.slots.filter (·.kind != .histogram) }

@[simp] theorem nullFraction_withHistogram :
    (stats.withHistogram op bounds).nullFraction = stats.nullFraction := rfl

theorem slot?_histogram_withHistogram :
    (stats.withHistogram op bounds).slot? .histogram none = some ⟨.histogram, op, bounds, []⟩ := rfl

/-- The histogram is found under the operator that built it, and no other. -/
theorem slot?_sorted_withHistogram :
    (stats.withHistogram op bounds).slot? .histogram (some sort) =
      if op = sort then some ⟨.histogram, op, bounds, []⟩ else none := by
  by_cases hop : op = sort
  · rw [if_pos hop]
    exact List.find?_cons_of_pos (by simp [hop])
  · rw [if_neg hop, slot?, withHistogram, List.find?_cons_of_neg (by simp [hop]),
      List.find?_eq_none]
    intro slot hslot hfound
    have hkind := (List.mem_filter.mp hslot).2
    rw [Bool.and_eq_true] at hfound
    rw [bne, hfound.1] at hkind
    cases hkind

@[simp] theorem slot?_mcv_withHistogram :
    (stats.withHistogram op bounds).slot? .mcv none = stats.slot? .mcv none := by
  rw [slot?, slot?, withHistogram, List.find?_cons, List.find?_filter]
  show List.find? _ stats.slots = _
  congr 1
  funext slot
  cases slot.kind <;> rfl

@[simp] theorem commonNumbers_withHistogram :
    (stats.withHistogram op bounds).commonNumbers = stats.commonNumbers := by
  rw [commonNumbers, commonNumbers, slot?_mcv_withHistogram]

variable {stats : ColumnStatistics Rat} {op : Oid} {bounds : List (Datum Rat)}

theorem Proper.withHistogram (h : stats.Proper) : (stats.withHistogram op bounds).Proper where
  nulls := h.nulls
  frequencies := by
    rw [commonNumbers_withHistogram]
    exact h.frequencies
  total := by
    rw [commonNumbers_withHistogram, nullFraction_withHistogram]
    exact h.total

end ColumnStatistics

namespace Variable

/-! ## The greatest value -/

section Maximum

variable {α : Type} {p : Planner α} {v : Variable α} {stats : ColumnStatistics α} {base : Oid}
  {type : DataType} {bounds : List (Datum α)}

/-- The variable with other statistics. -/
def describedBy (v : Variable α) (stats : ColumnStatistics α) : Variable α :=
  { v with statistics := some stats }

/-- A histogram ends where the order of its operator, or of the commutator, has
its greatest value. -/
theorem histogramEnd_describedBy (h : p.operators.HasSix base type)
    (hlimit : bounds.length ≤ v.slotLimit) (s sort : Strategy) :
    (v.describedBy (stats.withHistogram (base + OperatorCatalog.strategyOffset s) bounds)
        ).histogramEnd p (base + OperatorCatalog.strategyOffset sort) =
      if s = sort then some bounds.getLast?
      else if s = sort.commutator then some bounds.head? else none := by
  have hslot (t : Strategy) :
      (v.describedBy (stats.withHistogram (base + OperatorCatalog.strategyOffset s) bounds)).slot?
          .histogram (some (base + OperatorCatalog.strategyOffset t)) =
        if s = t then some ⟨bounds, []⟩ else none := by
    rw [slot?, describedBy, Option.bind_some, ColumnStatistics.slot?_sorted_withHistogram]
    by_cases hst : s = t
    · rw [if_pos hst, if_pos (by rw [hst]), Option.map_some, List.take_of_length_le hlimit,
        List.take_nil]
    · rw [if_neg hst, if_neg fun hoid => hst (h.oid_inj hoid), Option.map_none]
  rw [histogramEnd, hslot, h.commutator?, Option.bind_some, hslot]
  by_cases hsort : s = sort
  · rw [if_pos hsort, if_pos hsort]
  · rw [if_neg hsort, if_neg hsort]
    by_cases hback : s = sort.commutator
    · rw [if_pos hback, if_pos hback]
    · rw [if_neg hback, if_neg hback]
      rfl

/-- The greatest value on record is the same for bounds stored with `<` and for
the bounds reversed and stored with `>`. -/
theorem maximum?_reversed [Number α] (h : p.operators.HasSix base type)
    (hlimit : bounds.length ≤ v.slotLimit) (sort : Strategy) :
    (v.describedBy (stats.withHistogram (base + OperatorCatalog.strategyOffset .less) bounds)
        ).maximum? p (base + OperatorCatalog.strategyOffset sort) =
      (v.describedBy (stats.withHistogram (base + OperatorCatalog.strategyOffset .greater)
        bounds.reverse)).maximum? p (base + OperatorCatalog.strategyOffset sort) := by
  have hreverse : bounds.reverse.length ≤ v.slotLimit := by rwa [List.length_reverse]
  have hcommon (s : Strategy) (bounds : List (Datum α)) :
      (v.describedBy (stats.withHistogram (base + OperatorCatalog.strategyOffset s) bounds)).slot?
        .mcv none = (v.describedBy stats).slot? .mcv none := by
    rw [slot?, slot?, describedBy, describedBy, Option.bind_some, Option.bind_some,
      ColumnStatistics.slot?_mcv_withHistogram]
  rw [maximum?, maximum?, histogramEnd_describedBy h hlimit, histogramEnd_describedBy h hreverse,
    hcommon, hcommon]
  -- Only `<` and `>` find a histogram, one of them under its commutator.
  cases sort with
  | less | greater => simp [Strategy.commutator, describedBy]
  | equal | notEqual | lessEqual | greaterEqual => rfl

end Maximum

end Variable

namespace Selectivity

/-! ## The scan of reversed bounds -/

variable (log2 : Rat → Rat) {s : Strategy} {constant : Datum Rat} {type : DataType}
  {bounds : List (Datum Rat)}

theorem histogramShare_of_all {below : Datum Rat → Bool} {share : Datum Rat → Datum Rat → Rat}
    (hbounds : bounds ≠ []) (h : ∀ b ∈ bounds, below b = true) :
    @histogramShare Rat (Number.rational log2) below share bounds = 1 := by
  let _ := Number.rational log2
  obtain _ | ⟨first, rest⟩ := bounds
  · exact absurd rfl hbounds
  have hnone : (rest.findIdx? fun b => !below b) = none := by
    rw [List.findIdx?_eq_none_iff]
    intro b hb
    rw [h b (List.mem_cons_of_mem first hb)]
    rfl
  exact histogramShare_past log2 (h first List.mem_cons_self) hnone

/-- Of reversed bounds the scan sees the greatest one first: a constant is past
all of them, or not past any. -/
theorem belowShare_reverse (hs : s.IsRange) (hsorted : bounds.Pairwise Datum.AtMost)
    (hbounds : bounds ≠ []) (boundsType : DataType) :
    letI := Number.rational log2
    belowShare s constant type boundsType bounds.reverse =
      if ∀ b ∈ bounds, below s constant b = true then 1 else 0 := by
  let _ := Number.rational log2
  have hreversed : bounds.reverse.Pairwise fun a b => b.AtMost a :=
    List.pairwise_reverse.mpr hsorted
  have hmem (b : Datum Rat) : b ∈ bounds.reverse ↔ b ∈ bounds := List.mem_reverse
  cases hreverse : bounds.reverse with
  | nil => exact absurd (List.reverse_eq_nil_iff.mp hreverse) hbounds
  | cons greatest rest =>
      rw [hreverse] at hreversed hmem
      cases hgreatest : below s constant greatest with
      | true =>
          -- What follows in the reversed list comes no later than its first bound.
          have hall : ∀ b ∈ greatest :: rest, below s constant b = true := by
            intro b hb
            obtain rfl | hb := List.mem_cons.mp hb
            · exact hgreatest
            · have hle := (List.pairwise_cons.mp hreversed).1 b hb
              exact below_of_atMost log2 hs hle hgreatest
          have hbelow : ∀ b ∈ bounds, below s constant b = true := by
            intro b hb
            exact hall b ((hmem b).mpr hb)
          rw [if_pos hbelow]
          exact histogramShare_of_all log2 (List.cons_ne_nil _ _) hall
      | false =>
          have hnot : ¬ ∀ b ∈ bounds, below s constant b = true := by
            intro hbelow
            have htrue := hbelow greatest ((hmem greatest).mp List.mem_cons_self)
            rw [hgreatest] at htrue
            cases htrue
          rw [if_neg hnot]
          exact histogramShare_before log2 hgreatest

/-- Values that `<` holds of are in their order. -/
theorem atMost_of_holds_less {a b : Datum Rat}
    (h : @Procedure.holds Rat (Number.rational log2) (.ordering .less) a b = true) :
    a.AtMost b := by
  let _ := Number.rational log2
  rw [holds_rational] at h
  by_cases hfamily : a.family = b.family
  · rw [if_pos hfamily] at h
    refine ⟨hfamily, ?_⟩
    cases hplace : compare a.place b.place with
    | lt => rfl
    | eq | gt =>
        rw [hplace] at h
        cases h
  · rw [if_neg hfamily] at h
    cases h

theorem offEnds_eq_floor_iff {x : Rat} : offEnds x = 1 / 10000 ↔ x ≤ 1 / 10000 := by
  rw [offEnds, max_eq_left_iff, min_le_iff]
  norm_num

/-! ## Estimates -/

/-- The constant is past the last bound of a histogram, or before or so near to
the first one that only the floor is left below it; a histogram of less than
two bounds has no inside. -/
def OutsideHistogram [Number Rat] (s : Strategy) (constant : Datum Rat) (type boundsType : DataType)
    (bounds : List (Datum Rat)) : Prop :=
  bounds.length < 2 ∨ (∀ b ∈ bounds, below s constant b = true) ∨
    belowShare s constant type boundsType bounds ≤ 1 / 10000

section Column

variable (v : Variable Rat) (stats : ColumnStatistics Rat) (forward backward : Oid)
  (constant : Datum Rat) (type : DataType)

theorem bounds?_describedBy (op : Oid) (hlimit : bounds.length ≤ v.slotLimit) :
    (v.describedBy (stats.withHistogram op bounds)).bounds? =
      if 1 < bounds.length then some bounds else none :=
  bounds?_of_slot? rfl (stats.slot?_histogram_withHistogram op bounds) hlimit

theorem common_describedBy (op : Oid) :
    (v.describedBy (stats.withHistogram op bounds)).common = (v.describedBy stats).common := by
  rw [Variable.common, Variable.common, Variable.slot?, Variable.slot?, Variable.describedBy,
    Variable.describedBy, Option.bind_some, Option.bind_some,
    ColumnStatistics.slot?_mcv_withHistogram]

/-- The two directions of a histogram give a constant one share where it is
outside, and nowhere else. -/
theorem otherShare_reversed_iff (hs : s.IsRange) (hsorted : bounds.Pairwise Datum.AtMost)
    (hlimit : bounds.length ≤ v.slotLimit) :
    letI := Number.rational log2
    otherShare s (v.describedBy (stats.withHistogram forward bounds)) constant type =
        otherShare s (v.describedBy (stats.withHistogram backward bounds.reverse)) constant type ↔
      OutsideHistogram s constant type v.type bounds := by
  let _ := Number.rational log2
  have hreverse : bounds.reverse.length ≤ v.slotLimit := by rwa [List.length_reverse]
  have hforward := bounds?_describedBy v stats forward hlimit
  have hbackward := bounds?_describedBy v stats backward hreverse
  rw [List.length_reverse] at hbackward
  by_cases hlong : 1 < bounds.length
  · rw [if_pos hlong] at hforward hbackward
    have hbounds : bounds ≠ [] := by
      rintro rfl
      cases hlong
    have hoffEnds : offEnds (belowShare s constant type v.type bounds) =
        offEnds (belowShare s constant type v.type bounds.reverse) ↔
          OutsideHistogram s constant type v.type bounds := by
      rw [belowShare_reverse log2 hs hsorted hbounds]
      by_cases hall : ∀ b ∈ bounds, below s constant b = true
      · have hone : belowShare s constant type v.type bounds = 1 :=
          histogramShare_of_all log2 hbounds hall
        rw [if_pos hall, hone]
        exact ⟨fun _ => Or.inr (Or.inl hall), fun _ => rfl⟩
      · rw [if_neg hall, offEnds_zero, offEnds_eq_floor_iff]
        refine ⟨fun hfloor => Or.inr (Or.inr hfloor), fun houtside => ?_⟩
        obtain hshort | habove | hfloor := houtside
        · exact absurd hshort (by omega)
        · exact absurd habove hall
        · exact hfloor
    rw [otherShare_of_bounds log2 hforward, otherShare_of_bounds log2 hbackward, ← hoffEnds]
    cases s.keepsGreater with
    | false => exact Iff.rfl
    | true => exact sub_right_inj
  · rw [if_neg hlong] at hforward hbackward
    rw [otherShare_of_no_bounds log2 hforward, otherShare_of_no_bounds log2 hbackward]
    exact ⟨fun _ => Or.inl (by omega), fun _ => rfl⟩

theorem rangeFraction_describedBy (op : Oid) :
    letI := Number.rational log2
    rangeFraction s (v.describedBy (stats.withHistogram op bounds)) (stats.withHistogram op bounds)
        constant type =
      (1 - stats.nullFraction - weight (fun _ => true) (v.describedBy stats).common) *
          otherShare s (v.describedBy (stats.withHistogram op bounds)) constant type +
        weight ((Procedure.ordering s).holds · constant) (v.describedBy stats).common := by
  rw [rangeFraction_rational, common_describedBy, ColumnStatistics.nullFraction_withHistogram]

/-- The estimate of an ordering with a histogram that an operator built. -/
def estimateWith [Number Rat] (s : Strategy) (v : Variable Rat) (stats : ColumnStatistics Rat)
    (constant : Datum Rat) (type : DataType) (op : Oid) (bounds : List (Datum Rat)) : Rat :=
  clampProbability (clampProbability (rangeFraction s
    (v.describedBy (stats.withHistogram op bounds)) (stats.withHistogram op bounds) constant type))

/-- The estimates of the two directions agree for constants outside the
histogram, and if some values are in it, for no others. -/
theorem estimateWith_reversed (hs : s.IsRange) (hsorted : bounds.Pairwise Datum.AtMost)
    (hlimit : bounds.length ≤ v.slotLimit) :
    letI := Number.rational log2
    (OutsideHistogram s constant type v.type bounds →
        estimateWith s v stats constant type forward bounds =
          estimateWith s v stats constant type backward bounds.reverse) ∧
      (stats.Proper → stats.nullFraction + stats.commonNumbers.sum < 1 →
        estimateWith s v stats constant type forward bounds =
          estimateWith s v stats constant type backward bounds.reverse →
            OutsideHistogram s constant type v.type bounds) := by
  let _ := Number.rational log2
  have hshares :=
    otherShare_reversed_iff log2 v stats forward backward constant type hs hsorted hlimit
  rw [← hshares, estimateWith, estimateWith]
  refine ⟨fun h => ?_, fun hproper hothers h => ?_⟩
  · rw [rangeFraction_describedBy, rangeFraction_describedBy, h]
  · have hclamp (op : Oid) (bounds : List (Datum Rat)) :=
      clampProbability_rangeFraction log2 s constant type
        (rfl : (v.describedBy (stats.withHistogram op bounds)).statistics = _)
        hproper.withHistogram
    have hcommon : weight (fun _ => true) (v.describedBy stats).common ≤
        stats.commonNumbers.sum := weight_common_le rfl hproper
    have hpositive : 1 - stats.nullFraction -
        weight (fun _ => true) (v.describedBy stats).common ≠ 0 := by linarith
    rw [hclamp, hclamp, hclamp, hclamp, rangeFraction_describedBy, rangeFraction_describedBy] at h
    exact mul_left_cancel₀ hpositive (add_right_cancel h)

end Column

/-! ## Columns -/

/-- A column is bound with the statistics that the provider has of it. -/
theorem examine_described [Number Rat] {p : Planner Rat} {provider : StatisticsProvider Rat}
    {x : Var} {var : Option RtIndex} {r : Relation Rat} {entry : RangeTableEntry} {relation : Oid}
    {stats : ColumnStatistics Rat} (hvar : Variable.concerns var x.relation = true)
    (hr : p.baseRelation x.relation = .ok r) (hentry : p.entry x.relation = .ok entry)
    (hrelation : entry.relation? = some relation)
    (hstats : provider.column relation x.column = some stats) :
    Variable.examine { p with statistics := provider } (.var x) var =
      .ok ((Variable.bound p (.var x) (some r)).describedBy stats) := by
  have hexamine : Variable.examine { p with statistics := provider } (.var x) var = .ok _ :=
    Variable.examine_column hvar hr hentry
  rw [hexamine, hrelation, Option.bind_some, hstats]
  rfl

/-- For bounds stored with `<`, and for the bounds reversed and stored with `>`,
the greatest value of a column is the same.  In exact numbers the estimates of
an ordering agree too where its constant is outside the histogram; inside it
they differ, unless all values are null or common. -/
theorem histogram_direction (log2 : Rat → Rat) {p : Planner Rat}
    {forward backward : StatisticsProvider Rat} {x : Var} {var : Option RtIndex}
    {r : Relation Rat} {entry : RangeTableEntry} {relation base : Oid} {dataType : DataType}
    {stats : ColumnStatistics Rat} {bounds : List (Datum Rat)}
    (hsix : p.operators.HasSix base dataType) (hvar : Variable.concerns var x.relation = true)
    (hr : p.baseRelation x.relation = .ok r) (hentry : p.entry x.relation = .ok entry)
    (hrelation : entry.relation? = some relation)
    (hlimit : bounds.length ≤ p.settings.statisticsTarget)
    (hsorted : bounds.Pairwise fun a b =>
      @Procedure.holds Rat (Number.rational log2) (.ordering .less) a b = true)
    (hforward : forward.column relation x.column =
      some (stats.withHistogram (base + OperatorCatalog.strategyOffset .less) bounds))
    (hbackward : backward.column relation x.column =
      some (stats.withHistogram (base + OperatorCatalog.strategyOffset .greater) bounds.reverse)) :
    letI := Number.rational log2
    (∃ v w, Variable.examine { p with statistics := forward } (.var x) var = .ok v ∧
      Variable.examine { p with statistics := backward } (.var x) var = .ok w ∧
      ∀ sort : Strategy,
        v.maximum? { p with statistics := forward } (base + OperatorCatalog.strategyOffset sort) =
          w.maximum? { p with statistics := backward }
            (base + OperatorCatalog.strategyOffset sort)) ∧
      ∀ (s : Strategy) (onLeft : Bool) (constant : Datum Rat) (type : DataType), s.IsRange →
        ∃ f g,
          restriction { p with statistics := forward } (base + OperatorCatalog.strategyOffset s)
            (operands onLeft (.var x) constant type) var = .ok f ∧
          restriction { p with statistics := backward } (base + OperatorCatalog.strategyOffset s)
            (operands onLeft (.var x) constant type) var = .ok g ∧
          (OutsideHistogram (if onLeft then s else s.commutator) constant type x.type bounds →
            f = g) ∧
          (stats.Proper → stats.nullFraction + stats.commonNumbers.sum < 1 → f = g →
            OutsideHistogram (if onLeft then s else s.commutator) constant type x.type bounds) := by
  let _ := Number.rational log2
  have hv := examine_described hvar hr hentry hrelation hforward
  have hw := examine_described hvar hr hentry hrelation hbackward
  refine ⟨⟨_, _, hv, hw, Variable.maximum?_reversed hsix hlimit⟩, ?_⟩
  intro s onLeft constant type hs
  have hatMost : bounds.Pairwise Datum.AtMost := by
    apply hsorted.imp
    intro a b hab
    exact atMost_of_holds_less log2 hab
  have hside : (if onLeft then s else s.commutator).IsRange := by
    cases onLeft with
    | true => exact hs
    | false => exact hs.commutator
  have hf := restriction_operands (p := { p with statistics := forward }) hsix hs hv rfl rfl onLeft
    constant type
  have hg := restriction_operands (p := { p with statistics := backward }) hsix hs hw rfl rfl onLeft
    constant type
  exact ⟨_, _, hf, hg, estimateWith_reversed log2 (Variable.bound p (.var x) (some r)) stats _ _
    constant type hside hatMost hlimit⟩

section Example

/-- The table of ages with another histogram. -/
def agesStored (op : Oid) (bounds : List (Datum Rat)) : StatisticsProvider Rat :=
  ⟨fun _ column => if column = 1 then some (ages.withHistogram op bounds) else none,
    fun _ _ => none⟩

/-- `age < 25` in two directions -/
theorem histogram_direction_twentyFive :
    letI := Number.rational id
    let bounds : List (Datum Rat) := [.int4 0, .int4 50, .int4 100]
    ∃ f g,
      restriction { people with statistics := agesStored 1014 bounds } 1014
        (operands true age (.int4 25) .int4) none = .ok f ∧
      restriction { people with statistics := agesStored 1016 bounds.reverse } 1014
        (operands true age (.int4 25) .int4) none = .ok g ∧ f ≠ g := by
  let _ := Number.rational id
  intro bounds
  have hsix : people.operators.HasSix 1012 .int4 := by
    intro s
    cases s <;> rfl
  have hsorted : bounds.Pairwise fun a b => (Procedure.ordering .less).holds a b = true := by
    decide +kernel
  have hforward : (agesStored 1014 bounds).column 7 1 =
      some (ages.withHistogram (1012 + OperatorCatalog.strategyOffset .less) bounds) := rfl
  have hbackward : (agesStored 1016 bounds.reverse).column 7 1 =
      some (ages.withHistogram (1012 + OperatorCatalog.strategyOffset .greater) bounds.reverse) :=
    rfl
  have hinside : ¬ OutsideHistogram .less (.int4 25) .int4 .int4 bounds := by
    unfold OutsideHistogram
    decide +kernel
  have hothers : ages.nullFraction + ages.commonNumbers.sum < 1 := by decide +kernel
  have hrelation : Variable.concerns none (1 : RtIndex) = true := rfl
  obtain ⟨-, hestimates⟩ := histogram_direction (x := ⟨1, 1, .int4, -1⟩) id hsix hrelation rfl rfl
    rfl (by decide) hsorted hforward hbackward
  obtain ⟨f, g, hf, hg, -, hsame⟩ := hestimates .less true (.int4 25) .int4 (by decide)
  exact ⟨f, g, hf, hg, fun heq => hinside (hsame ages_proper hothers heq)⟩

/-- A quarter of the ages is below 25, but no more than the floor if they are
stored from the greatest one on. -/
theorem histogram_direction_differs :
    letI := Number.rational id
    let bounds : List (Datum Rat) := [.int4 0, .int4 50, .int4 100]
    (restriction { people with statistics := agesStored 1014 bounds } 1014
        (operands true age (.int4 25) .int4) none).toOption = some (3 / 20) ∧
      (restriction { people with statistics := agesStored 1016 bounds.reverse } 1014
        (operands true age (.int4 25) .int4) none).toOption = some (3 / 50000) := by
  let _ := Number.rational id
  decide +kernel

end Example

end Selectivity

end QueryPlanner
