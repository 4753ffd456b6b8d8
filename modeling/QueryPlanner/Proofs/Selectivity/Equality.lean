/-
  QueryPlanner.Proofs.Selectivity.Equality

  Different constants share the rows that are not null.

  A constant that equals a common value has that value's frequency; all others
  are given one and the same.  Different constants equal different common
  values, so their frequencies are parts of one sum.  The frequency of the
  others is an even share of the rest, for as many values as the distinct count
  leaves behind the common ones, so that this many of them do not exceed the
  rest; a single one never does.
-/

import QueryPlanner.Pattern.Regex.Engine
import QueryPlanner.Proofs.Selectivity.Range

namespace QueryPlanner

open PlanM

/-! ## Equal values -/

namespace Procedure

variable {α : Type} [Number α] {op : Procedure α} {values : List (Datum α)}

/-- On these values the operator decides as an equality does. -/
structure EqualityOn (op : Procedure α) (values : List (Datum α)) : Prop where
  symm : ∀ a ∈ values, ∀ b ∈ values, op.holds a b = true → op.holds b a = true
  trans : ∀ a ∈ values, ∀ b ∈ values, ∀ c ∈ values,
    op.holds a b = true → op.holds b c = true → op.holds a c = true

/-- No value equals a later one. -/
def Distinct (op : Procedure α) (values : List (Datum α)) : Prop :=
  values.Pairwise fun a b => op.holds a b = false

instance (op : Procedure α) (values : List (Datum α)) : Decidable (op.Distinct values) :=
  inferInstanceAs (Decidable (values.Pairwise fun a b => op.holds a b = false))

theorem EqualityOn.comm (h : op.EqualityOn values) {a b : Datum α} (ha : a ∈ values)
    (hb : b ∈ values) : op.holds a b = op.holds b a :=
  Bool.eq_iff_iff.mpr ⟨h.symm a ha b hb, h.symm b hb a ha⟩

/-- A value equals at most one of several distinct ones. -/
theorem EqualityOn.not_both (h : op.EqualityOn values) {x a b : Datum α} (hx : x ∈ values)
    (ha : a ∈ values) (hb : b ∈ values) (hab : op.holds a b = false) :
    op.holds x a = true → op.holds x b = false := by
  intro hxa
  by_contra hxb
  have hax := h.symm x hx a ha hxa
  have heq := h.trans a ha x hx b hb hax (Bool.of_not_eq_false hxb)
  rw [hab] at heq
  cases heq

end Procedure

/-! ## Common values -/

/-- The constant equals a common value that is read. -/
def Variable.lists {α : Type} [Number α] (v : Variable α) (op : Procedure α)
    (constant : Datum α) : Bool :=
  v.common.any fun x => op.holds x.1 constant

namespace Selectivity

/-- A value is found together with its frequency. -/
theorem findIdx?_bind_getElem? {α β : Type} (holds : α → Bool) (values : List α)
    (numbers : List β) (h : values.length = numbers.length) :
    (values.findIdx? holds).bind (numbers[·]?) =
      ((values.zip numbers).find? fun x => holds x.1).map (·.2) := by
  induction values generalizing numbers with
  | nil => rfl
  | cons value values ih =>
      cases numbers with
      | nil => cases h
      | cons number numbers =>
          have hrest := ih numbers (Nat.succ.inj h)
          rw [List.findIdx?_cons, List.zip_cons_cons, List.find?_cons]
          cases holds value with
          | true => rfl
          | false =>
              rw [← hrest]
              cases values.findIdx? holds <;> rfl

/-- What only one element has is found at it. -/
theorem find?_eq_some_of_pairwise {β : Type} {holds : β → Bool} {l : List β} {x : β}
    (h : l.Pairwise fun a b => holds a = true → holds b = false) (hx : x ∈ l)
    (hholds : holds x = true) : l.find? holds = some x := by
  induction l with
  | nil => cases hx
  | cons y rest ih =>
      obtain ⟨hfirst, hrest⟩ := List.pairwise_cons.mp h
      rw [List.find?_cons]
      rcases List.mem_cons.mp hx with rfl | hmem
      · rw [hholds]
      · have hy : holds y = false := by
          by_contra htrue
          have hfalse := hfirst x hmem (Bool.of_not_eq_false htrue)
          rw [hholds] at hfalse
          cases hfalse
        rw [hy]
        exact ih hrest hmem

section Frequency

variable {α : Type} [Number α] {v : Variable α} {stats : ColumnStatistics α}

/-- The frequency of a constant: that of the common value it equals, or that of
all others. -/
def constantFrequency (v : Variable α) (nulls distinct : α) (holds : Datum α → Bool) : α :=
  match v.common.find? fun x => holds x.1 with
  | some x => x.2
  | none => uncommonFrequency nulls distinct (v.common.map (·.2))

theorem constantFrequency_congr {nulls distinct : α} {holds holds' : Datum α → Bool}
    (h : ∀ x ∈ v.common, holds x.1 = holds' x.1) :
    constantFrequency v nulls distinct holds = constantFrequency v nulls distinct holds' := by
  have hfind : (v.common.find? fun x => holds x.1) = v.common.find? fun x => holds' x.1 := by
    rw [← List.head?_filter, ← List.head?_filter, List.filter_congr h]
  rw [constantFrequency, constantFrequency, hfind]

/-- A slot with one frequency for each value is read so. -/
theorem valueFrequency_eq (hstats : v.statistics = some stats)
    (hone : stats.commonValues.length = stats.commonNumbers.length) (nulls distinct : α)
    (holds : Datum α → Bool) :
    valueFrequency holds nulls distinct (v.slot? .mcv none) =
      constantFrequency v nulls distinct holds := by
  rw [constantFrequency, Variable.common, Variable.slot?_of_statistics hstats]
  rw [ColumnStatistics.commonValues, ColumnStatistics.commonNumbers] at hone
  cases hslot : stats.slot? .mcv none with
  | none => rfl
  | some slot =>
      rw [hslot] at hone
      have hlength : (slot.values.take v.slotLimit).length =
          (slot.numbers.take v.slotLimit).length := by
        rw [List.length_take, List.length_take, hone]
      have hfound := findIdx?_bind_getElem? holds _ _ hlength
      have hnumbers := List.map_snd_zip hlength.ge
      dsimp only [valueFrequency, Option.map_some]
      rw [hfound, hnumbers]
      cases ((slot.values.take v.slotLimit).zip (slot.numbers.take v.slotLimit)).find?
        fun x => holds x.1 <;> rfl

omit [Number α] in
/-- The common values that are read are the first ones on record. -/
theorem common_values_eq (hstats : v.statistics = some stats)
    (hone : stats.commonValues.length = stats.commonNumbers.length) :
    v.common.map (·.1) = stats.commonValues.take v.slotLimit := by
  rw [Variable.common, Variable.slot?_of_statistics hstats]
  rw [ColumnStatistics.commonValues, ColumnStatistics.commonNumbers] at hone
  rw [ColumnStatistics.commonValues]
  cases hslot : stats.slot? .mcv none with
  | none => rw [Option.map_none, List.take_nil, List.map_nil]
  | some slot =>
      rw [hslot] at hone
      dsimp only [Option.map_some]
      rw [List.map_fst_zip]
      rw [List.length_take, List.length_take, hone]

omit [Number α] in
theorem mem_commonValues (hstats : v.statistics = some stats)
    (hone : stats.commonValues.length = stats.commonNumbers.length) {x : Datum α × α}
    (hx : x ∈ v.common) : x.1 ∈ stats.commonValues := by
  have hvalue : x.1 ∈ v.common.map (·.1) := List.mem_map_of_mem hx
  rw [common_values_eq hstats hone] at hvalue
  exact List.mem_of_mem_take hvalue

/-- A constant that equals a listed value has its frequency, if no two values on
record are equal. -/
theorem constantFrequency_of_mem {op : Procedure α} {values : List (Datum α)} {c : Datum α}
    {nulls distinct : α} (hstats : v.statistics = some stats)
    (hone : stats.commonValues.length = stats.commonNumbers.length)
    (hequality : op.EqualityOn values) (hvalues : stats.commonValues ⊆ values) (hc : c ∈ values)
    (hcommon : op.Distinct stats.commonValues) {x : Datum α × α} (hx : x ∈ v.common)
    (hholds : op.holds x.1 c = true) :
    constantFrequency v nulls distinct (op.holds · c) = x.2 := by
  have hvalue {y : Datum α × α} (hy : y ∈ v.common) : y.1 ∈ values :=
    hvalues (mem_commonValues hstats hone hy)
  have hread : op.Distinct (v.common.map (·.1)) := by
    rw [common_values_eq hstats hone]
    exact hcommon.sublist (List.take_sublist _ _)
  have hdistinct := List.pairwise_map.mp hread
  have honce : v.common.Pairwise fun a b => op.holds a.1 c = true → op.holds b.1 c = false := by
    refine hdistinct.imp_of_mem ?_
    intro a b ha hb hab
    rw [hequality.comm (hvalue ha) hc, hequality.comm (hvalue hb) hc]
    exact hequality.not_both hc (hvalue ha) (hvalue hb) hab
  rw [constantFrequency, find?_eq_some_of_pairwise honce hx hholds]

/-- The estimate of an equality of a variable with a constant. -/
theorem equality_operands {p : Planner α} {opno : Oid} {op : Operator α} {a : Expr α}
    {var : Option RtIndex} (hop : p.operators.get? opno = some op)
    (hv : Variable.examine p a var = .ok v) (hrelation : v.relation.isSome = true)
    (hstats : v.statistics = some stats)
    (hone : stats.commonValues.length = stats.commonNumbers.length) (onLeft : Bool)
    (constant : Datum α) (type : DataType) :
    equality p opno (operands onLeft a constant type) var =
      .ok (clampProbability (constantFrequency v stats.nullFraction (v.distinctCount p)
        (applied op.procedure onLeft · constant))) := by
  have hoperands := restriction?_operands hv hrelation onLeft constant type
  rw [← valueFrequency_eq hstats hone]
  refine except_bind_eq_ok.mpr ⟨_, hoperands, ?_⟩
  dsimp only [comparand]
  rw [hstats]
  exact except_bind_eq_ok.mpr ⟨op, OperatorCatalog.lookup_of_get? hop, rfl⟩

end Frequency

/-! ## Shares -/

variable {pairs : List (Datum Rat × Rat)} {v : Variable Rat} {stats : ColumnStatistics Rat}
  {constants : List (Datum Rat)}

/-- The frequency of the value found is one of those that match. -/
theorem find?_le_weight {holds : Datum Rat → Bool} {x : Datum Rat × Rat}
    (hnonneg : ∀ x ∈ pairs, 0 ≤ x.2) (h : (pairs.find? fun x => holds x.1) = some x) :
    x.2 ≤ weight holds pairs := by
  have hholds : holds x.1 = true := by simpa using List.find?_some h
  have hmem := List.mem_of_find?_eq_some h
  refine List.single_le_sum (weight_terms_nonneg hnonneg) x.2 ?_
  refine List.mem_map.mpr ⟨x, hmem, ?_⟩
  rw [if_pos hholds]

/-- Constants that match different values have their frequencies side by
side. -/
theorem sum_weight_eq (holds : Datum Rat → Datum Rat → Bool)
    (h : constants.Pairwise fun c d => ∀ x ∈ pairs, holds x.1 c = true → holds x.1 d = false) :
    (constants.map fun c => weight (holds · c) pairs).sum =
      weight (fun value => constants.any (holds value)) pairs := by
  induction constants with
  | nil => simp [weight]
  | cons c rest ih =>
      obtain ⟨hfirst, hrest⟩ := List.pairwise_cons.mp h
      rw [List.map_cons, List.sum_cons, ih hrest, weight, weight, weight, ← List.sum_map_add]
      refine congrArg List.sum (List.map_congr_left fun x hx => ?_)
      rw [List.any_cons]
      -- A value that `c` matches is matched by no later constant.
      by_cases hc : holds x.1 c = true
      · have hnone : rest.any (holds x.1) = false := by
          rw [List.any_eq_false]
          intro d hd
          rw [hfirst d hd x hx hc]
          exact Bool.false_ne_true
        simp [hc, hnone]
      · simp [hc]

section Rationals

variable (log2 : Rat → Rat)

/-- What is left behind the common values, shared out evenly. -/
def evenShare (rest others : Rat) : Rat := if 1 < others then rest / others else rest

theorem evenShare_nonneg {rest : Rat} (others : Rat) (hrest : 0 ≤ rest) :
    0 ≤ evenShare rest others := by
  rw [evenShare]
  split
  · exact div_nonneg hrest (by linarith)
  · exact hrest

/-- As many shares as there are others, and one in any case, are at most the
rest. -/
theorem mul_evenShare_le {rest others count : Rat} (hrest : 0 ≤ rest)
    (hcount : count ≤ max 1 others) : count * evenShare rest others ≤ rest := by
  have hshare := evenShare_nonneg others hrest
  rw [evenShare] at hshare ⊢
  -- With at most one other value the share is the whole rest, for one constant only.
  split at hshare
  · rename_i hmany
    rw [if_pos hmany]
    rw [max_eq_right hmany.le] at hcount
    have hpositive : 0 < others := by linarith
    calc count * (rest / others) ≤ others * (rest / others) :=
          mul_le_mul_of_nonneg_right hcount hshare
      _ = rest := mul_div_cancel₀ rest hpositive.ne'
  · rename_i hfew
    rw [if_neg hfew]
    rw [max_eq_left (not_lt.mp hfew)] at hcount
    exact mul_le_of_le_one_left hrest hcount

theorem sum_rational (numbers : List Rat) :
    @Number.sum Rat (Number.rational log2) numbers = numbers.sum :=
  List.sum_eq_foldl.symm

theorem uncommonFrequency_rational (nulls distinct : Rat) (numbers : List Rat)
    (hnonneg : 0 ≤ nulls) (hsum : 0 ≤ numbers.sum) (htotal : nulls + numbers.sum ≤ 1) :
    letI := Number.rational log2
    uncommonFrequency nulls distinct numbers =
      match numbers.getLast? with
      | some least =>
        min (evenShare (1 - numbers.sum - nulls) (distinct - numbers.length)) least
      | none => evenShare (1 - numbers.sum - nulls) (distinct - numbers.length) := by
  let _ := Number.rational log2
  have hrest : clampProbability (1 - Number.sum numbers - nulls) = 1 - numbers.sum - nulls := by
    rw [sum_rational]
    exact clampProbability_of_mem log2 (by linarith) (by linarith)
  have hcount : (Number.ofNat numbers.length : Rat) = numbers.length := Int.cast_natCast _
  rw [uncommonFrequency, hrest, hcount]
  cases numbers.getLast? with
  | none => rfl
  | some least => exact Number.min_rational log2 _ _

/-- No value that is not common is given less than nothing, and as many of them
as are left behind the common ones are given no more than the rest. -/
theorem uncommonFrequency_mem (distinct : Rat) {nulls count : Rat} {numbers : List Rat}
    (hnulls : 0 ≤ nulls) (hnumbers : ∀ f ∈ numbers, 0 ≤ f) (htotal : nulls + numbers.sum ≤ 1)
    (hnonneg : 0 ≤ count) (hcount : count ≤ max 1 (distinct - numbers.length)) :
    letI := Number.rational log2
    0 ≤ uncommonFrequency nulls distinct numbers ∧
      count * uncommonFrequency nulls distinct numbers ≤ 1 - numbers.sum - nulls := by
  let _ := Number.rational log2
  have hsum : 0 ≤ numbers.sum := List.sum_nonneg hnumbers
  have hrest : 0 ≤ 1 - numbers.sum - nulls := by linarith
  have hshare := evenShare_nonneg (distinct - numbers.length) hrest
  have hshares := mul_evenShare_le hrest hcount
  rw [uncommonFrequency_rational log2 nulls distinct numbers hnulls hsum htotal]
  cases hleast : numbers.getLast? with
  | none => exact ⟨hshare, hshares⟩
  | some least =>
      have hleast := hnumbers least (List.mem_of_getLast? hleast)
      refine ⟨le_min hshare hleast, ?_⟩
      exact (mul_le_mul_of_nonneg_left (min_le_left _ _) hnonneg).trans hshares

/-! ## Estimates -/

section Estimates

variable {distinct : Rat} {holds : Datum Rat → Bool}

/-- The nulls and the common values that are read are parts of one whole. -/
theorem nulls_add_common_le (hstats : v.statistics = some stats) (hproper : stats.Proper) :
    stats.nullFraction + (v.common.map (·.2)).sum ≤ 1 := by
  have hothers := others_nonneg hstats hproper
  simp only [weight, if_true] at hothers
  linarith

theorem constantFrequency_le {nulls : Rat} (hnonneg : ∀ x ∈ v.common, 0 ≤ x.2) :
    letI := Number.rational log2
    constantFrequency v nulls distinct holds ≤ weight holds v.common +
      if v.common.any fun x => holds x.1 then 0
      else uncommonFrequency nulls distinct (v.common.map (·.2)) := by
  let _ := Number.rational log2
  rw [constantFrequency]
  cases hfind : v.common.find? fun x => holds x.1 with
  | some x =>
      have hany : (v.common.any fun x => holds x.1) = true := by
        rw [List.any_eq_true]
        exact ⟨x, List.mem_of_find?_eq_some hfind, by simpa using List.find?_some hfind⟩
      rw [if_pos hany, add_zero]
      exact find?_le_weight hnonneg hfind
  | none =>
      have hany : ¬ (v.common.any fun x => holds x.1) = true := by
        rw [List.any_eq_true]
        rintro ⟨x, hx, hholds⟩
        exact List.find?_eq_none.mp hfind x hx hholds
      rw [if_neg hany]
      exact le_add_of_nonneg_left (weight_nonneg hnonneg)

theorem common_numbers_nonneg (hstats : v.statistics = some stats) (hproper : stats.Proper) :
    ∀ f ∈ v.common.map (·.2), 0 ≤ f := by
  intro f hf
  obtain ⟨x, hx, rfl⟩ := List.mem_map.mp hf
  exact frequency_nonneg hstats hproper x hx

/-- The frequency of a constant needs no clamp. -/
theorem constantFrequency_mem (hstats : v.statistics = some stats) (hproper : stats.Proper)
    (distinct : Rat) (holds : Datum Rat → Bool) :
    letI := Number.rational log2
    0 ≤ constantFrequency v stats.nullFraction distinct holds ∧
      constantFrequency v stats.nullFraction distinct holds ≤ 1 := by
  let _ := Number.rational log2
  have hnumbers := common_numbers_nonneg hstats hproper
  have htotal := nulls_add_common_le hstats hproper
  have hnulls := hproper.nulls
  rw [constantFrequency]
  cases hfind : v.common.find? fun x => holds x.1 with
  | some x =>
      have hx : x.2 ∈ v.common.map (·.2) := List.mem_map_of_mem (List.mem_of_find?_eq_some hfind)
      have hle := List.single_le_sum hnumbers x.2 hx
      exact ⟨hnumbers x.2 hx, by linarith⟩
  | none =>
      have hsum := List.sum_nonneg hnumbers
      obtain ⟨hnonneg, hle⟩ := uncommonFrequency_mem log2 distinct hnulls hnumbers htotal
        zero_le_one (le_max_left 1 _)
      rw [one_mul] at hle
      exact ⟨hnonneg, by linarith⟩

/-- The constants that are not listed are given one frequency each. -/
theorem sum_unlisted (listed : Datum Rat → Bool) (constants : List (Datum Rat)) (f : Rat) :
    (constants.map fun c => if listed c then 0 else f).sum =
      (constants.countP fun c => !listed c) * f := by
  induction constants with
  | nil => simp
  | cons c rest ih =>
      rw [List.map_cons, List.sum_cons, ih, List.countP_cons]
      cases listed c with
      | true => simp
      | false =>
          simp only [Bool.not_false, if_true, Bool.false_eq_true, if_false, Nat.cast_add,
            Nat.cast_one]
          ring

/-- The frequencies of different constants are parts of what is not null. -/
theorem sum_constantFrequency_le {op : Procedure Rat} {values : List (Datum Rat)}
    (hstats : v.statistics = some stats) (hproper : stats.Proper)
    (hone : stats.commonValues.length = stats.commonNumbers.length)
    (hequality : @Procedure.EqualityOn Rat (Number.rational log2) op values)
    (hvalues : stats.commonValues ⊆ values) (hsub : constants ⊆ values)
    (hconstants : @Procedure.Distinct Rat (Number.rational log2) op constants)
    (hfew : letI := Number.rational log2
      ((constants.countP fun c => !v.lists op c : Nat) : Rat) ≤
        max 1 (distinct - v.common.length)) :
    letI := Number.rational log2
    (constants.map fun c => constantFrequency v stats.nullFraction distinct (op.holds · c)).sum ≤
      1 - stats.nullFraction := by
  let _ := Number.rational log2
  have hnonneg := frequency_nonneg hstats hproper
  have hnumbers := common_numbers_nonneg hstats hproper
  have htotal := nulls_add_common_le hstats hproper
  -- Two constants that equal one common value would be equal.
  have hapart : constants.Pairwise fun c d =>
      ∀ x ∈ v.common, op.holds x.1 c = true → op.holds x.1 d = false := by
    refine hconstants.imp_of_mem ?_
    intro c d hc hd hcd x hx
    have hvalue := hvalues (mem_commonValues hstats hone hx)
    exact hequality.not_both hvalue (hsub hc) (hsub hd) hcd
  have hlisted : weight (fun value => constants.any (op.holds value)) v.common ≤
      (v.common.map (·.2)).sum := by
    have hall : weight (fun value => constants.any (op.holds value)) v.common ≤
        weight (fun _ => true) v.common := weight_mono hnonneg fun _ _ _ => rfl
    simpa only [weight, if_true] using hall
  rw [← List.length_map (·.2)] at hfew
  have hothers := (uncommonFrequency_mem log2 distinct hproper.nulls hnumbers htotal
    (Nat.cast_nonneg _) hfew).2
  calc (constants.map fun c =>
        constantFrequency v stats.nullFraction distinct (op.holds · c)).sum
      ≤ (constants.map fun c => weight (op.holds · c) v.common + if v.lists op c then 0
          else uncommonFrequency stats.nullFraction distinct (v.common.map (·.2))).sum :=
        List.sum_le_sum fun c _ => constantFrequency_le log2 hnonneg
    _ = weight (fun value => constants.any (op.holds value)) v.common +
          (constants.countP fun c => !v.lists op c) *
            uncommonFrequency stats.nullFraction distinct (v.common.map (·.2)) := by
        rw [List.sum_map_add, sum_weight_eq op.holds hapart, sum_unlisted]
    _ ≤ (v.common.map (·.2)).sum + (1 - (v.common.map (·.2)).sum - stats.nullFraction) :=
        add_le_add hlisted hothers
    _ = 1 - stats.nullFraction := by ring

end Estimates

end Rationals

/-- **Different constants share the rows that are not null.**  In exact
numbers, for a column with proper statistics, one frequency for each of its
common values and no two of these equal, the estimates that the column equals
one of several constants add up to at most the fraction of rows that are not
null, if the constants differ and those that are not listed are no more than
the distinct values behind the common ones, or a single one.  A constant that
equals a listed value has exactly its frequency. -/
theorem equalities_share_rows (log2 : Rat → Rat) {p : Planner Rat} {opno : Oid}
    {op : Operator Rat} {a : Expr Rat} {var : Option RtIndex}
    (hop : p.operators.get? opno = some op)
    (hv : @Variable.examine Rat (Number.rational log2) p a var = .ok v)
    (hrelation : v.relation.isSome = true) (hstats : v.statistics = some stats)
    (hproper : stats.Proper) (hone : stats.commonValues.length = stats.commonNumbers.length)
    (hequality : @Procedure.EqualityOn Rat (Number.rational log2) op.procedure
      (stats.commonValues ++ constants))
    (hcommon : @Procedure.Distinct Rat (Number.rational log2) op.procedure stats.commonValues)
    (hconstants : @Procedure.Distinct Rat (Number.rational log2) op.procedure constants)
    (hfew : letI := Number.rational log2
      ((constants.countP fun c => !v.lists op.procedure c : Nat) : Rat) ≤
        max 1 (v.distinctCount p - v.common.length)) :
    letI := Number.rational log2
    ∃ frequency : Datum Rat → Rat,
      (∀ c ∈ constants, ∀ onLeft type,
        equality p opno (operands onLeft a c type) var = .ok (frequency c)) ∧
      (constants.map frequency).sum ≤ 1 - stats.nullFraction ∧
      ∀ c ∈ constants, ∀ x ∈ v.common, op.procedure.holds x.1 c = true → frequency c = x.2 := by
  let _ := Number.rational log2
  refine ⟨fun c => constantFrequency v stats.nullFraction (v.distinctCount p)
    (op.procedure.holds · c), ?_, ?_, ?_⟩
  · intro c hc onLeft type
    have hc' : c ∈ stats.commonValues ++ constants := List.mem_append_right _ hc
    have happlied : ∀ x ∈ v.common,
        applied op.procedure onLeft x.1 c = op.procedure.holds x.1 c := by
      intro x hx
      have hx' := List.mem_append_left constants (mem_commonValues hstats hone hx)
      cases onLeft with
      | true => rfl
      | false => exact hequality.comm hc' hx'
    have hfrequency : constantFrequency v stats.nullFraction (v.distinctCount p)
        (applied op.procedure onLeft · c) = constantFrequency v stats.nullFraction
          (v.distinctCount p) (op.procedure.holds · c) := constantFrequency_congr happlied
    obtain ⟨hnonneg, hle⟩ := constantFrequency_mem log2 hstats hproper (v.distinctCount p)
      (op.procedure.holds · c)
    rw [equality_operands hop hv hrelation hstats hone, hfrequency,
      clampProbability_of_mem log2 hnonneg hle]
  · exact sum_constantFrequency_le log2 hstats hproper hone hequality
      (List.subset_append_left _ _) (List.subset_append_right _ _) hconstants hfew
  · intro c hc x hx hholds
    exact constantFrequency_of_mem hstats hone hequality (List.subset_append_left _ _)
      (List.mem_append_right _ hc) hcommon hx hholds

section Example

/-- One age that is common, and two that are not. -/
def someAges : List (Datum Rat) := [.int4 30, .int4 50, .int4 60]

def sameAge : Operator Rat := OperatorCatalog.comparison 1012 .int4 .equal

theorem sameAge_mem :
    sameAge ∈ (OperatorCatalog.builtin Regex.engine : OperatorCatalog Rat).operators :=
  (OperatorCatalog.mem_of_get?
    (rfl : (OperatorCatalog.builtin Regex.engine).get? 1012 = some sameAge)).1

/-- `age = 30`, `age = 50` and `age = 60` -/
theorem equalities_share_rows_someAges :
    letI := Number.rational id
    ages.Proper ∧ sameAge.procedure.EqualityOn (ages.commonValues ++ someAges) ∧
      sameAge.procedure.Distinct someAges ∧
      ∃ frequency : Datum Rat → Rat, frequency (.int4 30) = 1 / 5 ∧
        (∀ c ∈ someAges, equality (peopleWith ages 100) 1012 [age, .const .int4 (some c)] none =
          .ok (frequency c)) ∧
        (someAges.map frequency).sum ≤ 1 - 1 / 10 := by
  let _ := Number.rational id
  have hequality : sameAge.procedure.EqualityOn (ages.commonValues ++ someAges) :=
    ⟨by decide +kernel, by decide +kernel⟩
  have hdistinct : sameAge.procedure.Distinct someAges := by decide +kernel
  obtain ⟨frequency, hestimate, hsum, hlisted⟩ := equalities_share_rows id
    (rfl : (peopleWith ages 100).operators.get? 1012 = some sameAge)
    (examine_firstColumn ages 100 .int4) rfl rfl ages_proper rfl
    hequality (by decide +kernel) hdistinct (by decide +kernel)
  refine ⟨ages_proper, hequality, hdistinct, frequency, ?_, ?_, hsum⟩
  · exact hlisted (.int4 30) (by decide) (.int4 30, 1 / 5) (by decide +kernel) rfl
  · intro c hc
    exact hestimate c hc true .int4

end Example

end Selectivity

end QueryPlanner
