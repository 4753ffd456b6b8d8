/-
  QueryPlanner.Proofs.Selectivity.Test

  Boolean tests and their opposites.

  A test and its opposite share out all rows, those with a null included:
  `a IS NOT TRUE` keeps what `a IS TRUE` leaves.  In exact numbers their
  estimates add up to 1 where the frequency of `true` is on record and where
  nothing is, for then one of the two is 1 less the other.  With a null fraction
  on record but no common value, both are half of the values that are present:
  they leave out the nulls, and add up to 1 only if there are none.
-/

import QueryPlanner.Proofs.Selectivity.Range

namespace QueryPlanner

open PlanM

namespace BoolTest

/-- The test that keeps the other rows. -/
def opposite : BoolTest → BoolTest
  | .isTrue => .isNotTrue
  | .isNotTrue => .isTrue
  | .isFalse => .isNotFalse
  | .isNotFalse => .isFalse
  | .isUnknown => .isNotUnknown
  | .isNotUnknown => .isUnknown

/-- A test for a truth value, and not for its absence. -/
def isOfValue : BoolTest → Bool
  | .isUnknown | .isNotUnknown => false
  | _ => true

@[simp] theorem isOfValue_opposite (t : BoolTest) : t.opposite.isOfValue = t.isOfValue := by
  cases t <;> rfl

end BoolTest

namespace Selectivity

variable {p : Planner Rat} {a : Expr Rat} {var : Option RtIndex} {type : JoinType}
  {v : Variable Rat} {stats : ColumnStatistics Rat} {test : BoolTest} {f nulls : Rat}
  {trues : Option Rat}

/-! ## Frequencies -/

/-- The frequency of `true` is told by the first common value. -/
theorem trueFrequency?_eq {α : Type} [Number α] (v : Variable α) (nulls : α) :
    trueFrequency? nulls (v.slot? .mcv none) = v.common.head?.map fun x =>
      if x.1 = .bool true then x.2 else 1 - x.2 - nulls := by
  rw [Variable.common]
  cases v.slot? .mcv none with
  | none => rfl
  | some view =>
      obtain ⟨values, numbers⟩ := view
      rcases values with _ | ⟨value, values⟩
      · rfl
      · rcases numbers with _ | ⟨number, numbers⟩
        · rfl
        · show _ = some (if value = .bool true then number else 1 - number - nulls)
          by_cases htrue : value = .bool true
          · rw [htrue, if_pos rfl, trueFrequency?]
          · rw [if_neg htrue, trueFrequency?]
            exact htrue

section Rationals

variable (log2 : Rat → Rat)

/-- Moved into `[0, 1]`, two parts of a whole are still what is left of each
other. -/
theorem clampProbability_one_sub (x : Rat) :
    letI := Number.rational log2
    clampProbability (1 - x) = 1 - clampProbability x := by
  let _ := Number.rational log2
  rw [clampProbability_rational, clampProbability_rational]
  rcases lt_or_ge x 0 with hlow | hlow
  · rw [if_neg (by linarith), if_pos (by linarith), if_pos hlow]
    exact (sub_zero 1).symm
  · rcases lt_or_ge 1 x with hhigh | hhigh
    · rw [if_pos (by linarith), if_neg hlow.not_gt, if_pos hhigh]
      exact (sub_self 1).symm
    · rw [if_neg (by linarith), if_neg (by linarith), if_neg hlow.not_gt, if_neg hhigh.not_gt]

/-- Where the frequency of `true` is known, a test has what its opposite
leaves. -/
theorem testFrequency_opposite (h : test.isOfValue = true → trues.isSome = true) :
    letI := Number.rational log2
    testFrequency nulls trues test.opposite = 1 - testFrequency nulls trues test := by
  let _ := Number.rational log2
  cases test with
  | isUnknown => rfl
  | isNotUnknown => exact (sub_sub_cancel 1 nulls).symm
  | isTrue | isFalse =>
      obtain ⟨t, rfl⟩ := Option.isSome_iff_exists.mp (h rfl)
      rfl
  | isNotTrue | isNotFalse =>
      obtain ⟨t, rfl⟩ := Option.isSome_iff_exists.mp (h rfl)
      exact (sub_sub_cancel 1 _).symm

/-- Half of the values that are present, twice, is all rows only if none is
null. -/
theorem clampProbability_half_add (nulls : Rat) :
    letI := Number.rational log2
    clampProbability ((1 - nulls) / 2) + clampProbability ((1 - nulls) / 2) = 1 ↔ nulls = 0 := by
  let _ := Number.rational log2
  rw [clampProbability_rational]
  split_ifs with hlow hhigh
  · exact iff_of_false (by norm_num) (by linarith)
  · exact iff_of_false (by norm_num) (by linarith)
  · constructor
    · intro h
      linarith
    · rintro rfl
      norm_num

/-! ## Tests -/

theorem clause_boolTest_of_statistics
    (hv : @Variable.examine Rat (Number.rational log2) p a var = .ok v)
    (hstats : v.statistics = some stats) (test : BoolTest) :
    letI := Number.rational log2
    clause p var type (.boolTest test a) = .ok (clampProbability (testFrequency stats.nullFraction
      (trueFrequency? stats.nullFraction (v.slot? .mcv none)) test)) := by
  let _ := Number.rational log2
  rw [clause]
  refine except_bind_eq_ok.mpr ⟨v, hv, ?_⟩
  rw [hstats]
  rfl

/-- Where the frequency of `true` is on record, or nothing is, a test keeps
what its opposite leaves. -/
theorem clause_boolTest_opposite
    (hunknown : p.settings.selectivity.unknown + p.settings.selectivity.notUnknown = 1)
    (hv : @Variable.examine Rat (Number.rational log2) p a var = .ok v)
    (htold : test.isOfValue = true → v.statistics.isSome = true → v.common ≠ [])
    (h : @clause Rat (Number.rational log2) p var type (.boolTest test a) = .ok f) :
    letI := Number.rational log2
    clause p var type (.boolTest test.opposite a) = .ok (1 - f) := by
  let _ := Number.rational log2
  cases hstats : v.statistics with
  | some stats =>
      rw [clause_boolTest_of_statistics log2 hv hstats] at h ⊢
      -- A common value that is read tells the frequency of `true`.
      have hknown : test.isOfValue = true →
          (trueFrequency? stats.nullFraction (v.slot? .mcv none)).isSome = true := by
        intro hvalue
        rw [trueFrequency?_eq, Option.isSome_map, List.isSome_head?]
        exact htold hvalue (hstats ▸ rfl)
      rw [testFrequency_opposite log2 hknown, clampProbability_one_sub, ← Except.ok.inj h]
  | none =>
      have hnotUnknown : p.settings.selectivity.notUnknown =
          1 - p.settings.selectivity.unknown := by linarith
      -- The argument counts as a clause, estimated alike for both tests.
      rw [clause] at h ⊢
      obtain ⟨v', hv', h⟩ := except_bind_eq_ok.mp h
      cases hv.symm.trans hv'
      refine except_bind_eq_ok.mpr ⟨v, hv, ?_⟩
      rw [hstats] at h ⊢
      cases test with
      | isUnknown =>
          cases h
          show Except.ok (clampProbability _) = _
          rw [hnotUnknown, clampProbability_one_sub]
      | isNotUnknown =>
          cases h
          show Except.ok (clampProbability _) = _
          rw [hnotUnknown, clampProbability_one_sub, sub_sub_cancel]
      | isTrue | isNotFalse =>
          obtain ⟨plain, hplain, h⟩ := except_bind_eq_ok.mp h
          cases h
          refine except_bind_eq_ok.mpr ⟨plain, hplain, ?_⟩
          rw [clampProbability_one_sub]
          rfl
      | isNotTrue | isFalse =>
          obtain ⟨plain, hplain, h⟩ := except_bind_eq_ok.mp h
          cases h
          refine except_bind_eq_ok.mpr ⟨plain, hplain, ?_⟩
          rw [clampProbability_one_sub, sub_sub_cancel]
          rfl

/-- With no common value a test for a truth value keeps half of the values
that are present, whichever test it is. -/
theorem clause_boolTest_of_no_common
    (hv : @Variable.examine Rat (Number.rational log2) p a var = .ok v)
    (hstats : v.statistics = some stats) (hcommon : v.common = [])
    (hvalue : test.isOfValue = true) :
    letI := Number.rational log2
    clause p var type (.boolTest test a) =
      .ok (clampProbability ((1 - stats.nullFraction) / 2)) := by
  let _ := Number.rational log2
  rw [clause_boolTest_of_statistics log2 hv hstats, trueFrequency?_eq, hcommon, List.head?_nil,
    Option.map_none]
  cases test with
  | isUnknown | isNotUnknown => cases hvalue
  | isTrue | isNotTrue | isFalse | isNotFalse => rfl

/-- Three tests share out all rows, if what is known of the argument are
frequencies. -/
theorem boolTests_sum_of_statistics
    (hv : @Variable.examine Rat (Number.rational log2) p a var = .ok v)
    (hstats : v.statistics = some stats) (hnulls : 0 ≤ stats.nullFraction)
    (hpresent : stats.nullFraction ≤ 1)
    (hcommon : ∀ x, v.common.head? = some x → 0 ≤ x.2 ∧ x.2 + stats.nullFraction ≤ 1) :
    letI := Number.rational log2
    ∃ t f u, clause p var type (.boolTest .isTrue a) = .ok t ∧
      clause p var type (.boolTest .isFalse a) = .ok f ∧
      clause p var type (.boolTest .isUnknown a) = .ok u ∧ t + f + u = 1 := by
  let _ := Number.rational log2
  have hrun (test : BoolTest) : clause p var type (.boolTest test a) = _ :=
    clause_boolTest_of_statistics log2 hv hstats test
  refine ⟨_, _, _, hrun .isTrue, hrun .isFalse, hrun .isUnknown, ?_⟩
  rw [trueFrequency?_eq]
  cases hhead : v.common.head? with
  | none =>
      show clampProbability ((1 - stats.nullFraction) / 2) +
        clampProbability ((1 - stats.nullFraction) / 2) + clampProbability stats.nullFraction = 1
      rw [clampProbability_of_mem log2 hnulls hpresent,
        clampProbability_of_mem log2 (by linarith) (by linarith)]
      ring
  | some x =>
      obtain ⟨hfrequency, htotal⟩ := hcommon x hhead
      rw [Option.map_some]
      generalize htrue : (if x.1 = .bool true then x.2 else 1 - x.2 - stats.nullFraction) = t
      have ht : 0 ≤ t ∧ t + stats.nullFraction ≤ 1 := by
        rw [← htrue]
        split
        · exact ⟨hfrequency, htotal⟩
        · constructor <;> linarith
      show clampProbability t + clampProbability (1 - t - stats.nullFraction) +
        clampProbability stats.nullFraction = 1
      rw [clampProbability_of_mem log2 ht.1 (by linarith),
        clampProbability_of_mem log2 (by linarith) (by linarith),
        clampProbability_of_mem log2 hnulls hpresent]
      ring

end Rationals

/-- **Boolean tests share out the rows.**  In exact numbers, and with defaults
for unknown that are each other's rest, the estimate of a test and that of its
opposite add up to 1, except for the tests for a truth value of an argument
with a null fraction on record and no common value, where they do only if
nothing is null.  With proper statistics `IS TRUE`, `IS FALSE` and
`IS UNKNOWN` add up to 1. -/
theorem boolTests_share_rows (log2 : Rat → Rat)
    (hunknown : p.settings.selectivity.unknown + p.settings.selectivity.notUnknown = 1)
    (hv : @Variable.examine Rat (Number.rational log2) p a var = .ok v) :
    letI := Number.rational log2
    (∀ test f, clause p var type (.boolTest test a) = .ok f →
      ∃ g, clause p var type (.boolTest test.opposite a) = .ok g ∧
        (f + g = 1 ↔ (test.isOfValue = true → ∀ stats, v.statistics = some stats →
          v.common = [] → stats.nullFraction = 0))) ∧
      ∀ stats, v.statistics = some stats → 0 ≤ stats.nullFraction → stats.nullFraction ≤ 1 →
        (∀ x, v.common.head? = some x → 0 ≤ x.2 ∧ x.2 + stats.nullFraction ≤ 1) →
        ∃ t f u, clause p var type (.boolTest .isTrue a) = .ok t ∧
          clause p var type (.boolTest .isFalse a) = .ok f ∧
          clause p var type (.boolTest .isUnknown a) = .ok u ∧ t + f + u = 1 := by
  let _ := Number.rational log2
  refine ⟨?_, fun stats hstats => boolTests_sum_of_statistics log2 hv hstats⟩
  intro test f hf
  by_cases htold : test.isOfValue = true → v.statistics.isSome = true → v.common ≠ []
  · refine ⟨1 - f, clause_boolTest_opposite log2 hunknown hv htold hf, ?_⟩
    refine iff_of_true (add_sub_cancel f 1) ?_
    intro hvalue stats hstats hcommon
    exact absurd hcommon (htold hvalue (hstats ▸ rfl))
  · push Not at htold
    obtain ⟨hvalue, hsome, hcommon⟩ := htold
    obtain ⟨stats, hstats⟩ := Option.isSome_iff_exists.mp hsome
    have hhalf (t : BoolTest) (ht : t.isOfValue = true) : clause p var type (.boolTest t a) = _ :=
      clause_boolTest_of_no_common log2 hv hstats hcommon ht
    rw [hhalf test hvalue] at hf
    refine ⟨_, hhalf test.opposite (by simp [hvalue]), ?_⟩
    rw [← Except.ok.inj hf, clampProbability_half_add]
    constructor
    · intro hnulls _ stats' hstats' _
      cases hstats.symm.trans hstats'
      exact hnulls
    · intro h
      exact h hvalue stats hstats hcommon

section Example

/-- A fifth of the flags is unknown, and half of them are `false`. -/
def flags (common : List (StatisticsSlot Rat)) : ColumnStatistics Rat where
  nullFraction := 1 / 5
  averageWidth := 1
  distinct := 2
  slots := common

/-- The common value of the flags. -/
def mostlyFalse : List (StatisticsSlot Rat) := [⟨.mcv, 0, [.bool false], [1 / 2]⟩]

/-- A table whose columns hold flags. -/
def flagged (common : List (StatisticsSlot Rat)) : Planner Rat := peopleWith (flags common) 100

/-- The column `$1.1`. -/
def flag : Expr Rat := .var ⟨1, 1, .bool, -1⟩

def flagColumn (common : List (StatisticsSlot Rat)) : Variable Rat :=
  firstColumn (flags common) 100 .bool

theorem examine_flag (common : List (StatisticsSlot Rat)) :
    letI := Number.rational id
    Variable.examine (flagged common) flag none = .ok (flagColumn common) :=
  examine_firstColumn (flags common) 100 .bool

theorem defaults_complementary (common : List (StatisticsSlot Rat)) :
    (flagged common).settings.selectivity.unknown +
      (flagged common).settings.selectivity.notUnknown = 1 := by
  show people.settings.selectivity.unknown + people.settings.selectivity.notUnknown = 1
  decide +kernel

/-- Half of the flags are `false` and a fifth is unknown, which leaves three
tenths that are `true`. -/
theorem boolTests_share_rows_mostlyFalse :
    letI := Number.rational id
    (flagged mostlyFalse).settings.selectivity.unknown +
        (flagged mostlyFalse).settings.selectivity.notUnknown = 1 ∧
      Variable.examine (flagged mostlyFalse) flag none = .ok (flagColumn mostlyFalse) ∧
      ∃ t n f u, clause (flagged mostlyFalse) none .inner (.boolTest .isTrue flag) = .ok t ∧
        clause (flagged mostlyFalse) none .inner (.boolTest .isNotTrue flag) = .ok n ∧
        clause (flagged mostlyFalse) none .inner (.boolTest .isFalse flag) = .ok f ∧
        clause (flagged mostlyFalse) none .inner (.boolTest .isUnknown flag) = .ok u ∧
        t + n = 1 ∧ t + f + u = 1 := by
  let _ := Number.rational id
  have hunknown := defaults_complementary mostlyFalse
  have hflag := examine_flag mostlyFalse
  obtain ⟨hopposite, htotal⟩ := boolTests_share_rows id hunknown hflag
  obtain ⟨t, f, u, ht, hf, hu, hsum⟩ := htotal (flags mostlyFalse) rfl (by decide +kernel)
    (by decide +kernel) (by
      intro x hx
      cases hx
      decide +kernel)
  obtain ⟨n, hn, hpair⟩ := hopposite .isTrue t ht
  have hcommon : (flagColumn mostlyFalse).common ≠ [] := List.cons_ne_nil _ _
  refine ⟨hunknown, hflag, t, n, f, u, ht, hn, hf, hu, ?_, hsum⟩
  exact hpair.mpr fun _ _ _ hempty => absurd hempty hcommon

/-- Without a common value `flag IS TRUE` and `flag IS NOT TRUE` keep two
fifths each. -/
theorem boolTests_miss_nulls :
    letI := Number.rational id
    (flagged []).settings.selectivity.unknown + (flagged []).settings.selectivity.notUnknown = 1 ∧
      Variable.examine (flagged []) flag none = .ok (flagColumn []) ∧
      clause (flagged []) none .inner (.boolTest .isTrue flag) = .ok (2 / 5) ∧
      clause (flagged []) none .inner (.boolTest .isNotTrue flag) = .ok (2 / 5) ∧
      ((2 / 5 : Rat) + 2 / 5 ≠ 1) := by
  let _ := Number.rational id
  have hclamp : clampProbability ((1 - 1 / 5 : Rat) / 2) = 2 / 5 := by decide +kernel
  have hhalf (t : BoolTest) (ht : t.isOfValue = true) :
      clause (flagged []) none .inner (.boolTest t flag) = .ok (2 / 5) := by
    rw [clause_boolTest_of_no_common id (examine_flag []) rfl rfl ht, ← hclamp]
    rfl
  exact ⟨defaults_complementary [], examine_flag [], hhalf .isTrue rfl, hhalf .isNotTrue rfl,
    by norm_num⟩

end Example

end Selectivity

end QueryPlanner
