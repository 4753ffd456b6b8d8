/-
  QueryPlanner.Proofs.Selectivity.DistinctCount

  How few distinct values a variable is taken to have.

  The number comes from a share of the rows, which is rounded and kept at 1 or
  more, or from a count, which is not: a count on record is passed on as it is,
  and so is a number of rows below the default.
-/

import QueryPlanner.Proofs.Selectivity.Join

namespace QueryPlanner

namespace Variable

variable {p : Planner Rat} {v : Variable Rat}

/-- The rows of the variable's relation, if there are any. -/
def rows? (v : Variable Rat) : Option Rat :=
  v.relation.bind fun r => if 0 < r.tuples then some r.tuples else none

theorem rows?_eq_some_iff {rows : Rat} :
    v.rows? = some rows ↔ ∃ r, v.relation = some r ∧ r.tuples = rows ∧ 0 < rows := by
  rw [rows?, Option.bind_eq_some_iff]
  refine exists_congr fun r => and_congr_right fun _ => ?_
  split_ifs with hpos
  · rw [Option.some.injEq]
    exact ⟨fun h => ⟨h, h ▸ hpos⟩, fun h => h.1⟩
  · exact ⟨nofun, fun h => absurd (h.1 ▸ h.2) hpos⟩

section Readings

variable (log2 : Rat → Rat)

/-- The count on record, or the negated share of the rows; what is unique is
the whole share. -/
def countOrShare (v : Variable Rat) : Rat :=
  letI := Number.rational log2
  if v.provenUnique then -1 else v.recordedDistinct

theorem distinctCount_eq :
    @distinctCount Rat (Number.rational log2) p v =
      if 0 < v.countOrShare log2 then v.countOrShare log2
      else
        match v.rows? with
        | none => p.settings.selectivity.distinct
        | some rows =>
          if v.countOrShare log2 < 0 then
            max ((-v.countOrShare log2 * rows + 1 / 2).floor : Rat) 1
          else min rows p.settings.selectivity.distinct := by
  let _ := Number.rational log2
  have hshare : (if !Number.equal v.recordedDistinct (-1) && v.provenUnique then -1
      else v.recordedDistinct) = v.countOrShare log2 := by
    rw [countOrShare]
    cases v.provenUnique with
    | false => rw [Bool.and_false]
    | true =>
        rw [Bool.and_true]
        cases hequal : Number.equal v.recordedDistinct (-1) with
        | false => rfl
        | true =>
            obtain ⟨hle, hge⟩ := Number.equal_iff.mp hequal
            exact le_antisymm hle hge
  rw [distinctCount, hshare]
  refine if_congr Iff.rfl rfl ?_
  rw [rows?]
  cases v.relation with
  | none => rfl
  | some r =>
      rw [Option.bind_some]
      dsimp only
      by_cases hrows : 0 < r.tuples
      · rw [if_pos hrows, if_pos hrows]
        refine if_congr Iff.rfl ?_ (min_def_lt ..).symm
        rw [Number.max_rational, Selectivity.half_rational]
        rfl
      · rw [if_neg hrows, if_neg hrows]

/-- A count is passed on. -/
theorem distinctCount_of_count (h : 0 < v.countOrShare log2) :
    @distinctCount Rat (Number.rational log2) p v = v.countOrShare log2 := by
  rw [distinctCount_eq, if_pos h]

/-- A share of the rows is kept at 1 or more. -/
theorem one_le_distinctCount_of_share (hdefault : 1 ≤ p.settings.selectivity.distinct)
    (h : v.countOrShare log2 < 0) : 1 ≤ @distinctCount Rat (Number.rational log2) p v := by
  rw [distinctCount_eq, if_neg h.not_gt]
  cases v.rows? with
  | none => exact hdefault
  | some rows => exact (le_max_right _ _).trans_eq (if_pos h).symm

/-- Where nothing is on record there are as many values as rows, up to the
default. -/
theorem distinctCount_of_unknown (h : v.countOrShare log2 = 0) :
    @distinctCount Rat (Number.rational log2) p v =
      match v.rows? with
      | none => p.settings.selectivity.distinct
      | some rows => min rows p.settings.selectivity.distinct := by
  rw [distinctCount_eq, h, if_neg (lt_irrefl 0)]
  cases v.rows? with
  | none => rfl
  | some rows => exact if_neg (lt_irrefl 0)

/-- Without statistics the number of distinct values is known of few columns. -/
theorem recordedDistinct_of_no_statistics (hstats : v.statistics = none) :
    @recordedDistinct Rat (Number.rational log2) v ≤ 0 ∨
      1 ≤ @recordedDistinct Rat (Number.rational log2) v := by
  let _ := Number.rational log2
  rw [recordedDistinct, hstats]
  dsimp only
  split_ifs
  · exact .inr one_le_two
  · split
    · split_ifs
      · exact .inl (neg_nonpos.mpr zero_le_one)
      · exact .inr (le_refl (1 : Rat))
      · exact .inl (le_refl (0 : Rat))
    · exact .inl (le_refl (0 : Rat))

/-- Only statistics record a positive count below 1. -/
theorem recordedDistinct_lt_one_iff :
    letI := Number.rational log2
    (0 < v.recordedDistinct ∧ v.recordedDistinct < 1) ↔
      ∃ stats, v.statistics = some stats ∧ 0 < stats.distinct ∧ stats.distinct < 1 := by
  let _ := Number.rational log2
  cases hstats : v.statistics with
  | some stats =>
      rw [recordedDistinct, hstats]
      simp only [Option.some.injEq, exists_eq_left']
  | none =>
      have hrecorded := recordedDistinct_of_no_statistics log2 hstats
      refine ⟨fun ⟨hpos, hlt⟩ => ?_, nofun⟩
      rcases hrecorded with hle | hge
      · exact absurd hpos hle.not_gt
      · exact absurd hlt hge.not_gt

/-- A variable has less than one value exactly if its statistics count less than
one, or if it has less than one row and nothing is on record; a unique index
rules out both. -/
theorem distinctCount_lt_one_iff (log2 : Rat → Rat) (p : Planner Rat) (v : Variable Rat)
    (hdefault : 1 ≤ p.settings.selectivity.distinct) :
    letI := Number.rational log2
    0 < distinctCount p v ∧
    (distinctCount p v < 1 ↔ v.provenUnique = false ∧
      ((∃ stats, v.statistics = some stats ∧ 0 < stats.distinct ∧ stats.distinct < 1) ∨
        v.recordedDistinct = 0 ∧ ∃ r, v.relation = some r ∧ 0 < r.tuples ∧ r.tuples < 1)) := by
  let _ := Number.rational log2
  rw [← recordedDistinct_lt_one_iff log2]
  cases hunique : v.provenUnique with
  | true =>
      have hshare : v.countOrShare log2 = -1 := if_pos hunique
      have hone := one_le_distinctCount_of_share log2 hdefault (hshare.trans_lt neg_one_lt_zero)
      exact ⟨zero_lt_one.trans_le hone, fun hlt => absurd hone hlt.not_ge, nofun⟩
  | false =>
      have hshare : v.countOrShare log2 = v.recordedDistinct := by
        rw [countOrShare, hunique]
        rfl
      rcases lt_trichotomy v.recordedDistinct 0 with hneg | hzero | hpos
      · have hone := one_le_distinctCount_of_share log2 hdefault (hshare.trans_lt hneg)
        refine ⟨zero_lt_one.trans_le hone, fun hlt => absurd hone hlt.not_ge, fun h => ?_⟩
        rcases h.2 with hcount | hrows
        · exact absurd hcount.1 hneg.not_gt
        · exact absurd hrows.1 hneg.ne
      · rw [distinctCount_of_unknown log2 (hshare.trans hzero)]
        have hcount : ¬ (0 < v.recordedDistinct ∧ v.recordedDistinct < 1) :=
          fun h => h.1.ne' hzero
        cases hrows : v.rows? with
        | none =>
            refine ⟨zero_lt_one.trans_le hdefault, fun hlt => absurd hdefault hlt.not_ge, ?_⟩
            rintro ⟨-, h | ⟨-, r, hr, htuples, -⟩⟩
            · exact absurd h hcount
            · rw [rows?_eq_some_iff.mpr ⟨r, hr, rfl, htuples⟩] at hrows
              cases hrows
        | some rows =>
            obtain ⟨r, hr, rfl, htuples⟩ := rows?_eq_some_iff.mp hrows
            refine ⟨lt_min htuples (zero_lt_one.trans_le hdefault), fun hlt => ?_, ?_⟩
            · have hfew : r.tuples < 1 := (min_lt_iff.mp hlt).resolve_right hdefault.not_gt
              exact ⟨rfl, .inr ⟨hzero, r, hr, htuples, hfew⟩⟩
            · rintro ⟨-, h | ⟨-, r', hr', -, hfew⟩⟩
              · exact absurd h hcount
              · obtain rfl := Option.some.inj (hr.symm.trans hr')
                exact min_lt_of_left_lt hfew
      · rw [distinctCount_of_count log2 (hpos.trans_eq hshare.symm), hshare]
        refine ⟨hpos, fun hlt => ⟨rfl, .inl ⟨hpos, hlt⟩⟩, fun h => ?_⟩
        rcases h.2 with hcount | hrows
        · exact hcount.2
        · exact absurd hrows.1 hpos.ne'

end Readings

end Variable

namespace Selectivity

section Example

/-- `$1.1`, of which 8 values are on record -/
theorem distinctCount_lt_one_iff_members :
    letI := Number.rational id
    1 ≤ (twoTables members guests).settings.selectivity.distinct ∧
      1 ≤ (columnOf 1).distinctCount (twoTables members guests) := by
  let _ := Number.rational id
  have hdefault : 1 ≤ (twoTables members guests).settings.selectivity.distinct := by
    decide +kernel
  obtain ⟨-, hfew⟩ := Variable.distinctCount_lt_one_iff id (twoTables members guests) (columnOf 1)
    hdefault
  refine ⟨hdefault, not_lt.mp fun hlt => ?_⟩
  rcases (hfew.mp hlt).2 with ⟨stats, hstats, -, hlt⟩ | ⟨hzero, -⟩
  · obtain rfl : members = stats := Option.some.inj hstats
    revert hlt
    decide +kernel
  · revert hzero
    decide +kernel

/-- Statistics that count half a value. -/
def halfValue : ColumnStatistics Rat := commonAges 0 (1 / 2) [] []

/-- A count below 1 is passed on. -/
theorem distinctCount_of_halfValue :
    letI := Number.rational id
    ∃ v : Variable Rat,
      Variable.examine (twoTables halfValue guests) (.var ⟨1, 1, .int4, -1⟩) none = .ok v ∧
      1 ≤ (twoTables halfValue guests).settings.selectivity.distinct ∧
      v.distinctCount (twoTables halfValue guests) = 1 / 2 := by
  let _ := Number.rational id
  have hconcerns : Variable.concerns none (1 : RtIndex) = true := rfl
  exact ⟨_, Variable.examine_column (p := twoTables halfValue guests) (v := ⟨1, 1, .int4, -1⟩)
    hconcerns rfl rfl, by decide +kernel, by decide +kernel⟩

end Example

end Selectivity

end QueryPlanner
