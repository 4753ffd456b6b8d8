/-
  QueryPlanner.Proofs.Statistics.Maximum

  The greatest value on record.

  It is looked for at the end of the histogram, and then among the most common
  values.  The end is the last bound if the bounds ascend, and the first one if
  they were stored with the commutator and descend.  A slot is cut to the
  limit before anything is read of it, which takes the greatest bounds off an
  ascending histogram and the least ones off a descending one: so what is found
  is the greatest of the common values and ascending bounds that are read, and
  of all descending bounds.
-/

import QueryPlanner.Proofs.Selectivity.Range

namespace QueryPlanner

open PlanM

variable {α : Type} [Number α]

/-! ## Greatest values -/

namespace Procedure

/-- The operator is a strict order of values. -/
structure StrictOn (op : Procedure α) (values : List (Datum α)) : Prop where
  irrefl : ∀ a ∈ values, op.holds a a = false
  trans : ∀ a ∈ values, ∀ b ∈ values, ∀ c ∈ values,
    op.holds a b = true → op.holds b c = true → op.holds a c = true

/-- No value sorts below an earlier one. -/
def Sorts (op : Procedure α) (values : List (Datum α)) : Prop :=
  values.Pairwise fun a b => op.holds b a = false

instance (op : Procedure α) (values : List (Datum α)) : Decidable (op.Sorts values) :=
  inferInstanceAs (Decidable (values.Pairwise fun a b => op.holds b a = false))

/-- One of the values, and none of them is greater. -/
structure Greatest (op : Procedure α) (values : List (Datum α)) (m : Datum α) : Prop where
  mem : m ∈ values
  top : ∀ x ∈ values, op.holds m x = false

/-- What is kept of values that were looked through: the greatest one, or
nothing if there are none. -/
def TopOf (op : Procedure α) (values : List (Datum α)) : Option (Datum α) → Prop
  | some m => op.Greatest values m
  | none => values = []

variable {op : Procedure α} {seen values : List (Datum α)} {v : Datum α}
  {best : Option (Datum α)}

theorem StrictOn.mono (h : op.StrictOn values) (hsub : seen ⊆ values) : op.StrictOn seen where
  irrefl a ha := h.irrefl a (hsub ha)
  trans a ha b hb c hc := h.trans a (hsub ha) b (hsub hb) c (hsub hc)

/-- One more value is looked at. -/
theorem topOf_raise (hstrict : op.StrictOn (seen ++ [v])) (hbest : op.TopOf seen best) :
    op.TopOf (seen ++ [v]) (Variable.raise op best v) := by
  have hv : v ∈ seen ++ [v] := List.mem_append_right seen List.mem_cons_self
  cases best with
  | none =>
      have hseen : seen = [] := hbest
      subst hseen
      refine ⟨hv, ?_⟩
      intro x hx
      rw [List.mem_singleton.mp hx]
      exact hstrict.irrefl v hv
  | some b =>
      obtain ⟨hmem, htop⟩ := hbest
      have hb : b ∈ seen ++ [v] := List.mem_append_left [v] hmem
      show op.TopOf (seen ++ [v]) (if op.holds b v then some v else some b)
      by_cases hraise : op.holds b v = true
      · rw [if_pos hraise]
        refine ⟨hv, ?_⟩
        intro x hx
        rcases List.mem_append.mp hx with hseen | hlast
        · -- A value above `v` would be above `b` as well.
          by_contra habove
          have hbx := hstrict.trans b hb v hv x hx hraise (Bool.of_not_eq_false habove)
          rw [htop x hseen] at hbx
          cases hbx
        · rw [List.mem_singleton.mp hlast]
          exact hstrict.irrefl v hv
      · rw [if_neg hraise]
        refine ⟨hb, ?_⟩
        intro x hx
        rcases List.mem_append.mp hx with hseen | hlast
        · exact htop x hseen
        · rw [List.mem_singleton.mp hlast]
          exact Bool.of_not_eq_true hraise

/-- All values of a list are looked at. -/
theorem topOf_foldl_raise (hstrict : op.StrictOn (seen ++ values)) (hbest : op.TopOf seen best) :
    op.TopOf (seen ++ values) (values.foldl (Variable.raise op) best) := by
  -- Each value moves from the values to come to those that were seen.
  induction values generalizing seen best with
  | nil =>
      rw [List.append_nil]
      exact hbest
  | cons v rest ih =>
      have hmoved : seen ++ v :: rest = (seen ++ [v]) ++ rest := List.append_cons seen v rest
      rw [hmoved] at hstrict ⊢
      have hstep := hstrict.mono (List.subset_append_left (seen ++ [v]) rest)
      exact ih hstrict (topOf_raise hstep hbest)

/-- Sorted values end with the greatest one. -/
theorem topOf_getLast? (hstrict : op.StrictOn values) (hsorted : op.Sorts values) :
    op.TopOf values values.getLast? := by
  rcases List.eq_nil_or_concat values with rfl | ⟨front, m, rfl⟩
  · rfl
  · rw [List.concat_eq_append] at hstrict hsorted ⊢
    rw [List.getLast?_concat]
    have hm : m ∈ front ++ [m] := List.mem_append_right front List.mem_cons_self
    refine ⟨hm, ?_⟩
    intro x hx
    rcases List.mem_append.mp hx with hfront | hlast
    · exact (List.pairwise_append.mp hsorted).2.2 x hfront m List.mem_cons_self
    · rw [List.mem_singleton.mp hlast]
      exact hstrict.irrefl m hm

/-- Values sorted the other way start with the greatest one. -/
theorem topOf_head? (hstrict : op.StrictOn values)
    (hsorted : values.Pairwise fun a b => op.holds a b = false) :
    op.TopOf values values.head? := by
  cases values with
  | nil => rfl
  | cons m rest =>
      refine ⟨List.mem_cons_self, ?_⟩
      intro x hx
      rcases List.mem_cons.mp hx with rfl | hrest
      · exact hstrict.irrefl x List.mem_cons_self
      · exact (List.pairwise_cons.mp hsorted).1 x hrest

end Procedure

/-! ## Histograms -/

/-- The histogram that a sort operator finds in statistics: one that was built
with it and is in its order, or else one of its commutator, in the order of
this one. -/
inductive ColumnStatistics.Sorted (operators : OperatorCatalog α) (stats : ColumnStatistics α)
    (sort : Oid) (op : Operator α) (bounds : List (Datum α)) : Bool → Prop where
  | ascending {slot : StatisticsSlot α} (hslot : stats.slot? .histogram (some sort) = some slot)
      (hvalues : slot.values = bounds) (hsorted : op.procedure.Sorts bounds) :
      Sorted operators stats sort op bounds true
  | descending {slot : StatisticsSlot α} {other : Oid} {back : Operator α}
      (hnone : stats.slot? .histogram (some sort) = none)
      (hcommutator : op.commutator = some other) (hback : operators.get? other = some back)
      (hturned : ∀ a ∈ bounds, ∀ b ∈ bounds, back.procedure.holds a b = op.procedure.holds b a)
      (hslot : stats.slot? .histogram (some other) = some slot) (hvalues : slot.values = bounds)
      (hsorted : back.procedure.Sorts bounds) : Sorted operators stats sort op bounds false

namespace Variable

/-- The bounds that the end of a histogram is the greatest of, with only so
many of them read. -/
def boundsBefore (ascending : Bool) (limit : Nat) (bounds : List (Datum α)) : List (Datum α) :=
  if ascending then bounds.take limit else bounds

variable {p : Planner α} {v : Variable α} {stats : ColumnStatistics α} {sort : Oid}
  {op : Operator α} {bounds : List (Datum α)} {ascending : Bool}

/-- What the end of a histogram is taken to be. -/
def endOf (ascending : Bool) (bounds : List (Datum α)) : Option (Datum α) :=
  if ascending then bounds.getLast? else bounds.head?

theorem histogramEnd_of_sorted (hstats : v.statistics = some stats)
    (hop : p.operators.get? sort = some op)
    (hsorted : stats.Sorted p.operators sort op bounds ascending) :
    histogramEnd p v sort = some (endOf ascending (bounds.take v.slotLimit)) := by
  cases hsorted with
  | ascending hslot hvalues hsorted =>
      subst hvalues
      rw [histogramEnd, slot?_of_statistics hstats, hslot, Option.map_some]
      rfl
  | descending hnone hcommutator hback hturned hslot hvalues hsorted =>
      subst hvalues
      rw [histogramEnd, slot?_of_statistics hstats, hnone, Option.map_none,
        OperatorCatalog.commutator?, hop, Option.bind_some, hcommutator, Option.bind_some,
        slot?_of_statistics hstats, hslot, Option.map_some]
      rfl

/-- Cutting a histogram takes nothing off the end that it starts with. -/
theorem topOf_endOf {operators : OperatorCatalog α} {limit : Nat} (hlimit : 0 < limit)
    (hsorted : stats.Sorted operators sort op bounds ascending)
    (hstrict : op.procedure.StrictOn bounds) :
    op.procedure.TopOf (boundsBefore ascending limit bounds)
      (endOf ascending (bounds.take limit)) := by
  cases hsorted with
  | ascending _ _ hsorted =>
      apply Procedure.topOf_getLast?
      · exact hstrict.mono (List.take_subset limit bounds)
      · exact hsorted.sublist (List.take_sublist limit bounds)
  | descending _ _ _ hturned _ _ hsorted =>
      show op.procedure.TopOf bounds (bounds.take limit).head?
      rw [List.head?_take, if_neg (by omega)]
      apply Procedure.topOf_head? hstrict
      -- In the order of the commutator the first bound is the least.
      apply hsorted.imp_of_mem
      intro a b ha hb hab
      rw [← hturned b hb a ha]
      exact hab

/-! ## Limits -/

omit [Number α] in
theorem slotLimit_bound (e : Expr α) (relation : Option (Relation α)) :
    (bound p e relation).slotLimit = p.settings.statisticsTarget := by
  cases relation <;> rfl

theorem slotLimit_ofExpr {e : Expr α} {var : Option RtIndex} (h : ofExpr p e var = .ok v) :
    v.slotLimit = p.settings.statisticsTarget := by
  rw [ofExpr] at h
  split at h
  · cases h
    rfl
  · split at h
    · obtain ⟨r, -, h⟩ := except_bind_eq_ok.mp h
      cases h
      rfl
    · cases h
      rfl
  · cases var with
    | none =>
        cases h
        exact slotLimit_bound e _
    | some x =>
        rw [ofSeveral.eq_def] at h
        dsimp only at h
        split at h
        · obtain ⟨r, -, h⟩ := except_bind_eq_ok.mp h
          cases h
          rfl
        · cases h
          rfl

/-- However an expression is bound, as many entries of a slot are read as the
settings allow. -/
theorem slotLimit_examine {e : Expr α} {var : Option RtIndex} (h : examine p e var = .ok v) :
    v.slotLimit = p.settings.statisticsTarget := by
  rw [examine] at h
  split at h
  · split at h
    · obtain ⟨r, -, h⟩ := except_bind_eq_ok.mp h
      obtain ⟨entry, -, h⟩ := except_bind_eq_ok.mp h
      cases h
      rfl
    · exact slotLimit_ofExpr h
  · exact slotLimit_ofExpr h

/-! ## The greatest value on record -/

/-- The values that the greatest one is looked for among. -/
def lookedAt (ascending : Bool) (limit : Nat) (bounds common : List (Datum α)) : List (Datum α) :=
  boundsBefore ascending limit bounds ++ common.take limit

omit [Number α] in
theorem lookedAt_subset (ascending : Bool) (limit : Nat) (bounds common : List (Datum α)) :
    lookedAt ascending limit bounds common ⊆ bounds ++ common := by
  intro x hx
  rcases List.mem_append.mp hx with hbound | hcommon
  · apply List.mem_append_left
    cases ascending with
    | true => exact List.mem_of_mem_take hbound
    | false => exact hbound
  · exact List.mem_append_right bounds (List.mem_of_mem_take hcommon)

omit [Number α] in
/-- Short slots are looked at as a whole. -/
theorem lookedAt_of_short (ascending : Bool) {limit : Nat} {bounds common : List (Datum α)}
    (hbounds : bounds.length ≤ limit) (hcommon : common.length ≤ limit) :
    lookedAt ascending limit bounds common = bounds ++ common := by
  rw [lookedAt, boundsBefore, List.take_of_length_le hbounds, List.take_of_length_le hcommon,
    ite_self]

omit [Number α] in
theorem lookedAt_eq_nil_iff (ascending : Bool) {limit : Nat} {bounds common : List (Datum α)}
    (hlimit : 0 < limit) :
    lookedAt ascending limit bounds common = [] ↔ bounds ++ common = [] := by
  have hpositive : limit ≠ 0 := by omega
  cases ascending <;> simp [lookedAt, boundsBefore, hpositive]

theorem maximum?_of_sorted (hstats : v.statistics = some stats)
    (hop : p.operators.get? sort = some op)
    (hsorted : stats.Sorted p.operators sort op bounds ascending) :
    v.maximum? p sort = .ok ((stats.commonValues.take v.slotLimit).foldl (raise op.procedure)
      (endOf ascending (bounds.take v.slotLimit))) := by
  rw [maximum?, hstats, histogramEnd_of_sorted hstats hop hsorted, slot?_of_statistics hstats,
    ColumnStatistics.commonValues]
  cases stats.slot? .mcv none with
  | none =>
      rw [List.take_nil]
      rfl
  | some slot => exact except_bind_eq_ok.mpr ⟨op, OperatorCatalog.lookup_of_get? hop, rfl⟩

/-- **The greatest value on record.**  The value found for a column is one of
the bounds of its histogram or of its most common values, and none of those
that were looked at is greater: of the common values those that are read, of
ascending bounds those that are read, and all descending bounds.  If neither
slot is cut, none on record is greater.  Nothing is found exactly if nothing is
on record, or nothing may be read. -/
theorem maximum?_greatest {e : Expr α} {var : Option RtIndex} (hv : examine p e var = .ok v)
    (hstats : v.statistics = some stats) (hop : p.operators.get? sort = some op)
    (hsorted : stats.Sorted p.operators sort op bounds ascending)
    (hstrict : op.procedure.StrictOn (bounds ++ stats.commonValues)) :
    ∃ top, v.maximum? p sort = .ok top ∧
      (top = none ↔ p.settings.statisticsTarget = 0 ∨ bounds ++ stats.commonValues = []) ∧
      ∀ m, top = some m →
        m ∈ bounds ++ stats.commonValues ∧
        (∀ x ∈ lookedAt ascending p.settings.statisticsTarget bounds stats.commonValues,
          op.procedure.holds m x = false) ∧
        (bounds.length ≤ p.settings.statisticsTarget →
          stats.commonValues.length ≤ p.settings.statisticsTarget →
            ∀ x ∈ bounds ++ stats.commonValues, op.procedure.holds m x = false) := by
  have htarget := slotLimit_examine hv
  have hmaximum := maximum?_of_sorted hstats hop hsorted
  rw [← htarget]
  refine ⟨_, hmaximum, ?_⟩
  rcases Nat.eq_zero_or_pos v.slotLimit with hzero | hlimit
  · rw [hzero, List.take_zero, List.take_zero, List.foldl_nil]
    cases ascending <;> exact ⟨iff_of_true rfl (.inl rfl), nofun⟩
  · have hlookedAt := hstrict.mono (lookedAt_subset ascending v.slotLimit bounds _)
    have hend := topOf_endOf hlimit hsorted
      (hstrict.mono (List.subset_append_left bounds stats.commonValues))
    have htop : op.procedure.TopOf (lookedAt ascending v.slotLimit bounds stats.commonValues) _ :=
      Procedure.topOf_foldl_raise hlookedAt hend
    generalize (stats.commonValues.take v.slotLimit).foldl (raise op.procedure) _ = top at htop ⊢
    constructor
    · rw [← lookedAt_eq_nil_iff ascending hlimit]
      cases top with
      | none => exact iff_of_true rfl (.inr htop)
      | some m =>
          refine iff_of_false nofun ?_
          rintro (hzero | hnil)
          · omega
          · have hmem := htop.mem
            rw [hnil] at hmem
            cases hmem
    · rintro m rfl
      refine ⟨lookedAt_subset _ _ _ _ htop.mem, htop.top, ?_⟩
      intro hbounds hcommon
      rw [← lookedAt_of_short ascending hbounds hcommon]
      exact htop.top

section Example

open Selectivity

def gradeBounds : List (Datum Rat) := [.int4 1, .int4 5, .int4 9]

/-- Grades of which the greatest ones stand behind the others. -/
def grades : ColumnStatistics Rat where
  nullFraction := 1 / 10
  averageWidth := 4
  distinct := -1
  slots := [⟨.mcv, 1012, [.int4 3, .int4 4, .int4 12], [1 / 5, 1 / 10, 1 / 10]⟩,
    ⟨.histogram, 1014, gradeBounds, []⟩]

/-- A table whose columns hold grades, with two entries read of a slot. -/
def pupils : Planner Rat := peopleWith grades 2

/-- The column `$1.1`. -/
def gradeColumn : Variable Rat := firstColumn grades 2 .int4

theorem examine_grade :
    letI := Number.rational id
    examine pupils age none = .ok gradeColumn :=
  examine_firstColumn grades 2 .int4

theorem grades_sorted :
    letI := Number.rational id
    grades.Sorted pupils.operators 1014 younger gradeBounds true := by
  let _ := Number.rational id
  exact .ascending rfl rfl (by decide +kernel)

theorem grades_strictOn :
    letI := Number.rational id
    younger.procedure.StrictOn (gradeBounds ++ grades.commonValues) := by
  let _ := Number.rational id
  exact ⟨by decide +kernel, by decide +kernel⟩

/-- With two entries read of a slot the greatest grade is `5`, as of
`1, 5` and `3, 4`. -/
theorem maximum?_greatest_grades :
    letI := Number.rational id
    younger.procedure.StrictOn (gradeBounds ++ grades.commonValues) ∧
      lookedAt true 2 gradeBounds grades.commonValues = [.int4 1, .int4 5, .int4 3, .int4 4] ∧
      gradeColumn.maximum? pupils 1014 = .ok (some (.int4 5)) ∧
      ∀ x ∈ lookedAt true 2 gradeBounds grades.commonValues,
        younger.procedure.holds (.int4 5) x = false := by
  let _ := Number.rational id
  obtain ⟨top, htop, -, hgreatest⟩ := maximum?_greatest examine_grade rfl rfl
    grades_sorted grades_strictOn
  have hfive : gradeColumn.maximum? pupils 1014 = .ok (some (.int4 5)) := rfl
  rw [hfive] at htop
  cases htop
  exact ⟨grades_strictOn, rfl, hfive, (hgreatest _ rfl).2.1⟩

/-- With two entries read of a slot the grades `9` and `12` are greater than
the greatest one found. -/
theorem maximum?_of_cut_slots :
    letI := Number.rational id
    examine pupils age none = .ok gradeColumn ∧
      grades.Sorted pupils.operators 1014 younger gradeBounds true ∧
      younger.procedure.StrictOn (gradeBounds ++ grades.commonValues) ∧
      (∀ a ∈ gradeBounds ++ grades.commonValues, ∀ b ∈ gradeBounds ++ grades.commonValues,
        a ≠ b → younger.procedure.holds a b = true ∨ younger.procedure.holds b a = true) ∧
      gradeColumn.maximum? pupils 1014 = .ok (some (.int4 5)) ∧
      (.int4 9 ∈ gradeBounds ∧ younger.procedure.holds (.int4 5) (.int4 9) = true) ∧
      (.int4 12 ∈ grades.commonValues ∧
        younger.procedure.holds (.int4 5) (.int4 12) = true) := by
  let _ := Number.rational id
  refine ⟨examine_grade, grades_sorted, grades_strictOn, ?_, rfl, ?_, ?_⟩
  · decide +kernel
  · exact ⟨by decide, rfl⟩
  · exact ⟨by decide, rfl⟩

end Example

end Variable

end QueryPlanner
