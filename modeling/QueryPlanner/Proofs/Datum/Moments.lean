/-
  QueryPlanner.Proofs.Datum.Moments

  Dates and times on the number line.

  A time is flattened to seconds twice: to be compared, and to be placed
  inside a histogram bucket.  Both count days, zones and times of day alike.
  A month is thirty days long in a comparison and 30.4375 days, its average
  length, on the line, so the line puts an interval 37800 seconds further on
  for every month in it.  Intervals are placed out of their order exactly
  where the earlier one has so many months more that this makes up for the
  seconds between them.
-/

import QueryPlanner.Proofs.Datum.Scale

namespace QueryPlanner

namespace Datum

/-- The value is of a type of dates or times. -/
def IsMoment {α : Type} (d : Datum α) : Prop := ∃ type ∈ d.types, type.category = .dateTime

/-- The months that are counted apart from the seconds. -/
def months {α : Type} : Datum α → Int
  | .interval _ months => months.toInt
  | _ => 0

/-- The seconds that a date or time is compared by. -/
def seconds : Datum Rat → Rat
  | .timestamp v | .time v => v
  | .date days => days.toInt * 86400
  | .timetz t zone => t + zone.toInt
  | .interval t months => t + months.toInt * 30 * 86400
  | _ => 0

theorem IsMoment.family {d : Datum Rat} (h : d.IsMoment) :
    d.family ∈ [Family.instant, .time, .zonedTime, .interval] := by
  obtain ⟨type, htype, hcategory⟩ := h
  have hall : ∀ type : DataType, type.category = .dateTime →
      Family.ofType type ∈ [Family.instant, .time, .zonedTime, .interval] := by
    intro type
    cases type <;> decide
  rw [d.family_of_types type htype]
  exact hall type hcategory

theorem IsMoment.place {d : Datum Rat} (h : d.IsMoment) : d.place = [d.seconds] := by
  have hfamily := h.family
  cases d
  case timestamp | date | time | timetz | interval => rfl
  all_goals exact absurd hfamily (by simp [Datum.family])

theorem months_of_family {d : Datum Rat} (h : d.family ≠ .interval) : d.months = 0 := by
  cases d
  case interval => exact absurd rfl h
  all_goals rfl

/-- The earlier one of two dates or times has fewer seconds. -/
theorem seconds_lt {log2 : Rat → Rat} {c d : Datum Rat} (hc : c.IsMoment) (hd : d.IsMoment)
    (h : @compare? Rat (Number.rational log2) c d = some .lt) :
    c.family = d.family ∧ c.seconds < d.seconds := by
  rw [compare?_rational] at h
  obtain ⟨hfamily, hlt⟩ := Option.ite_none_right_eq_some.mp h
  rw [hc.place, hd.place, compare_singleton] at hlt
  exact ⟨hfamily, compare_lt_iff_lt.mp (Option.some.inj hlt)⟩

end Datum

namespace Scale

open Datum (IsMoment)

variable (log2 : Rat → Rat)

theorem daysPerMonth_rational : @daysPerMonth Rat (Number.rational log2) = 30 + 7 / 16 := by
  show ((36525 : Nat) : Rat) / ((Nat.pow 10 2 : Nat) : Rat) / (((12 : Nat) : Int) : Rat) = 30 + 7 / 16
  norm_num

/-- The line counts the seconds of a comparison, and 37800 more for each
month. -/
theorem time?_of_isMoment {d : Datum Rat} (h : d.IsMoment) :
    @time? Rat (Number.rational log2) d = some (d.seconds + d.months * 37800) := by
  have hday := secondsPerDay_rational log2
  have hmonth := daysPerMonth_rational log2
  have hfamily := h.family
  have hplain (x : Rat) : some x = some (x + ((0 : Int) : Rat) * 37800) := by simp
  cases d
  case interval t months =>
    refine congrArg some ?_
    rw [hday, hmonth, Number.ofInt_rational, Datum.seconds, Datum.months]
    ring
  case date days =>
    refine Eq.trans ?_ (hplain _)
    exact congrArg (fun x => some (_ * x)) hday
  case timestamp v => exact hplain v
  case time v => exact hplain v
  case timetz t zone => exact hplain _
  all_goals exact absurd hfamily (by simp [Datum.family])

/-- Of two dates or times the earlier one is placed no further on, unless they
are intervals and its months make up for the seconds between them. -/
theorem time?_follows_comparison (log2 : Rat → Rat) {c d : Datum Rat} (hc : c.IsMoment)
    (hd : d.IsMoment) (hcd : @Datum.compare? Rat (Number.rational log2) c d = some .lt) :
    letI := Number.rational log2
    ∃ x y, time? c = some x ∧ time? d = some y ∧ (c.family ≠ .interval → x ≤ y) ∧
      (x ≤ y ↔ (c.months - d.months) * 37800 ≤ d.seconds - c.seconds) := by
  let _ := Number.rational log2
  obtain ⟨hfamily, hseconds⟩ := Datum.seconds_lt hc hd hcd
  refine ⟨_, _, time?_of_isMoment log2 hc, time?_of_isMoment log2 hd, ?_, ?_⟩
  · intro hinterval
    have hmonths := Datum.months_of_family hinterval
    have hmonths' := Datum.months_of_family (hfamily ▸ hinterval)
    rw [hmonths, hmonths']
    linarith
  · constructor <;> intro h <;> linarith

section Example

/-- A month, and about 31 days. -/
def oneMonth : Datum Rat := .interval 0 1
def thirtyOneDays : Datum Rat := .interval 2700000 0

/-- The days between them are more than the month gains on the line. -/
theorem time?_follows_comparison_oneMonth :
    letI := Number.rational id
    oneMonth.IsMoment ∧ thirtyOneDays.IsMoment ∧
      oneMonth.compare? thirtyOneDays = some .lt ∧
      ∃ x y, time? oneMonth = some x ∧ time? thirtyOneDays = some y ∧ x ≤ y := by
  let _ := Number.rational id
  have hmonth : oneMonth.IsMoment := ⟨.interval, by decide, rfl⟩
  have hdays : thirtyOneDays.IsMoment := ⟨.interval, by decide, rfl⟩
  have hlt : oneMonth.compare? thirtyOneDays = some .lt := by decide +kernel
  obtain ⟨x, y, hx, hy, -, hiff⟩ := time?_follows_comparison id hmonth hdays hlt
  have hgap : ((oneMonth.months - thirtyOneDays.months : Int) : Rat) * 37800 ≤
      thirtyOneDays.seconds - oneMonth.seconds := by decide +kernel
  rw [Int.cast_sub] at hgap
  exact ⟨hmonth, hdays, hlt, x, y, hx, hy, hiff.mpr hgap⟩

/-- A month comes before 2600000 seconds, some 30.1 days, in a comparison, and
behind them on the line. -/
theorem time?_reverses_oneMonth :
    letI := Number.rational id
    oneMonth.IsMoment ∧ (Datum.interval 2600000 0 : Datum Rat).IsMoment ∧
      oneMonth.compare? (.interval 2600000 0) = some .lt ∧
      ∃ x y, time? oneMonth = some x ∧ time? (.interval 2600000 0) = some y ∧ ¬ x ≤ y := by
  let _ := Number.rational id
  refine ⟨⟨.interval, by decide, rfl⟩, ⟨.interval, by decide, rfl⟩, by decide +kernel, 2629800,
    2600000, by decide +kernel, by decide +kernel, by decide +kernel⟩

end Example

end Scale

end QueryPlanner
