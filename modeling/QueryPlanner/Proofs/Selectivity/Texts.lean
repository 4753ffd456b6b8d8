/-
  QueryPlanner.Proofs.Selectivity.Texts

  The estimate of an ordering on texts follows its constant.

  It does where the texts are placed in their order, that is where the range
  of their bucket spans what tells them apart; across buckets nothing depends
  on the number line.  The range comes from the bounds alone, so a constant
  with a capital letter, a blank or an accent among small letters can fall
  behind a lesser one.
-/

import QueryPlanner.Pattern.Regex.Engine
import QueryPlanner.Proofs.Datum.Scale.Text
import QueryPlanner.Proofs.Selectivity.Monotone

namespace QueryPlanner

namespace Datum

theorem AtMost.utf8 {c d : String} (h : (text c : Datum Rat).AtMost (text d)) :
    (compare (QueryPlanner.utf8 c) (QueryPlanner.utf8 d)).isLE = true := by
  have hplace := h.place
  rwa [Datum.place, Datum.place, compare_map compare_byteNumber] at hplace

theorem atMost_text {log2 : Rat → Rat} {c d : String}
    (h : @compare? Rat (Number.rational log2) (text c) (text d) ≠ some .gt) :
    (text c : Datum Rat).AtMost (text d) := by
  have htext (s : String) : DataType.text ∈ (text s : Datum Rat).types := by
    simp [types]
  exact atMost_of_types (htext c) (htext d) h

end Datum

namespace Selectivity

open Scale (rangeOf reading ByteRange)

/-- The bounds are texts, and the range of every bucket that two texts lie in
spans what tells them apart. -/
structure SpansBuckets (c d : String) (bounds : List (Datum Rat)) : Prop where
  texts : ∀ b ∈ bounds, ∃ t, b = .text t
  spans : ∀ i lo hi, bounds[i]? = some (.text lo) → bounds[i + 1]? = some (.text hi) →
    (Datum.text lo : Datum Rat).AtMost (.text c) → (Datum.text d : Datum Rat).AtMost (.text hi) →
      (rangeOf (utf8 lo) (utf8 hi)).Spans (reading (utf8 lo) (utf8 hi) (utf8 c))
        (reading (utf8 lo) (utf8 hi) (utf8 d))

variable (log2 : Rat → Rat)

theorem placedInOrder_texts {s : Strategy} {c d : String} {type boundsType : DataType}
    {bounds : List (Datum Rat)} (hs : s.IsRange) (htype : type.category = .string)
    (hcd : (Datum.text c : Datum Rat).AtMost (.text d)) (h : SpansBuckets c d bounds) :
    letI := Number.rational log2
    PlacedInOrder s (.text c) (.text d) type boundsType bounds := by
  let _ := Number.rational log2
  intro i lo hi hgetLo hgetHi hlo hhi
  obtain ⟨lo, rfl⟩ := h.texts lo (List.mem_of_getElem? hgetLo)
  obtain ⟨hi, rfl⟩ := h.texts hi (List.mem_of_getElem? hgetHi)
  have hfamily (t u : String) : (Datum.text t : Datum Rat).family = (Datum.text u).family := rfl
  -- What the scan says of the bounds is that they enclose both texts.
  have hfirst := atMost_of_below log2 hs (hfamily lo c) hlo
  have hlast := atMost_of_not_below log2 hs (hfamily hi d) hhi
  rw [Scale.convert?_text log2 htype, Scale.convert?_text log2 htype]
  split
  · have hspans := h.spans i lo hi hgetLo hgetHi hfirst hlast
    exact .some (Scale.places_text_ascends log2 hfirst.utf8 hcd.utf8 hlast.utf8 hspans)
  · exact .none

/-- Of two texts in a bucket whose range spans what tells them apart, the one
that does not come later is placed no further on.  So with a histogram of such
buckets the estimate of `<` and `<=` never falls as the constant grows, and
that of `>` and `>=` never rises. -/
theorem texts_follow_constant (log2 : Rat → Rat) {c d : String}
    (hcd : @Datum.compare? Rat (Number.rational log2) (.text c) (.text d) ≠ some .gt) :
    letI := Number.rational log2
    (∀ lo hi : String, (Datum.text lo : Datum Rat).compare? (.text hi) = some .lt →
        (Datum.text lo : Datum Rat).compare? (.text c) ≠ some .gt →
        (Datum.text d : Datum Rat).compare? (.text hi) ≠ some .gt →
        (rangeOf (utf8 lo) (utf8 hi)).Spans (reading (utf8 lo) (utf8 hi) (utf8 c))
          (reading (utf8 lo) (utf8 hi) (utf8 d)) →
        ∃ t u : Rat × Rat × Rat,
          Scale.convert? (.text c) .text (.text lo) (.text hi) .text = some t ∧
          Scale.convert? (.text d) .text (.text lo) (.text hi) .text = some u ∧ t.1 ≤ u.1) ∧
      ∀ (p : Planner Rat) (op : Operator Rat) (s : Strategy) (a : Expr Rat) (var : Option RtIndex)
        (v : Variable Rat) (stats : ColumnStatistics Rat),
        p.operators.Compares engine op.left →
        op ∈ (OperatorCatalog.builtin engine : OperatorCatalog Rat).operators →
        op.IsComparison s → s.IsRange → Variable.examine p a var = .ok v →
        v.relation.isSome = true → v.statistics = some stats → stats.Proper →
        (∀ bounds, v.bounds? = some bounds → SpansBuckets c d bounds) →
        ∃ f g, restriction p op.oid [a, .const .text (some (.text c))] var = .ok f ∧
          restriction p op.oid [a, .const .text (some (.text d))] var = .ok g ∧
          (s.keepsGreater = false → f ≤ g) ∧ (s.keepsGreater = true → g ≤ f) := by
  let _ := Number.rational log2
  have hatMost := Datum.atMost_text hcd
  refine ⟨?_, ?_⟩
  · intro lo hi _ hlo hhi hspans
    have hplaces := Scale.places_text_ascends log2 (Datum.atMost_text hlo).utf8 hatMost.utf8
      (Datum.atMost_text hhi).utf8 hspans
    have hconvert (value : String) :
        Scale.convert? (.text value) .text (.text lo) (.text hi) .text =
          some (Scale.places (Scale.stringFraction (rangeOf (utf8 lo) (utf8 hi)))
            (utf8 value) (utf8 lo) (utf8 hi)) := Scale.convert?_text log2 rfl
    exact ⟨_, _, hconvert c, hconvert d, hplaces.1⟩
  · intro p op s a var v stats hcompares hop hcomparison hs hv hrelation hstats hproper hbuckets
    obtain ⟨base, dataType, rfl, hsix⟩ := hcompares.hasSix hop hcomparison
    have hplaced : ∀ bounds, v.bounds? = some bounds →
        PlacedInOrder s (.text c) (.text d) .text v.type bounds := by
      intro bounds hbounds
      exact placedInOrder_texts log2 hs rfl hatMost (hbuckets bounds hbounds)
    exact ⟨_, _,
      restriction_range log2 hsix hs hv hrelation hstats hproper true (.text c) .text,
      restriction_range log2 hsix hs hv hrelation hstats hproper true (.text d) .text,
      rangeFraction_mono_of_placed log2 hs hstats hproper hatMost hplaced⟩

section Example

/-- Surnames in two buckets of small letters. -/
def surnames : ColumnStatistics Rat where
  nullFraction := 1 / 10
  averageWidth := 8
  distinct := -1
  slots := [⟨.histogram, 1062, [.text "a", .text "n", .text "z"], []⟩]

/-- A table whose first column holds surnames. -/
def callers : Planner Rat :=
  { people with
    statistics := ⟨fun _ column => if column = 1 then some surnames else none, fun _ _ => none⟩ }

def surname : Expr Rat := .var ⟨1, 1, .text, -1⟩

/-- `<` on texts -/
def earlier : Operator Rat := OperatorCatalog.comparison 1060 .text .less

theorem earlier_mem :
    earlier ∈ (OperatorCatalog.builtin Regex.engine : OperatorCatalog Rat).operators :=
  (OperatorCatalog.mem_of_get?
    (rfl : (OperatorCatalog.builtin Regex.engine).get? 1062 = some earlier)).1

theorem surnames_proper : surnames.Proper where
  nulls := by decide +kernel
  frequencies := by decide +kernel
  total := by decide +kernel

/-- A capital letter and an accent lie on either side of the small letters. -/
theorem surnames_spansBuckets :
    SpansBuckets "c-A" "c-é" [.text "a", .text "n", .text "z"] where
  texts := by simp
  spans := by
    have hsmall : (⟨97, 122⟩ : ByteRange).Spans (utf8 "c-A") (utf8 "c-é") := by
      refine ⟨utf8 "c-", [65], [195, 169], ?_, ?_, ?_, ?_⟩ <;> decide +kernel
    intro i lo hi hlo hhi _ _
    match i with
    | 0 =>
        cases hlo
        cases hhi
        exact hsmall
    | 1 =>
        cases hlo
        cases hhi
        exact hsmall
    | i + 2 => cases hhi

/-- `surname < 'c-A'` and `surname < 'c-é'` -/
theorem texts_follow_constant_surnames :
    letI := Number.rational id
    (Datum.text "c-A" : Datum Rat).compare? (.text "c-é") ≠ some .gt ∧ surnames.Proper ∧
      ∃ f g, restriction callers 1062 [surname, .const .text (some (.text "c-A"))] none = .ok f ∧
        restriction callers 1062 [surname, .const .text (some (.text "c-é"))] none = .ok g ∧
        (Strategy.less.keepsGreater = false → f ≤ g) ∧
        (Strategy.less.keepsGreater = true → g ≤ f) := by
  let _ := Number.rational id
  have horder : (Datum.text "c-A" : Datum Rat).compare? (.text "c-é") ≠ some .gt := by
    decide +kernel
  have hcompares : callers.operators.Compares Regex.engine earlier.left :=
    OperatorCatalog.compares_builtin earlier.left
  have hv : Variable.examine callers surname none = .ok _ := Variable.examine_column rfl rfl rfl
  refine ⟨horder, surnames_proper, (texts_follow_constant id horder).2 callers earlier .less
    surname none _ surnames hcompares earlier_mem rfl (by decide) hv rfl rfl surnames_proper ?_⟩
  intro bounds hbounds
  cases hbounds
  exact surnames_spansBuckets

/-- `bA` comes behind `b`, but between `b` and `z` it is placed before it: a
capital letter takes one away from the last digit. -/
theorem texts_reversed_capital :
    letI := Number.rational id
    (Datum.text "b" : Datum Rat).compare? (.text "bA") = some .lt ∧
      (Datum.text "bA" : Datum Rat).compare? (.text "z") = some .lt ∧
      Scale.convert? (.text "b" : Datum Rat) .text (.text "b") (.text "z") .text =
        some (1 / 26, 1 / 26, 25 / 26) ∧
      Scale.convert? (.text "bA" : Datum Rat) .text (.text "b") (.text "z") .text =
        some (25 / 676, 1 / 26, 25 / 26) := by
  let _ := Number.rational id
  decide +kernel

end Example

end Selectivity

end QueryPlanner
