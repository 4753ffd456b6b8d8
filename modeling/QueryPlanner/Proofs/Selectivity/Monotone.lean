/-
  QueryPlanner.Proofs.Selectivity.Monotone

  The estimate of an ordering follows its constant.

  A constant further on has no fewer common values and no fewer bounds below
  it.  If it leaves the bucket of the first constant, it is past the end of
  this bucket; if it stays, it lies no less far into it, because the number
  line keeps the order of the values.  So the share below a constant never
  falls as the constant grows, and the estimates that count it, or count what
  it leaves, move with it or against it.
-/

import QueryPlanner.Pattern.Regex.Engine
import QueryPlanner.Proofs.Datum.Scale
import QueryPlanner.Proofs.Selectivity.Range

namespace QueryPlanner

open Datum (AtMost)

/-! ## Values below a constant -/

/-- What decides whether a value is below a constant does not fall as the
constant grows. -/
theorem Strategy.IsRange.accepts_mono {s : Strategy} (hs : s.IsRange) {o o' : Ordering}
    (hlt : o = .lt → o' = .lt) (hle : o.isLE = true → o'.isLE = true)
    (h : (s.accepts o != s.keepsGreater) = true) : (s.accepts o' != s.keepsGreater) = true := by
  cases s with
  | equal => exact absurd rfl hs.1
  | notEqual => exact absurd rfl hs.2
  | less | greaterEqual =>
      cases o with
      | lt => rw [hlt rfl]; rfl
      | eq | gt => cases h
  | lessEqual | greater =>
      cases o with
      | gt => cases h
      | lt | eq =>
          have ho' := hle rfl
          cases o' with
          | gt => cases ho'
          | lt | eq => rfl

namespace Selectivity

variable (log2 : Rat → Rat) {s : Strategy} {b c d : Datum Rat}

theorem holds_rational :
    letI := Number.rational log2
    (Procedure.ordering s).holds b c =
      if b.family = c.family then s.accepts (compare b.place c.place) else false := by
  let _ := Number.rational log2
  rw [Procedure.holds, Datum.compare?_rational]
  by_cases hfamily : b.family = c.family
  · rw [if_pos hfamily, if_pos hfamily]
  · rw [if_neg hfamily, if_neg hfamily]

/-- What is below a constant is below all that follow it. -/
theorem below_mono (hs : s.IsRange) (hcd : c.AtMost d) :
    letI := Number.rational log2
    below s c b = true → below s d b = true := by
  let _ := Number.rational log2
  intro h
  rw [below, holds_rational] at h ⊢
  rw [hcd.family] at h
  by_cases hfamily : b.family = d.family
  · rw [if_pos hfamily] at h ⊢
    refine hs.accepts_mono (fun hlt => ?_) (fun hle => ?_) h
    · exact Std.TransCmp.lt_of_lt_of_isLE hlt hcd.place
    · exact Std.TransCmp.isLE_trans hle hcd.place
  · rwa [if_neg hfamily] at h ⊢

/-- What comes no later than a bound below a constant is below it as well. -/
theorem below_of_atMost (hs : s.IsRange) (hbc : b.AtMost c) :
    letI := Number.rational log2
    below s d c = true → below s d b = true := by
  let _ := Number.rational log2
  intro h
  rw [below, holds_rational] at h ⊢
  rw [hbc.family]
  by_cases hfamily : c.family = d.family
  · rw [if_pos hfamily] at h ⊢
    refine hs.accepts_mono (fun hlt => ?_) (fun hle => ?_) h
    · exact Std.TransCmp.lt_of_isLE_of_lt hbc.place hlt
    · exact Std.TransCmp.isLE_trans hbc.place hle
  · rwa [if_neg hfamily] at h ⊢

/-- A bound below a constant does not come after it. -/
theorem atMost_of_below (hs : s.IsRange) (hfamily : b.family = c.family)
    (h : @below Rat (Number.rational log2) s c b = true) : b.AtMost c := by
  let _ := Number.rational log2
  refine ⟨hfamily, ?_⟩
  rw [below, holds_rational, if_pos hfamily] at h
  cases hplace : compare b.place c.place with
  | lt | eq => rfl
  | gt =>
      rw [hplace] at h
      cases s <;> revert h hs <;> decide

/-- A bound that is not below a constant does not come before it. -/
theorem atMost_of_not_below (hs : s.IsRange) (hfamily : b.family = c.family)
    (h : @below Rat (Number.rational log2) s c b = false) : c.AtMost b := by
  let _ := Number.rational log2
  refine ⟨hfamily.symm, ?_⟩
  rw [below, holds_rational, if_pos hfamily] at h
  have hswap : compare c.place b.place = (compare b.place c.place).swap :=
    Std.OrientedOrd.eq_swap
  rw [hswap]
  cases hplace : compare b.place c.place with
  | gt | eq => rfl
  | lt =>
      rw [hplace] at h
      cases s <;> revert h hs <;> decide

/-! ## Inside a bucket -/

theorem bucketShare_rational (x lo hi : Rat) :
    letI := Number.rational log2
    bucketShare (some (x, lo, hi)) =
      if hi ≤ lo then 1 / 2 else max 0 (min 1 ((x - lo) / (hi - lo))) := by
  let _ := Number.rational log2
  rw [bucketShare, half_rational]
  by_cases hempty : hi ≤ lo
  · rw [if_pos hempty, if_pos hempty]
  · rw [if_neg hempty, if_neg hempty]
    have hwidth : 0 < hi - lo := by linarith
    show (if x ≤ lo then ((0 : Int) : Rat) else if hi ≤ x then ((1 : Int) : Rat) else
      if ((0 : Int) : Rat) ≤ (x - lo) / (hi - lo) ∧ (x - lo) / (hi - lo) ≤ ((1 : Int) : Rat) then
        (x - lo) / (hi - lo) else 1 / 2) = _
    rw [Int.cast_zero, Int.cast_one]
    by_cases hlow : x ≤ lo
    · have hshare : (x - lo) / (hi - lo) ≤ 0 :=
        div_nonpos_of_nonpos_of_nonneg (sub_nonpos.mpr hlow) hwidth.le
      rw [if_pos hlow, max_eq_left ((min_le_right _ _).trans hshare)]
    · have hshare : 0 ≤ (x - lo) / (hi - lo) :=
        div_nonneg (sub_nonneg.mpr (not_le.mp hlow).le) hwidth.le
      rw [if_neg hlow]
      by_cases hhigh : hi ≤ x
      · have hwhole : 1 ≤ (x - lo) / (hi - lo) := (one_le_div hwidth).mpr (by linarith)
        rw [if_pos hhigh, min_eq_left hwhole, max_eq_right zero_le_one]
      · have hpart : (x - lo) / (hi - lo) ≤ 1 := (div_le_one hwidth).mpr (by linarith)
        rw [if_neg hhigh, if_pos ⟨hshare, hpart⟩, min_eq_right hpart, max_eq_right hshare]

theorem bucketShare_mem (t : Option (Rat × Rat × Rat)) :
    letI := Number.rational log2
    0 ≤ bucketShare t ∧ bucketShare t ≤ 1 := by
  let _ := Number.rational log2
  cases t with
  | none =>
      rw [bucketShare, half_rational]
      norm_num
  | some t =>
      obtain ⟨x, lo, hi⟩ := t
      rw [bucketShare_rational]
      split
      · norm_num
      · exact ⟨le_max_left _ _, max_le zero_le_one (min_le_left _ _)⟩

theorem bucketShare_mono {t u : Option (Rat × Rat × Rat)} (h : Option.Rel Scale.Ascends t u) :
    letI := Number.rational log2
    bucketShare t ≤ bucketShare u := by
  let _ := Number.rational log2
  cases h with
  | none => exact le_refl _
  | some h =>
      rename_i t u
      obtain ⟨x, lo, hi⟩ := t
      obtain ⟨y, lo', hi'⟩ := u
      obtain ⟨hxy, hbounds⟩ := h
      cases hbounds
      rw [bucketShare_rational, bucketShare_rational]
      split
      · exact le_refl _
      · rename_i hbucket
        have hwidth : 0 ≤ hi - lo := by linarith
        have hshare : (x - lo) / (hi - lo) ≤ (y - lo) / (hi - lo) :=
          div_le_div_of_nonneg_right (sub_le_sub_right hxy lo) hwidth
        exact max_le_max_left 0 (min_le_min_left 1 hshare)

/-! ## Over the whole histogram -/

section Histogram

variable {below below' : Datum Rat → Bool} {share share' : Datum Rat → Datum Rat → Rat}
  {first : Datum Rat} {rest bounds : List (Datum Rat)} {i : Nat}

/-- A constant behind the first bound lies in the bucket of the first bound
that is not below it, or past the last one. -/
theorem histogramShare_bucket (share : Datum Rat → Datum Rat → Rat) (hfirst : below first = true)
    (hfind : (rest.findIdx? fun b => !below b) = some i) :
    ∃ lo hi, (first :: rest)[i]? = some lo ∧ rest[i]? = some hi ∧ below lo = true ∧
      below hi = false ∧
      @histogramShare Rat (Number.rational log2) below share (first :: rest) =
        (i + share lo hi) / rest.length := by
  let _ := Number.rational log2
  obtain ⟨hlength, hnot, hbefore⟩ := List.findIdx?_eq_some_iff_getElem.mp hfind
  have hlo : i < (first :: rest).length := Nat.lt_succ_of_lt hlength
  have hlow : below (first :: rest)[i] = true := by
    cases i with
    | zero => exact hfirst
    | succ j => simpa using hbefore j (Nat.lt_succ_self j)
  have hgetLo := List.getElem?_eq_getElem hlo
  have hgetHi := List.getElem?_eq_getElem hlength
  refine ⟨_, _, hgetLo, hgetHi, hlow, by simpa using hnot, ?_⟩
  simp only [histogramShare, hfirst, hfind, hgetLo, hgetHi]
  rfl

theorem histogramShare_past (hfirst : below first = true)
    (hnone : (rest.findIdx? fun b => !below b) = none) :
    @histogramShare Rat (Number.rational log2) below share (first :: rest) = 1 := by
  simp only [histogramShare, hfirst, hnone]
  exact Int.cast_one

theorem histogramShare_before (hfirst : below first = false) :
    @histogramShare Rat (Number.rational log2) below share (first :: rest) = 0 := by
  simp only [histogramShare, hfirst]
  exact Int.cast_zero

theorem histogramShare_mem (below : Datum Rat → Bool) (bounds : List (Datum Rat))
    (hshare : ∀ lo hi, 0 ≤ share lo hi ∧ share lo hi ≤ 1) :
    letI := Number.rational log2
    0 ≤ histogramShare below share bounds ∧ histogramShare below share bounds ≤ 1 := by
  let _ := Number.rational log2
  have hzero : (0 : Rat) ≤ 0 ∧ (0 : Rat) ≤ 1 := ⟨le_refl 0, zero_le_one⟩
  have hone : (0 : Rat) ≤ 1 ∧ (1 : Rat) ≤ 1 := ⟨zero_le_one, le_refl 1⟩
  obtain _ | ⟨first, rest⟩ := bounds
  · have hnil : histogramShare below share [] = (0 : Rat) := Int.cast_zero
    rwa [hnil]
  cases hfirst : below first with
  | false => rwa [histogramShare_before log2 hfirst]
  | true =>
      cases hfind : rest.findIdx? fun b => !below b with
      | none => rwa [histogramShare_past log2 hfirst hfind]
      | some i =>
          obtain ⟨lo, hi, -, hhi, -, -, hvalue⟩ :=
            histogramShare_bucket log2 share hfirst hfind
          obtain ⟨hlength, -⟩ := List.getElem?_eq_some_iff.mp hhi
          have hend : (i : Rat) + 1 ≤ rest.length := by exact_mod_cast hlength
          have hstart : (0 : Rat) ≤ i := Nat.cast_nonneg i
          obtain ⟨hlow, hhigh⟩ := hshare lo hi
          rw [hvalue]
          exact ⟨div_nonneg (by linarith) (by linarith),
            (div_le_one (by linarith)).mpr (by linarith)⟩

/-- The first bound that is not below a constant comes no earlier for one
further on. -/
theorem findIdx?_le (hbelow : ∀ b, below b = true → below' b = true) {j : Nat}
    (hj : (rest.findIdx? fun b => !below' b) = some j) :
    ∃ i, (rest.findIdx? fun b => !below b) = some i ∧ i ≤ j := by
  obtain ⟨hlength, hnot, -⟩ := List.findIdx?_eq_some_iff_getElem.mp hj
  have hstop : below rest[j] = false := by
    by_contra h
    rw [hbelow rest[j] (by simpa using h)] at hnot
    cases hnot
  cases hi : rest.findIdx? fun b => !below b with
  | none =>
      have hall := List.findIdx?_eq_none_iff.mp hi rest[j] (List.getElem_mem hlength)
      rw [hstop] at hall
      cases hall
  | some i =>
      obtain ⟨_, _, hbefore⟩ := List.findIdx?_eq_some_iff_getElem.mp hi
      refine ⟨i, rfl, not_lt.mp fun hlt => hbefore j hlt ?_⟩
      rw [hstop]
      rfl

/-- With more bounds below, and no less of a bucket that both constants lie
in, the share does not fall. -/
theorem histogramShare_mono (hshare : ∀ lo hi, 0 ≤ share lo hi ∧ share lo hi ≤ 1)
    (hshare' : ∀ lo hi, 0 ≤ share' lo hi ∧ share' lo hi ≤ 1)
    (hbelow : ∀ b, below b = true → below' b = true)
    (hbucket : ∀ i lo hi, bounds[i]? = some lo → bounds[i + 1]? = some hi → below lo = true →
      below' hi = false → share lo hi ≤ share' lo hi) :
    letI := Number.rational log2
    histogramShare below share bounds ≤ histogramShare below' share' bounds := by
  let _ := Number.rational log2
  have hmem := histogramShare_mem log2 below bounds hshare
  have hmem' := histogramShare_mem log2 below' bounds hshare'
  obtain _ | ⟨first, rest⟩ := bounds
  · exact le_refl _
  cases hfirst : below first with
  | false =>
      rw [histogramShare_before log2 hfirst]
      exact hmem'.1
  | true =>
      have hfirst' := hbelow first hfirst
      cases hfind' : rest.findIdx? fun b => !below' b with
      | none =>
          rw [histogramShare_past log2 hfirst' hfind']
          exact hmem.2
      | some j =>
          obtain ⟨i, hfind, hij⟩ := findIdx?_le hbelow hfind'
          obtain ⟨lo, hi, hgetLo, hgetHi, hlow, -, hvalue⟩ :=
            histogramShare_bucket log2 share hfirst hfind
          obtain ⟨lo', hi', hgetLo', hgetHi', -, hhigh', hvalue'⟩ :=
            histogramShare_bucket log2 share' hfirst' hfind'
          rw [hvalue, hvalue']
          refine div_le_div_of_nonneg_right ?_ (Nat.cast_nonneg _)
          obtain hlt | rfl := lt_or_eq_of_le hij
          · -- The whole bucket of the first constant is below the second.
            have hnext : (i : Rat) + 1 ≤ j := by exact_mod_cast hlt
            have hpart := (hshare lo hi).2
            have hpart' := (hshare' lo' hi').1
            linarith
          · cases hgetLo.symm.trans hgetLo'
            cases hgetHi.symm.trans hgetHi'
            exact add_le_add_right (hbucket i lo hi hgetLo hgetHi hlow hhigh') _

end Histogram

/-! ## Estimates -/

variable {type : DataType} {v : Variable Rat} {stats : ColumnStatistics Rat}

/-- Where two constants lie in one bucket of a histogram, they are placed there
in their order. -/
def PlacedInOrder [Number Rat] (s : Strategy) (c d : Datum Rat) (type boundsType : DataType)
    (bounds : List (Datum Rat)) : Prop :=
  ∀ i lo hi, bounds[i]? = some lo → bounds[i + 1]? = some hi → below s c lo = true →
    below s d hi = false →
      Option.Rel Scale.Ascends (Scale.convert? c type lo hi boundsType)
        (Scale.convert? d type lo hi boundsType)

/-- Constants of all types but strings and intervals are placed so. -/
theorem placedInOrder (hs : s.IsRange) (htype : type.category ≠ .string)
    (hinterval : c.family ≠ .interval) (hcd : c.AtMost d) (boundsType : DataType)
    (bounds : List (Datum Rat)) :
    letI := Number.rational log2
    PlacedInOrder s c d type boundsType bounds := by
  let _ := Number.rational log2
  intro i lo hi _ _ hlo hhi
  exact Scale.convert?_ascends log2 htype hinterval hcd
    (fun hfamily => atMost_of_below log2 hs hfamily hlo)
    (fun hfamily => atMost_of_not_below log2 hs hfamily hhi) boundsType

theorem belowShare_mono {boundsType : DataType} {bounds : List (Datum Rat)} (hs : s.IsRange)
    (hcd : c.AtMost d)
    (hplaced : @PlacedInOrder (Number.rational log2) s c d type boundsType bounds) :
    letI := Number.rational log2
    belowShare s c type boundsType bounds ≤ belowShare s d type boundsType bounds := by
  let _ := Number.rational log2
  refine histogramShare_mono log2 (fun lo hi => bucketShare_mem log2 _)
    (fun lo hi => bucketShare_mem log2 _) (fun b => below_mono log2 hs hcd) ?_
  intro i lo hi hgetLo hgetHi hlo hhi
  exact bucketShare_mono log2 (hplaced i lo hi hgetLo hgetHi hlo hhi)

/-- The share of the histogram that is counted moves with the constant, and
the share that is left over against it. -/
theorem otherShare_mono (hs : s.IsRange) (hcd : c.AtMost d)
    (hplaced : ∀ bounds, v.bounds? = some bounds →
      @PlacedInOrder (Number.rational log2) s c d type v.type bounds) :
    letI := Number.rational log2
    (s.keepsGreater = false → otherShare s v c type ≤ otherShare s v d type) ∧
      (s.keepsGreater = true → otherShare s v d type ≤ otherShare s v c type) := by
  let _ := Number.rational log2
  cases hbounds : v.bounds? with
  | none =>
      rw [otherShare_of_no_bounds log2 hbounds, otherShare_of_no_bounds log2 hbounds]
      exact ⟨fun _ => le_refl _, fun _ => le_refl _⟩
  | some bounds =>
      have hshare := offEnds_mono (belowShare_mono log2 hs hcd (hplaced bounds hbounds))
      rw [otherShare_of_bounds log2 hbounds, otherShare_of_bounds log2 hbounds]
      refine ⟨fun hless => ?_, fun hgreater => ?_⟩
      · rwa [hless, if_neg Bool.false_ne_true, if_neg Bool.false_ne_true]
      · rw [hgreater, if_pos rfl, if_pos rfl]
        exact sub_le_sub_left hshare 1

/-- So do the common values that are kept. -/
theorem holds_mono (hs : s.IsRange) (hcd : c.AtMost d) :
    letI := Number.rational log2
    (s.keepsGreater = false →
        (Procedure.ordering s).holds b c = true → (Procedure.ordering s).holds b d = true) ∧
      (s.keepsGreater = true →
        (Procedure.ordering s).holds b d = true → (Procedure.ordering s).holds b c = true) := by
  let _ := Number.rational log2
  have hbelow := below_mono log2 (b := b) hs hcd
  rw [below, below] at hbelow
  refine ⟨fun hless => ?_, fun hgreater hd => ?_⟩
  · simpa only [hless, Bool.bne_false] using hbelow
  · by_contra hc
    rw [hgreater, hd, Bool.eq_false_iff.mpr hc] at hbelow
    exact absurd (hbelow rfl) (by decide)

theorem rangeFraction_mono_of_placed (hs : s.IsRange) (hstats : v.statistics = some stats)
    (hproper : stats.Proper) (hcd : c.AtMost d)
    (hplaced : ∀ bounds, v.bounds? = some bounds →
      @PlacedInOrder (Number.rational log2) s c d type v.type bounds) :
    letI := Number.rational log2
    (s.keepsGreater = false →
        rangeFraction s v stats c type ≤ rangeFraction s v stats d type) ∧
      (s.keepsGreater = true →
        rangeFraction s v stats d type ≤ rangeFraction s v stats c type) := by
  let _ := Number.rational log2
  have hothers := others_nonneg hstats hproper
  have hnonneg := frequency_nonneg hstats hproper
  obtain ⟨hless, hgreater⟩ := otherShare_mono log2 hs hcd hplaced
  rw [rangeFraction_rational, rangeFraction_rational]
  refine ⟨fun h => ?_, fun h => ?_⟩
  · exact add_le_add (mul_le_mul_of_nonneg_left (hless h) hothers)
      (weight_mono hnonneg fun x _ => (holds_mono log2 hs hcd).1 h)
  · exact add_le_add (mul_le_mul_of_nonneg_left (hgreater h) hothers)
      (weight_mono hnonneg fun x _ => (holds_mono log2 hs hcd).2 h)

theorem rangeFraction_mono (hs : s.IsRange) (hstats : v.statistics = some stats)
    (hproper : stats.Proper) (htype : type.category ≠ .string)
    (hinterval : c.family ≠ .interval) (hcd : c.AtMost d) :
    letI := Number.rational log2
    (s.keepsGreater = false →
        rangeFraction s v stats c type ≤ rangeFraction s v stats d type) ∧
      (s.keepsGreater = true →
        rangeFraction s v stats d type ≤ rangeFraction s v stats c type) :=
  rangeFraction_mono_of_placed log2 hs hstats hproper hcd fun bounds _ =>
    placedInOrder log2 hs htype hinterval hcd v.type bounds

/-- In exact numbers the estimate of `<` and `<=` never falls as the constant
grows, and that of `>` and `>=` never rises, for constants of any type that is
no string and no interval.  The histogram may be of any length and order. -/
theorem restriction_follows_constant (log2 : Rat → Rat) {p : Planner Rat} {op : Operator Rat}
    {s : Strategy} {a : Expr Rat} {var : Option RtIndex} {v : Variable Rat}
    {stats : ColumnStatistics Rat} {c d : Datum Rat} {type : DataType}
    (hcompares : p.operators.Compares engine op.left)
    (hop : op ∈ (OperatorCatalog.builtin engine : OperatorCatalog Rat).operators)
    (hcomparison : op.IsComparison s) (hs : s.IsRange)
    (hv : @Variable.examine Rat (Number.rational log2) p a var = .ok v)
    (hrelation : v.relation.isSome = true) (hstats : v.statistics = some stats)
    (hproper : stats.Proper)
    (htype : type.category ≠ .string) (hinterval : type ≠ .interval)
    (hc : type ∈ c.types) (hd : type ∈ d.types)
    (hcd : @Datum.compare? Rat (Number.rational log2) c d ≠ some .gt) :
    letI := Number.rational log2
    ∃ f g, restriction p op.oid [a, .const type (some c)] var = .ok f ∧
      restriction p op.oid [a, .const type (some d)] var = .ok g ∧
      (s.keepsGreater = false → f ≤ g) ∧ (s.keepsGreater = true → g ≤ f) := by
  let _ := Number.rational log2
  obtain ⟨base, dataType, rfl, hsix⟩ := hcompares.hasSix hop hcomparison
  have hatMost : c.AtMost d := Datum.atMost_of_types hc hd hcd
  have hfamily : c.family ≠ .interval :=
    c.family_of_types type hc ▸ Datum.Family.ofType_ne_interval hinterval
  exact ⟨_, _, restriction_range log2 hsix hs hv hrelation hstats hproper true c type,
    restriction_range log2 hsix hs hv hrelation hstats hproper true d type,
    rangeFraction_mono log2 hs hstats hproper htype hfamily hatMost⟩

section Example

/-- `age < 20` and `age < 60` -/
theorem restriction_follows_constant_younger :
    letI := Number.rational id
    ages.Proper ∧ (Datum.int4 20 : Datum Rat).compare? (.int4 60) ≠ some .gt ∧
      ∃ f g, restriction people 1014 [age, .const .int4 (some (.int4 20))] none = .ok f ∧
        restriction people 1014 [age, .const .int4 (some (.int4 60))] none = .ok g ∧
        (Strategy.less.keepsGreater = false → f ≤ g) ∧
        (Strategy.less.keepsGreater = true → g ≤ f) := by
  let _ := Number.rational id
  have hcompares : people.operators.Compares Regex.engine younger.left :=
    OperatorCatalog.compares_builtin younger.left
  have horder : (Datum.int4 20 : Datum Rat).compare? (.int4 60) ≠ some .gt := by decide
  have htypes (n : Int32) : DataType.int4 ∈ (Datum.int4 n : Datum Rat).types :=
    List.mem_singleton_self _
  exact ⟨ages_proper, horder, restriction_follows_constant id hcompares younger_mem rfl
    (by decide) (Variable.examine_column rfl rfl rfl) rfl rfl ages_proper (by decide) (by decide)
    (htypes 20) (htypes 60) horder⟩

end Example

end Selectivity

end QueryPlanner
