/-
  QueryPlanner.Proofs.Datum.Scale.Text

  Texts on the number line.

  A text is placed as a fraction whose base is the width of a range of bytes
  that only the bounds of its bucket decide.  A byte outside that range counts
  as the digit below the least or above the greatest one, and such digits are
  no digits of the base: they borrow from the digit before them, or carry into
  it.  Two texts are placed in their order where neither happens: behind what
  they start with alike, the first has no byte above the range, and the second
  none below it.
-/

import QueryPlanner.Proofs.Datum.Scale

namespace QueryPlanner

namespace Scale

/-! ## Expansions -/

/-- The number whose digits behind the point are given, in any base. -/
def expansion (base : Int) : List Int → Rat
  | [] => 0
  | d :: ds => (d + expansion base ds) / base

section Expansion

variable {base : Int} {ds es : List Int}

@[simp] theorem expansion_nil : expansion base [] = 0 := rfl

@[simp] theorem expansion_cons (d : Int) (ds : List Int) :
    expansion base (d :: ds) = (d + expansion base ds) / base := rfl

theorem expansion_nonneg (hbase : 0 < base) (h : ∀ d ∈ ds, 0 ≤ d) : 0 ≤ expansion base ds := by
  induction ds with
  | nil => exact le_refl 0
  | cons d ds ih =>
      have hd : (0 : Rat) ≤ d := by exact_mod_cast h d List.mem_cons_self
      have hds := ih fun e he => h e (List.mem_cons_of_mem d he)
      have hpos : (0 : Rat) < base := by exact_mod_cast hbase
      rw [expansion_cons]
      positivity

/-- Without a digit that carries, what is behind the point is less than 1. -/
theorem expansion_lt_one (hbase : 0 < base) (h : ∀ d ∈ ds, d < base) : expansion base ds < 1 := by
  induction ds with
  | nil => exact zero_lt_one
  | cons d ds ih =>
      have hd : (d : Rat) + 1 ≤ base := by exact_mod_cast h d List.mem_cons_self
      have hds := ih fun e he => h e (List.mem_cons_of_mem d he)
      have hpos : (0 : Rat) < base := by exact_mod_cast hbase
      rw [expansion_cons, div_lt_one hpos]
      linarith

/-- Behind equal digits the rest decides. -/
theorem expansion_cons_le (hbase : 0 < base) (d : Int)
    (h : expansion base ds ≤ expansion base es) :
    expansion base (d :: ds) ≤ expansion base (d :: es) := by
  have hpos : (0 : Rat) < base := by exact_mod_cast hbase
  rw [expansion_cons, expansion_cons]
  exact div_le_div_of_nonneg_right (add_le_add_right h _) hpos.le

/-- The first digit decides if nothing is carried into it and nothing is
borrowed from the other one. -/
theorem expansion_le_of_lt (hbase : 0 < base) {d e : Int} (hde : d < e) (hds : ∀ x ∈ ds, x < base)
    (hes : ∀ x ∈ es, 0 ≤ x) : expansion base (d :: ds) ≤ expansion base (e :: es) := by
  have hpos : (0 : Rat) < base := by exact_mod_cast hbase
  have hnext : (d : Rat) + 1 ≤ e := by exact_mod_cast hde
  have hless := expansion_lt_one hbase hds
  have hmore := expansion_nonneg hbase hes
  rw [expansion_cons, expansion_cons]
  apply div_le_div_of_nonneg_right _ hpos.le
  linarith

end Expansion

/-! ## Bytes as digits -/

namespace ByteRange

/-- The number of bytes in a range. -/
def base (r : ByteRange) : Int := r.hi - r.lo + 1

/-- The digit of a byte: its place in the range, or the next place outside. -/
def digit (r : ByteRange) (b : UInt8) : Int :=
  min (max (b.toNat : Int) (r.lo - 1)) (r.hi + 1) - r.lo

variable {r : ByteRange} {a b : UInt8}

theorem base_pos (hr : r.lo ≤ r.hi) : 0 < r.base := by
  rw [base]
  omega

theorem digit_nonneg (hr : r.lo ≤ r.hi) (hb : r.lo ≤ b.toNat) : 0 ≤ r.digit b := by
  rw [digit]
  omega

theorem digit_lt_base (hr : r.lo ≤ r.hi) (hb : b.toNat ≤ r.hi) : r.digit b < r.base := by
  rw [digit, base]
  omega

theorem digit_lt_digit (hr : r.lo ≤ r.hi) (ha : a.toNat ≤ r.hi) (hb : r.lo ≤ b.toNat)
    (hab : a < b) : r.digit a < r.digit b := by
  have hlt : a.toNat < b.toNat := UInt8.lt_iff_toNat_lt.mp hab
  rw [digit, digit]
  omega

/-- The range spans what tells two strings apart: behind some common beginning
the first has no byte above it, and the second none below it. -/
def Spans (r : ByteRange) (s t : List UInt8) : Prop :=
  ∃ front s' t', s = front ++ s' ∧ t = front ++ t' ∧ (∀ b ∈ s', b.toNat ≤ r.hi) ∧
    ∀ b ∈ t', r.lo ≤ b.toNat

end ByteRange

/-- The range of two bounds is never too narrow for a fraction. -/
theorem rangeOf_le (lo hi : List UInt8) : (rangeOf lo hi).lo ≤ (rangeOf lo hi).hi := by
  simp only [rangeOf]
  split
  · decide
  · omega

/-! ## Fractions of strings -/

variable (log2 : Rat → Rat)

theorem digit_rational (r : ByteRange) (b : UInt8) :
    letI := Number.rational log2
    Number.min (Number.max (Number.ofNat b.toNat) (Number.ofNat r.lo - 1)) (Number.ofNat r.hi + 1) -
      Number.ofNat r.lo = (r.digit b : Rat) := by
  let _ := Number.rational log2
  rw [Number.min_rational, Number.max_rational]
  show min (max ((b.toNat : Int) : Rat) (((r.lo : Int) : Rat) - ((1 : Int) : Rat)))
    (((r.hi : Int) : Rat) + ((1 : Int) : Rat)) - ((r.lo : Int) : Rat) = _
  rw [ByteRange.digit]
  push_cast
  rfl

theorem stringFraction_rational {r : ByteRange} (hr : r.lo ≤ r.hi) (bytes : List UInt8) :
    @stringFraction Rat (Number.rational log2) r bytes =
      expansion r.base ((bytes.take stringLimit).map r.digit) := by
  let _ := Number.rational log2
  have hbase : (Number.ofNat r.hi - Number.ofNat r.lo + 1 : Rat) = r.base := by
    show ((r.hi : Int) : Rat) - ((r.lo : Int) : Rat) + ((1 : Int) : Rat) = _
    rw [ByteRange.base]
    push_cast
    rfl
  have hzero : (r.base : Rat) ≠ 0 := by
    exact_mod_cast (ByteRange.base_pos hr).ne'
  -- Each further digit counts a part of the one before it.
  have hfold (bytes : List UInt8) (sum denominator : Rat) (h : denominator ≠ 0) :
      (bytes.foldl (fun (acc : Rat × Rat) b =>
        (acc.1 + (r.digit b : Rat) / acc.2, acc.2 * (r.base : Rat))) (sum, denominator)).1 =
      sum + expansion r.base (bytes.map r.digit) * r.base / denominator := by
    induction bytes generalizing sum denominator with
    | nil => simp
    | cons b bytes ih =>
        rw [List.foldl_cons, ih _ _ (mul_ne_zero h hzero), List.map_cons, expansion_cons]
        field_simp
        ring
  have hbytes := hfold (bytes.take stringLimit) 0 r.base hzero
  rw [zero_add, mul_div_cancel_right₀ _ hzero] at hbytes
  rw [← hbytes, stringFraction]
  simp only [digit_rational, hbase]

section Order

variable {r : ByteRange} {s t : List UInt8}

/-- Digits that carry in neither of two strings lie as the strings do. -/
theorem expansion_mono_of_spanned (hr : r.lo ≤ r.hi) (hst : (compare s t).isLE = true)
    (hs : ∀ b ∈ s, b.toNat ≤ r.hi) (ht : ∀ b ∈ t, r.lo ≤ b.toNat) :
    expansion r.base (s.map r.digit) ≤ expansion r.base (t.map r.digit) := by
  have hbase := ByteRange.base_pos hr
  have hproper (t : List UInt8) (ht : ∀ b ∈ t, r.lo ≤ b.toNat) : ∀ d ∈ t.map r.digit, 0 ≤ d := by
    intro d hd
    obtain ⟨b, hb, rfl⟩ := List.mem_map.mp hd
    exact ByteRange.digit_nonneg hr (ht b hb)
  induction s generalizing t with
  | nil => exact expansion_nonneg hbase (hproper t ht)
  | cons a s ih =>
      cases t with
      | nil => cases hst
      | cons b t =>
          have hs' : ∀ c ∈ s, c.toNat ≤ r.hi := fun c hc => hs c (List.mem_cons_of_mem a hc)
          have ht' : ∀ c ∈ t, r.lo ≤ c.toNat := fun c hc => ht c (List.mem_cons_of_mem b hc)
          obtain hab | ⟨rfl, hrest⟩ := isLE_cons_iff.mp hst
          · have hdigit := ByteRange.digit_lt_digit hr (hs a List.mem_cons_self)
              (ht b List.mem_cons_self) hab
            apply expansion_le_of_lt hbase hdigit
            · intro d hd
              obtain ⟨c, hc, rfl⟩ := List.mem_map.mp hd
              exact ByteRange.digit_lt_base hr (hs' c hc)
            · exact hproper t ht'
          · exact expansion_cons_le hbase _ (ih hrest hs' ht')

/-- Where the range of the fraction spans them, strings are placed in their
order. -/
theorem expansion_mono (hr : r.lo ≤ r.hi) (hst : (compare s t).isLE = true)
    (hspans : r.Spans s t) :
    expansion r.base (s.map r.digit) ≤ expansion r.base (t.map r.digit) := by
  have hbase := ByteRange.base_pos hr
  obtain ⟨front, s, t, rfl, rfl, hs, ht⟩ := hspans
  induction front with
  | nil => exact expansion_mono_of_spanned hr hst hs ht
  | cons b front ih =>
      rw [List.cons_append, List.cons_append, isLE_cons_iff] at hst
      have hrest := (hst.resolve_left (UInt8.lt_irrefl b)).2
      exact expansion_cons_le hbase _ (ih hrest)

end Order

/-! ## Texts of one bucket -/

/-- What is read of a string inside a bucket: what it does not share with both
bounds, up to the limit. -/
def reading (lo hi value : List UInt8) : List UInt8 :=
  (value.drop (commonLength value lo hi)).take stringLimit

theorem places_text_ascends {c d lo hi : List UInt8} (hlo : (compare lo c).isLE = true)
    (hcd : (compare c d).isLE = true) (hhi : (compare d hi).isLE = true)
    (hspans : (rangeOf lo hi).Spans (reading lo hi c) (reading lo hi d)) :
    letI := Number.rational log2
    Ascends (places (stringFraction (rangeOf lo hi)) c lo hi)
      (places (stringFraction (rangeOf lo hi)) d lo hi) := by
  let _ := Number.rational log2
  obtain ⟨hcut, hrest⟩ := drop_commonLength hlo hcd hhi
  have hr := rangeOf_le lo hi
  refine ⟨?_, ?_⟩
  · show stringFraction (rangeOf lo hi) (c.drop _) ≤ stringFraction (rangeOf lo hi) (d.drop _)
    rw [stringFraction_rational log2 hr, stringFraction_rational log2 hr]
    exact expansion_mono hr (compare_take stringLimit hrest) hspans
  · show (_, _) = (_, _)
    rw [hcut]

theorem convert?_text {value lo hi : String} {type boundsType : DataType}
    (htype : type.category = .string) :
    @convert? Rat (Number.rational log2) (.text value) type (.text lo) (.text hi) boundsType =
      if boundsType.isString then
        some (@places Rat (@stringFraction Rat (Number.rational log2) (rangeOf (utf8 lo) (utf8 hi)))
          (utf8 value) (utf8 lo) (utf8 hi))
      else none := by
  simp only [convert?, htype]
  rfl

end Scale

end QueryPlanner
