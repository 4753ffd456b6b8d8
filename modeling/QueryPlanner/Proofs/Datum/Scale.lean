/-
  QueryPlanner.Proofs.Datum.Scale

  Placing values on a number line keeps their order.

  Bytes are placed as the digits of a fraction in base 256, and fractions lie
  as the strings of their digits do.  An address is such a fraction behind the
  number of its family, so all addresses of one family come before all of the
  next.  A binary string is placed without the prefix that it shares with the
  bounds of its bucket; two strings of one bucket share the same prefix, and
  what is left of them lies as they do.

  An interval alone is placed out of its order, because its months are counted
  with their average length on the line and with thirty days in a comparison.
-/

import Mathlib.Data.Option.Basic
import Mathlib.Tactic.FieldSimp
import Mathlib.Tactic.Linarith
import Mathlib.Tactic.NormNum
import Mathlib.Tactic.Positivity
import Mathlib.Tactic.Ring
import QueryPlanner.Datum.Scale
import QueryPlanner.Proofs.Datum.Order

namespace QueryPlanner

namespace Scale

/-! ## Fractions -/

/-- The number whose digits behind the point are bytes, in base 256. -/
def fraction : List UInt8 → Rat
  | [] => 0
  | b :: bytes => (byteNumber b + fraction bytes) / 256

@[simp] theorem fraction_nil : fraction [] = 0 := rfl

@[simp] theorem fraction_cons (b : UInt8) (bytes : List UInt8) :
    fraction (b :: bytes) = (byteNumber b + fraction bytes) / 256 := rfl

theorem fraction_nonneg (bytes : List UInt8) : 0 ≤ fraction bytes := by
  induction bytes with
  | nil => exact le_refl 0
  | cons b bytes ih =>
      have hb := byteNumber_nonneg b
      rw [fraction_cons]
      positivity

theorem fraction_lt_one (bytes : List UInt8) : fraction bytes < 1 := by
  induction bytes with
  | nil => exact zero_lt_one
  | cons b bytes ih =>
      have hb := byteNumber_le b
      rw [fraction_cons]
      linarith

theorem isLE_cons_iff {a b : UInt8} {l m : List UInt8} :
    (compare (a :: l) (b :: m)).isLE = true ↔ a < b ∨ a = b ∧ (compare l m).isLE = true := by
  rw [compare_cons, Ordering.isLE_then_iff_or, Std.compare_eq_lt,
    Std.LawfulEqOrd.compare_eq_iff_eq]

/-- Fractions lie as their digits do. -/
theorem fraction_mono {l m : List UInt8} (h : (compare l m).isLE = true) :
    fraction l ≤ fraction m := by
  induction l generalizing m with
  | nil => exact fraction_nonneg m
  | cons a l ih =>
      cases m with
      | nil => cases h
      | cons b m =>
          rw [fraction_cons, fraction_cons]
          obtain hab | ⟨rfl, hlm⟩ := isLE_cons_iff.mp h
          · -- The first digit decides, since all others together count less than one more of it.
            have hdigit : byteNumber a + 1 ≤ byteNumber b := by
              have hlt : a.toNat < b.toNat := UInt8.lt_iff_toNat_lt.mp hab
              rw [byteNumber, byteNumber]
              exact_mod_cast hlt
            have hl := fraction_lt_one l
            have hm := fraction_nonneg m
            linarith
          · have hrest := ih hlm
            linarith

/-- What two strings start with lies as they do. -/
theorem compare_take {l m : List UInt8} (n : Nat) (h : (compare l m).isLE = true) :
    (compare (l.take n) (m.take n)).isLE = true := by
  induction n generalizing l m with
  | zero => rfl
  | succ n ih =>
      cases l with
      | nil => cases m <;> rfl
      | cons a l =>
          cases m with
          | nil => cases h
          | cons b m =>
              rw [List.take_succ_cons, List.take_succ_cons, isLE_cons_iff]
              exact (isLE_cons_iff.mp h).imp_right fun h => ⟨h.1, ih h.2⟩

variable (log2 : Rat → Rat)

theorem digits256_rational (start : Rat) (bytes : List UInt8) :
    @digits256 Rat (Number.rational log2) start bytes =
      (start + fraction bytes) * 256 ^ bytes.length := by
  let _ := Number.rational log2
  show bytes.foldl (fun acc b => acc * ((256 : Int) : Rat) + ((b.toNat : Int) : Rat)) start = _
  induction bytes generalizing start with
  | nil => simp
  | cons b bytes ih =>
      rw [List.foldl_cons, ih, fraction_cons, List.length_cons, pow_succ, byteNumber]
      push_cast
      ring

theorem bytesFraction_rational (bytes : List UInt8) :
    @bytesFraction Rat (Number.rational log2) bytes = fraction (bytes.take bytesLimit) := by
  let _ := Number.rational log2
  -- Each further digit counts a part of the one before it.
  have hfold (bytes : List UInt8) (acc denominator : Rat) (h : denominator ≠ 0) :
      (bytes.foldl (fun (acc : Rat × Rat) b =>
        (acc.1 + ((b.toNat : Int) : Rat) / acc.2, acc.2 * ((256 : Int) : Rat)))
        (acc, denominator)).1 = acc + fraction bytes * 256 / denominator := by
    induction bytes generalizing acc denominator with
    | nil => simp
    | cons b bytes ih =>
        rw [List.foldl_cons, ih _ _ (mul_ne_zero h (by norm_num)), fraction_cons, byteNumber]
        push_cast
        field_simp
        ring
  have hbytes := hfold (bytes.take bytesLimit) 0 256 (by norm_num)
  rw [zero_add, mul_div_cancel_right₀ _ (by norm_num)] at hbytes
  exact hbytes

/-! ## Shared prefixes -/

/-- Two strings between the same bounds are cut alike, and what is left of them
lies as they do. -/
theorem drop_commonLength {lo c d hi : List UInt8} (hlo : (compare lo c).isLE = true)
    (hcd : (compare c d).isLE = true) (hhi : (compare d hi).isLE = true) :
    commonLength c lo hi = commonLength d lo hi ∧
      (compare (c.drop (commonLength c lo hi)) (d.drop (commonLength d lo hi))).isLE = true := by
  induction lo generalizing c d hi with
  | nil =>
      have hnone (c : List UInt8) : commonLength c [] hi = 0 := by cases c <;> rfl
      rw [hnone, hnone]
      exact ⟨rfl, hcd⟩
  | cons x lo ih =>
      cases hi with
      | nil =>
          have hnone (c : List UInt8) : commonLength c (x :: lo) [] = 0 := by cases c <;> rfl
          rw [hnone, hnone]
          exact ⟨rfl, hcd⟩
      | cons y hi =>
          obtain _ | ⟨a, c⟩ := c
          · cases hlo
          obtain _ | ⟨b, d⟩ := d
          · cases hcd
          rw [isLE_cons_iff] at hlo hcd hhi
          by_cases hxy : x = y
          · -- All four strings start alike, as the first bytes of the bounds do.
            obtain ⟨rfl, hlo'⟩ : a = x ∧ (compare lo c).isLE = true := by grind
            obtain ⟨rfl, hhi'⟩ : b = a ∧ (compare d hi).isLE = true := by grind
            have hcd' : (compare c d).isLE = true := by grind
            simpa [commonLength, hxy] using ih hlo' hcd' hhi'
          · have hnone (a : UInt8) (c : List UInt8) :
                commonLength (a :: c) (x :: lo) (y :: hi) = 0 := if_neg fun h => hxy h.2
            rw [hnone, hnone]
            exact ⟨rfl, isLE_cons_iff.mpr hcd⟩

/-! ## Families -/

open Datum (Family AtMost)

/-- Of two values of a family the one that does not come later is placed no
further on, if the family has places on the line. -/
def KeepsOrder (place : Datum Rat → Option Rat) (family : Family) : Prop :=
  ∀ c d : Datum Rat, c.family = family → c.AtMost d → Option.Rel (· ≤ ·) (place c) (place d)

theorem keepsOrder_of_none {place : Datum Rat → Option Rat} {family : Family}
    (h : ∀ d : Datum Rat, d.family = family → place d = none) : KeepsOrder place family := by
  intro c d hc hcd
  rw [h c hc, h d (hcd.family ▸ hc)]
  exact .none

/-- A value that lies at a single number is placed there. -/
theorem keepsOrder_of_place {place : Datum Rat → Option Rat} {family : Family}
    (h : ∀ d : Datum Rat, d.family = family → ∃ x, place d = some x ∧ d.place = [x]) :
    KeepsOrder place family := by
  intro c d hc hcd
  obtain ⟨x, hx, hplace⟩ := h c hc
  obtain ⟨y, hy, hplace'⟩ := h d (hcd.family ▸ hc)
  have hxy := hcd.place
  rw [hplace, hplace', compare_singleton] at hxy
  rw [hx, hy]
  exact .some (compare_le_iff_le.mp (Ordering.isLE_iff_ne_gt.mp hxy))

theorem keepsOrder_numeric (family : Family) :
    KeepsOrder (@numeric? Rat (Number.rational log2)) family := by
  cases family with
  | truth =>
      refine keepsOrder_of_place fun d hd => ?_
      cases d
      case bool v =>
        refine ⟨if v then 1 else 0, ?_, rfl⟩
        show some (if v then ((1 : Int) : Rat) else ((0 : Int) : Rat)) = _
        rw [Int.cast_one, Int.cast_zero]
      all_goals cases hd
  | number =>
      refine keepsOrder_of_place fun d hd => ?_
      cases d <;> first | exact ⟨_, rfl, rfl⟩ | cases hd
  | _ =>
      refine keepsOrder_of_none fun d hd => ?_
      cases d <;> first | rfl | cases hd

theorem keepsOrder_time {family : Family} (hfamily : family ≠ .interval) :
    KeepsOrder (@time? Rat (Number.rational log2)) family := by
  cases family with
  | instant | time | zonedTime =>
      refine keepsOrder_of_place fun d hd => ?_
      cases d
      case date days =>
        have hseconds := secondsPerDay_rational log2
        exact ⟨days.toInt * 86400, congrArg (fun x => some (_ * x)) hseconds, rfl⟩
      all_goals first | exact ⟨_, rfl, rfl⟩ | cases hd
  | interval => exact absurd rfl hfamily
  | _ =>
      refine keepsOrder_of_none fun d hd => ?_
      cases d <;> first | rfl | cases hd

/-- The number of an address: its family, then its leading bytes. -/
def addressNumber : Address → Rat
  | .v4 octets => (2 + fraction octets.toList) * 256 ^ 4
  | .v6 octets => (3 + fraction (octets.toList.take 5)) * 256 ^ 5

theorem network?_inet (a : Address) (bits : UInt8) :
    @network? Rat (Number.rational log2) (.inet a bits) = some (addressNumber a) := by
  cases a with
  | v4 octets =>
      have hlength : octets.toList.length = 4 := octets.length_toList
      have hwhole : octets.toList.take 4 = octets.toList := List.take_of_length_le hlength.le
      refine congrArg some ((digits256_rational log2 _ _).trans ?_)
      rw [hwhole, hlength, addressNumber]
  | v6 octets =>
      refine congrArg some ((digits256_rational log2 _ _).trans ?_)
      have hlength : (octets.toList.take 5).length = 5 := by simp
      rw [hlength, addressNumber]

theorem network?_macaddr (bytes : Vector UInt8 6) :
    @network? Rat (Number.rational log2) (.macaddr bytes) =
      some (fraction bytes.toList * 256 ^ 6) := by
  refine congrArg some ((digits256_rational log2 _ _).trans ?_)
  have hlength : bytes.toList.length = 6 := bytes.length_toList
  rw [hlength]
  exact congrArg (· * _) ((congrArg (· + _) Int.cast_zero).trans (zero_add _))

theorem addressNumber_mono {a b : Address} (h : (Datum.addressOrder a b).isLE = true) :
    addressNumber a ≤ addressNumber b := by
  cases a with
  | v4 o =>
      cases b with
      | v4 o' =>
          have hfraction : fraction o.toList ≤ fraction o'.toList := fraction_mono h
          rw [addressNumber, addressNumber]
          linarith
      | v6 o' =>
          have ho := fraction_lt_one o.toList
          have ho' := fraction_nonneg (o'.toList.take 5)
          rw [addressNumber, addressNumber]
          linarith
  | v6 o =>
      cases b with
      | v4 o' => cases h
      | v6 o' =>
          have hfraction := fraction_mono (compare_take 5 h)
          rw [addressNumber, addressNumber]
          exact mul_le_mul_of_nonneg_right (add_le_add_right hfraction 3) (by norm_num)

theorem keepsOrder_network (family : Family) :
    KeepsOrder (@network? Rat (Number.rational log2)) family := by
  cases family with
  | address =>
      intro c d hc hcd
      have hd := hcd.family ▸ hc
      obtain ⟨a, bits, rfl⟩ := Datum.eq_inet_of_family hc
      obtain ⟨b, bits', rfl⟩ := Datum.eq_inet_of_family hd
      have horder := hcd.place
      rw [Datum.compare_version, Ordering.isLE_then_iff_or] at horder
      rw [network?_inet, network?_inet]
      refine .some (addressNumber_mono ?_)
      -- Behind equal addresses the netmasks decide, which the line does not show.
      obtain h | ⟨h, -⟩ := horder <;> rw [h] <;> rfl
  | hardware =>
      intro c d hc hcd
      have hd := hcd.family ▸ hc
      obtain ⟨bytes, rfl⟩ := Datum.eq_macaddr_of_family hc
      obtain ⟨bytes', rfl⟩ := Datum.eq_macaddr_of_family hd
      have horder := hcd.place
      rw [Datum.place, Datum.place, compare_map compare_byteNumber] at horder
      rw [network?_macaddr, network?_macaddr]
      exact .some (mul_le_mul_of_nonneg_right (fraction_mono horder) (by norm_num))
  | _ =>
      refine keepsOrder_of_none fun d hd => ?_
      cases d <;> first | rfl | cases hd

/-! ## Buckets -/

/-- Two values are placed in one bucket, the second no less far on. -/
def Ascends (t u : Rat × Rat × Rat) : Prop := t.1 ≤ u.1 ∧ t.2 = u.2

theorem triple?_ascends {place : Datum Rat → Option Rat} {c d : Datum Rat}
    (h : KeepsOrder place c.family) (hcd : c.AtMost d) (lo hi : Datum Rat) :
    Option.Rel Ascends (triple? place c lo hi) (triple? place d lo hi) := by
  have hplace := h c d rfl hcd
  rw [triple?, triple?]
  generalize place c = x, place d = y at hplace
  cases hplace with
  | none => exact .none
  | some hxy =>
      cases place lo with
      | none => exact .none
      | some l =>
          cases place hi with
          | none => exact .none
          | some u => exact .some ⟨hxy, rfl⟩

theorem places_ascends {c d lo hi : List UInt8} (hlo : (compare lo c).isLE = true)
    (hcd : (compare c d).isLE = true) (hhi : (compare d hi).isLE = true) :
    letI := Number.rational log2
    Ascends (places bytesFraction c lo hi) (places bytesFraction d lo hi) := by
  let _ := Number.rational log2
  obtain ⟨hcut, hrest⟩ := drop_commonLength hlo hcd hhi
  refine ⟨?_, ?_⟩
  · show bytesFraction (c.drop _) ≤ bytesFraction (d.drop _)
    rw [bytesFraction_rational, bytesFraction_rational]
    exact fraction_mono (compare_take bytesLimit hrest)
  · show (_, _) = (_, _)
    rw [hcut]

theorem convert?_of_not_bytes {c lo hi : Datum Rat} {type boundsType : DataType}
    (htype : type.category = .bytes) (hc : c.family ≠ .bytes) :
    @convert? Rat (Number.rational log2) c type lo hi boundsType = none := by
  simp only [convert?, htype]
  cases c <;> first | rfl | exact absurd rfl hc

/-- Two values in one bucket are placed there in their order, or neither of
them is placed. -/
theorem convert?_ascends {c d lo hi : Datum Rat} {type : DataType}
    (htype : type.category ≠ .string) (hinterval : c.family ≠ .interval) (hcd : c.AtMost d)
    (hlo : lo.family = c.family → lo.AtMost c) (hhi : hi.family = d.family → d.AtMost hi)
    (boundsType : DataType) :
    letI := Number.rational log2
    Option.Rel Ascends (convert? c type lo hi boundsType) (convert? d type lo hi boundsType) := by
  let _ := Number.rational log2
  cases hcategory : type.category with
  | string => exact absurd hcategory htype
  | boolean | numeric =>
      simp only [convert?, hcategory]
      exact triple?_ascends (keepsOrder_numeric log2 _) hcd lo hi
  | dateTime =>
      simp only [convert?, hcategory]
      exact triple?_ascends (keepsOrder_time log2 hinterval) hcd lo hi
  | network =>
      simp only [convert?, hcategory]
      exact triple?_ascends (keepsOrder_network log2 _) hcd lo hi
  | bytes =>
      by_cases hbytes : c.family = .bytes
      · have hbytes' := hcd.family ▸ hbytes
        obtain ⟨b, rfl⟩ := Datum.eq_bytea_of_family hbytes
        obtain ⟨b', rfl⟩ := Datum.eq_bytea_of_family hbytes'
        have horder {l m : List UInt8} (h : (Datum.bytea l).AtMost (.bytea m)) :
            (compare l m).isLE = true := by
          have hplace := h.place
          rwa [Datum.place, Datum.place, compare_map compare_byteNumber] at hplace
        simp only [convert?, hcategory]
        cases lo
        case bytea l =>
          cases hi
          case bytea u =>
            exact .some (places_ascends log2 (horder (hlo rfl)) (horder hcd) (horder (hhi rfl)))
          all_goals exact .none
        all_goals exact .none
      · rw [convert?_of_not_bytes log2 hcategory hbytes,
          convert?_of_not_bytes log2 hcategory (hcd.family ▸ hbytes)]
        exact .none

end Scale

end QueryPlanner
