/-
  QueryPlanner.Proofs.Datum.Order

  The order of values.

  Exchanging two values reverses how they compare, or they compare in neither
  order.  In exact numbers more holds: every value has a family and a place,
  values of two families do not compare, and values of one family compare as
  their places do.  A place is a list of numbers, read from the left, so the
  laws of the order are those of lists.
-/

import Mathlib.Algebra.Order.Ring.Rat
import Mathlib.Data.Rat.Cast.Order
import Mathlib.Order.Compare
import QueryPlanner.Datum
import QueryPlanner.Proofs.Number

namespace QueryPlanner

/-! ## Exchanged values -/

section Swap

variable {α : Type} [Number α] [Number.Ordered α]

theorem Number.compare?_swap (a b : α) : compare? b a = (compare? a b).map Ordering.swap := by
  have hlt := Ordered.lt_iff (a := a) (b := b)
  have hgt := Ordered.lt_iff (a := b) (b := a)
  simp only [compare?, equal_iff]
  by_cases hab : a ≤ b <;> by_cases hba : b ≤ a <;> simp [hlt, hgt, hab, hba]

namespace Datum

omit [Number α] [Number.Ordered α] in
theorem addressOrder_swap (a b : Address) : addressOrder b a = (addressOrder a b).swap := by
  cases a <;> cases b <;> first | rfl | exact Std.OrientedOrd.eq_swap

/-- Values are compared by numbers or by strings, or not at all, whichever
comes first. -/
theorem compare?_swap (l r : Datum α) : r.compare? l = (l.compare? r).map Ordering.swap := by
  cases l <;> cases r
  case inet.inet a bits a' bits' =>
    show some ((addressOrder a' a).then (compare bits' bits)) =
      some ((addressOrder a a').then (compare bits bits')).swap
    have hbits : compare bits' bits = (compare bits bits').swap := Std.OrientedOrd.eq_swap
    rw [Ordering.swap_then, addressOrder_swap, hbits]
  all_goals first
    | rfl
    | exact Number.compare?_swap _ _
    | exact congrArg some Std.OrientedOrd.eq_swap

end Datum

end Swap

/-! ## Lists -/

section Lists

variable {β γ : Type} [Ord β] [Ord γ]

/-- A map that keeps the order of elements keeps the order of lists. -/
theorem compare_map {f : β → γ} (hf : ∀ a b, compare (f a) (f b) = compare a b) (l m : List β) :
    compare (l.map f) (m.map f) = compare l m := by
  simp only [List.compare_eq_compareLex]
  induction l generalizing m with
  | nil => cases m <;> rfl
  | cons a l ih =>
      cases m with
      | nil => rfl
      | cons b m => simp only [List.map_cons, List.compareLex_cons_cons, hf, ih]

/-- Lists are compared by what they start with, if this is of one length. -/
theorem compare_append {l m : List β} (h : l.length = m.length) (l' m' : List β) :
    compare (l ++ l') (m ++ m') = (compare l m).then (compare l' m') := by
  simp only [List.compare_eq_compareLex]
  induction l generalizing m with
  | nil =>
      obtain rfl := List.length_eq_zero_iff.mp h.symm
      rfl
  | cons a l ih =>
      cases m with
      | nil => cases h
      | cons b m =>
          simp only [List.cons_append, List.compareLex_cons_cons, ih (Nat.succ.inj h),
            Ordering.then_assoc]

theorem compare_cons (a b : β) (l m : List β) :
    compare (a :: l) (b :: m) = (compare a b).then (compare l m) := by
  simp only [List.compare_eq_compareLex, List.compareLex_cons_cons]

theorem compare_singleton (a b : β) : compare [a] [b] = compare a b := by
  rw [compare_cons]
  cases compare a b <;> rfl

end Lists

/-! ## Rationals -/

/-- Rationals always compare. -/
theorem Number.compare?_rational (log2 : Rat → Rat) (a b : Rat) :
    @compare? Rat (rational log2) a b = some (compare a b) := by
  let _ := rational log2
  have hordered := ordered_rational log2
  rw [compare?_eq_some (le_refl a) (le_refl b)]
  obtain h | rfl | h := lt_trichotomy a b
  · rw [if_pos h.le, if_neg h.not_ge, compare_lt_iff_lt.mpr h]
  · rw [if_pos (le_refl a), if_pos (le_refl a), compare_eq_iff_eq.mpr rfl]
  · rw [if_neg h.not_ge, compare_gt_iff_gt.mpr h]

section Readings

variable (log2 : Rat → Rat)

/-- Among rationals an integer is itself. -/
theorem Number.ofInt_rational (n : Int) : @ofInt Rat (rational log2) n = n := rfl

theorem Number.ofNat_rational (n : Nat) : @ofNat Rat (rational log2) n = (n : Int) := rfl

/-- Among rationals the smaller value is the minimum. -/
theorem Number.min_rational (a b : Rat) :
    letI := rational log2
    Number.min a b = min a b := by
  show (if a ≤ a then if b < a then b else a else b) = min a b
  rw [if_pos (le_refl a), min_comm, min_def_lt]

theorem Number.max_rational (a b : Rat) :
    letI := rational log2
    Number.max a b = max a b := by
  show (if a ≤ a then if a < b then b else a else b) = max a b
  rw [if_pos (le_refl a), max_def_lt]

theorem secondsPerDay_rational : @secondsPerDay Rat (Number.rational log2) = 86400 := by
  show (((86400 : Nat) : Int) : Rat) = 86400
  norm_num

end Readings

/-- A byte as a number. -/
def byteNumber (b : UInt8) : Rat := b.toNat

theorem byteNumber_nonneg (b : UInt8) : 0 ≤ byteNumber b := Nat.cast_nonneg b.toNat

theorem byteNumber_le (b : UInt8) : byteNumber b ≤ 255 := by
  have hb : b.toNat ≤ 255 := Nat.le_of_lt_succ b.toNat_lt
  rw [byteNumber]
  exact_mod_cast hb

theorem compare_byteNumber (a b : UInt8) : compare (byteNumber a) (byteNumber b) = compare a b := by
  unfold byteNumber
  obtain h | h | h := lt_trichotomy a.toNat b.toNat
  · rw [Std.compare_eq_lt.mpr (UInt8.lt_iff_toNat_lt.mpr h),
      compare_lt_iff_lt.mpr (Nat.cast_lt.mpr h)]
  · obtain rfl := UInt8.toNat_inj.mp h
    have hsame : compare a a = .eq := Std.ReflCmp.compare_self
    rw [hsame, compare_eq_iff_eq.mpr rfl]
  · rw [Std.compare_eq_gt.mpr (UInt8.lt_iff_toNat_lt.mpr h),
      compare_gt_iff_gt.mpr (Nat.cast_lt.mpr h)]

theorem compare_intCast (a b : Int) : compare (a : Rat) (b : Rat) = compare a b := by
  obtain h | rfl | h := lt_trichotomy a b
  · rw [compare_lt_iff_lt.mpr h, compare_lt_iff_lt.mpr (Int.cast_lt.mpr h)]
  · rw [compare_eq_iff_eq.mpr rfl, compare_eq_iff_eq.mpr rfl]
  · rw [compare_gt_iff_gt.mpr h, compare_gt_iff_gt.mpr (Int.cast_lt.mpr h)]

namespace Datum

/-- What values have to share to compare. -/
inductive Family where
  | truth | text | byte | bytes | number | instant | time | zonedTime | interval | address
  | hardware
deriving DecidableEq

def family : Datum Rat → Family
  | .bool _ => .truth
  | .text _ => .text
  | .char _ => .byte
  | .bytea _ => .bytes
  | .int2 _ | .int4 _ | .int8 _ | .float4 _ | .float8 _ | .numeric _ | .oid _ => .number
  | .timestamp _ | .date _ => .instant
  | .time _ => .time
  | .timetz .. => .zonedTime
  | .interval .. => .interval
  | .inet .. => .address
  | .macaddr _ => .hardware

theorem eq_bytea_of_family {d : Datum Rat} (h : d.family = .bytes) : ∃ b, d = .bytea b := by
  cases d <;> first | exact ⟨_, rfl⟩ | cases h

theorem eq_inet_of_family {d : Datum Rat} (h : d.family = .address) :
    ∃ a bits, d = .inet a bits := by
  cases d <;> first | exact ⟨_, _, rfl⟩ | cases h

theorem eq_macaddr_of_family {d : Datum Rat} (h : d.family = .hardware) :
    ∃ bytes, d = .macaddr bytes := by
  cases d <;> first | exact ⟨_, rfl⟩ | cases h

/-- The families of addresses by number. -/
def version : Address → Rat
  | .v4 _ => 4
  | .v6 _ => 6

/-- Where a value lies among those of its family. -/
def place : Datum Rat → List Rat
  | .bool v => [if v then 1 else 0]
  | .text s => (utf8 s).map byteNumber
  | .char c => [byteNumber c]
  | .bytea b => b.map byteNumber
  | .int2 v => [v.toInt]
  | .int4 v => [v.toInt]
  | .int8 v => [v.toInt]
  | .float4 v | .float8 v | .numeric v | .timestamp v | .time v => [v]
  | .oid v => [(v.toNat : Int)]
  | .date days => [days.toInt * 86400]
  | .timetz t zone => [t + zone.toInt]
  | .interval t months => [t + months.toInt * 30 * 86400]
  | .inet a bits => version a :: (a.octets.map byteNumber ++ [byteNumber bits])
  | .macaddr bytes => bytes.toList.map byteNumber

theorem compare_version (a b : Address) (bits bits' : UInt8) :
    compare (place (.inet a bits)) (place (.inet b bits')) =
      (addressOrder a b).then (compare bits bits') := by
  have hversions : compare (4 : Rat) 6 = .lt := compare_lt_iff_lt.mpr (by norm_num)
  have hversions' : compare (6 : Rat) 4 = .gt := compare_gt_iff_gt.mpr (by norm_num)
  have hsame (x : Rat) : compare x x = .eq := compare_eq_iff_eq.mpr rfl
  rw [place, place, compare_cons]
  cases a <;> cases b
  case v4.v6 => rw [version, version, hversions]; rfl
  case v6.v4 => rw [version, version, hversions']; rfl
  all_goals
    rw [compare_append (by simp [Address.octets]), compare_map compare_byteNumber,
      compare_singleton, compare_byteNumber]
    simp only [version, hsame, Ordering.then]
    rfl

/-- Values of one family are compared by their places, values of two not at
all. -/
theorem compare?_rational (log2 : Rat → Rat) (l r : Datum Rat) :
    @compare? Rat (Number.rational log2) l r =
      if l.family = r.family then some (compare l.place r.place) else none := by
  let _ := Number.rational log2
  cases l <;> cases r
  case bool.bool v w => cases v <;> cases w <;> rfl
  case inet.inet a bits b bits' => exact congrArg some (compare_version a b bits bits').symm
  all_goals first
    | rfl
    | simp only [compare?, integer?, number?, instant?, intervalSeconds, family, place,
        Number.compare?_rational, compare_singleton, compare_intCast, Number.ofInt_rational,
        Number.ofNat_rational, secondsPerDay_rational, compare_map compare_byteNumber,
        compare_byteNumber, if_true]

/-! ## Types -/

/-- The types that have a value. -/
def types {α : Type} : Datum α → List DataType
  | .bool _ => [.bool]
  | .int2 _ => [.int2]
  | .int4 _ => [.int4]
  | .int8 _ => [.int8]
  | .float4 _ => [.float4]
  | .float8 _ => [.float8]
  | .numeric _ => [.numeric]
  | .oid _ => [.oid]
  | .char _ => [.char]
  | .text _ => [.name, .text, .varchar, .bpchar]
  | .bytea _ => [.bytea]
  | .timestamp _ => [.timestamp, .timestamptz]
  | .date _ => [.date]
  | .time _ => [.time]
  | .timetz .. => [.timetz]
  | .interval .. => [.interval]
  | .inet .. => [.inet, .cidr]
  | .macaddr _ => [.macaddr]

/-- What the values of a type share. -/
def Family.ofType : DataType → Family
  | .bool => .truth
  | .int2 | .int4 | .int8 | .float4 | .float8 | .numeric | .oid => .number
  | .char => .byte
  | .name | .text | .varchar | .bpchar => .text
  | .bytea => .bytes
  | .timestamp | .timestamptz | .date => .instant
  | .time => .time
  | .timetz => .zonedTime
  | .interval => .interval
  | .inet | .cidr => .address
  | .macaddr => .hardware

theorem Family.ofType_ne_interval {type : DataType} (h : type ≠ .interval) :
    ofType type ≠ .interval := by
  cases type <;> first | exact absurd rfl h | decide

theorem family_of_types (d : Datum Rat) : ∀ type ∈ d.types, d.family = .ofType type := by
  cases d <;> simp [types, family, Family.ofType]

/-- Two values of one family, the second not before the first. -/
structure AtMost (c d : Datum Rat) : Prop where
  family : c.family = d.family
  place : (compare c.place d.place).isLE = true

/-- Two values of one type always compare. -/
theorem atMost_of_types {log2 : Rat → Rat} {c d : Datum Rat} {type : DataType}
    (hc : type ∈ c.types) (hd : type ∈ d.types)
    (h : @compare? Rat (Number.rational log2) c d ≠ some .gt) : c.AtMost d := by
  have hfamily : c.family = d.family :=
    (c.family_of_types type hc).trans (d.family_of_types type hd).symm
  rw [compare?_rational, if_pos hfamily] at h
  exact ⟨hfamily, Ordering.isLE_iff_ne_gt.mpr fun hgt => h (congrArg some hgt)⟩

end Datum

end QueryPlanner
