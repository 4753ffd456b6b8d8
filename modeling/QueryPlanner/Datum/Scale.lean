/-
  QueryPlanner.Datum.Scale

  Values placed on a common number line, so that a value can be found inside
  a histogram bucket by linear interpolation.

  Strings are read as fractions, in a base that covers the bytes of the
  bounds; a prefix common to the value and both bounds says nothing about the
  place in the bucket and is left out.
-/

import QueryPlanner.Datum

namespace QueryPlanner.Scale

variable {α : Type} [Number α]

/-! ## Numbers, times and addresses -/

def numeric? : Datum α → Option α
  | .bool v => some (if v then 1 else 0)
  | d => d.number?

/-- Seconds; months count with their average length. -/
def time? : Datum α → Option α
  | .timestamp v | .time v => some v
  | .date d => some (Number.ofInt d.toInt * secondsPerDay)
  | .timetz t zone => some (t + Number.ofInt zone.toInt)
  | .interval t months => some (t + Number.ofInt months.toInt * (daysPerMonth * secondsPerDay))
  | _ => none

/-- Bytes as digits in base 256 behind a leading number. -/
def digits256 (start : α) (bytes : List UInt8) : α :=
  bytes.foldl (fun acc b => acc * 256 + Number.ofNat b.toNat) start

/-- The address family, then the leading bytes. -/
def network? : Datum α → Option α
  | .inet (.v4 octets) _ => some (digits256 2 (octets.toList.take 4))
  | .inet (.v6 octets) _ => some (digits256 3 (octets.toList.take 5))
  | .macaddr bytes => some (digits256 0 bytes.toList)
  | _ => none

/-! ## Strings -/

/-- Leading bytes that three strings have in common. -/
def commonLength : List UInt8 → List UInt8 → List UInt8 → Nat
  | a :: as, b :: bs, c :: cs => if a = b ∧ b = c then commonLength as bs cs + 1 else 0
  | _, _, _ => 0

/-- A range of byte values. -/
structure ByteRange where
  lo : Nat
  hi : Nat

/-- The range with one more byte in it. -/
def ByteRange.extend (r : ByteRange) (b : Nat) : ByteRange := ⟨min r.lo b, max r.hi b⟩

/-- A class of characters is covered whole or not at all. -/
def ByteRange.cover (r : ByteRange) (cls : ByteRange) : ByteRange :=
  if r.lo ≤ cls.hi ∧ cls.lo ≤ r.hi then ⟨min r.lo cls.lo, max r.hi cls.hi⟩ else r

/-- Capital letters, small letters and digits. -/
def characterClasses : List ByteRange := [⟨65, 90⟩, ⟨97, 122⟩, ⟨48, 57⟩]

/-- The bytes that strings between two bounds are taken to be made of; too
narrow a range gives way to all of ASCII. -/
def rangeOf (lo hi : List UInt8) : ByteRange :=
  let first := (hi.head?.map UInt8.toNat).getD 0
  let seen := (lo ++ hi).foldl (fun r b => r.extend b.toNat) ⟨first, first⟩
  let wide := characterClasses.foldl ByteRange.cover seen
  if wide.hi - wide.lo < 9 then ⟨32, 127⟩ else wide

/-- Only this many bytes of a string are looked at. -/
def stringLimit : Nat := 20

/-- A fraction whose digits are the bytes, in a base that holds the range and
one value beyond either end. -/
def stringFraction (r : ByteRange) (bytes : List UInt8) : α :=
  let lo : α := Number.ofNat r.lo
  let hi : α := Number.ofNat r.hi
  let base := hi - lo + 1
  ((bytes.take stringLimit).foldl (fun (acc : α × α) b =>
    let digit := Number.min (Number.max (Number.ofNat b.toNat) (lo - 1)) (hi + 1)
    (acc.1 + (digit - lo) / acc.2, acc.2 * base)) (0, base)).1

/-- Only this many bytes of a binary string are looked at. -/
def bytesLimit : Nat := 10

/-- A fraction whose digits are the bytes, in base 256. -/
def bytesFraction (bytes : List UInt8) : α :=
  ((bytes.take bytesLimit).foldl (fun (acc : α × α) b =>
    (acc.1 + Number.ofNat b.toNat / acc.2, acc.2 * 256)) (0, 256)).1

/-- Three byte strings placed by one fraction, without what they have in
common. -/
def places (fraction : List UInt8 → α) (value lo hi : List UInt8) : α × α × α :=
  let k := commonLength value lo hi
  (fraction (value.drop k), fraction (lo.drop k), fraction (hi.drop k))

/-! ## Values -/

/-- Places a value and the bounds of its bucket with one placement. -/
def triple? (place : Datum α → Option α) (value lo hi : Datum α) : Option (α × α × α) := do
  return (← place value, ← place lo, ← place hi)

/-- A value and the bounds of its bucket on one number line, if their types
share one. -/
def convert? (value : Datum α) (type : DataType) (lo hi : Datum α) (boundsType : DataType) :
    Option (α × α × α) :=
  match type.category with
  | .boolean | .numeric => triple? numeric? value lo hi
  | .string =>
    if boundsType.isString then do
      let (v, l, h) := (← value.bytes?, ← lo.bytes?, ← hi.bytes?)
      return places (stringFraction (rangeOf l h)) v l h
    else none
  | .bytes =>
    match value, lo, hi with
    | .bytea v, .bytea l, .bytea h => some (places bytesFraction v l h)
    | _, _, _ => none
  | .dateTime => triple? time? value lo hi
  | .network => triple? network? value lo hi

end QueryPlanner.Scale
