/-
  QueryPlanner.Datum.Printer

  The text of a value in messages and tables.  Numbers are written with the
  fewest digits that read back, and text is quoted but not escaped.
-/

import QueryPlanner.Datum
import QueryPlanner.Decimal

namespace QueryPlanner

/-- A double in plain notation. -/
def doubleText (x : Float) : String := Decimal.shortestText Decimal.double x

/-- A signed whole number that always shows its sign. -/
def signedText (n : Int) : String := if 0 ≤ n then "+" ++ toString n else toString n

/-- Two hexadecimal digits. -/
def hexByte (b : UInt8) : String :=
  String.ofList [(Nat.toDigits 16 (b.toNat / 16)).headD '0', (Nat.toDigits 16 (b.toNat % 16)).headD '0']

namespace Datum

/-- The text of a value. -/
def display : Datum Float → String
  | .bool v => if v then "true" else "false"
  | .int2 v => toString v.toInt
  | .int4 v => toString v.toInt
  | .int8 v => toString v.toInt
  | .float4 v => Decimal.shortestText Decimal.single v
  | .float8 v | .numeric v => doubleText v
  | .oid v => toString v.toNat
  | .char v => "'" ++ String.singleton (Char.ofNat v.toNat) ++ "'"
  | .text v => "'" ++ v ++ "'"
  | .bytea v => "[" ++ ", ".intercalate (v.map fun b => toString b.toNat) ++ "]"
  | .timestamp v => "timestamp " ++ doubleText v
  | .date d => "date " ++ toString d.toInt
  | .time v => "time " ++ doubleText v
  | .timetz t zone => "timetz " ++ doubleText t ++ signedText zone.toInt
  | .interval t months => "interval " ++ toString months.toInt ++ " mons " ++ doubleText t
  | .inet addr bits => addr.text ++ "/" ++ toString bits.toNat
  | .macaddr m => ":".intercalate (m.toList.map hexByte)

end Datum

end QueryPlanner
