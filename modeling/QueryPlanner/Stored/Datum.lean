/-
  QueryPlanner.Stored.Datum

  The stored form of a value: a record with one member, named for the type.
-/

import QueryPlanner.Datum
import QueryPlanner.Stored

namespace QueryPlanner.Datum

/-- Whole numbers of bytes. -/
def storedBytes (bytes : List UInt8) : Stored := .list (bytes.map fun b => .int b.toNat)

/-- The stored form of a value. -/
def stored (d : Datum Float) : Stored :=
  .record <| List.singleton <|
    match d with
    | .bool v => ("bool", .bool v)
    | .int2 v => ("int2", .int v.toInt)
    | .int4 v => ("int4", .int v.toInt)
    | .int8 v => ("int8", .int v.toInt)
    | .float4 v => ("float4", .float v)
    | .float8 v => ("float8", .float v)
    | .numeric v => ("numeric", .float v)
    | .oid v => ("oid", .int v.toNat)
    | .char v => ("char", .int v.toNat)
    | .text v => ("text", .text v)
    | .bytea v => ("bytea", storedBytes v)
    | .timestamp v => ("timestamp", .float v)
    | .date days => ("date", .int days.toInt)
    | .time v => ("time", .float v)
    | .timetz t zone => ("timetz", .record [("time", .float t), ("zone", .int zone.toInt)])
    | .interval t months =>
      ("interval", .record [("time", .float t), ("months", .int months.toInt)])
    | .inet addr bits =>
      ("inet", .record [("addr", .text addr.text), ("bits", .int bits.toNat)])
    | .macaddr bytes => ("macaddr", storedBytes bytes.toList)

/-- Six bytes. -/
def sixBytes? (bytes : List UInt8) : Option (Vector UInt8 6) :=
  if h : bytes.toArray.size = 6 then some ⟨bytes.toArray, h⟩ else none

/-- The value of a stored form.  The parts of a value are written in digits and by their names in
either dialect. -/
def ofStored? (d : Dialect) : Stored → Option (Datum Float)
  | .record [(type, s)] =>
    match type with
    | "bool" => s.bool?.map .bool
    | "int2" => s.short?.map fun n => .int2 (Int16.ofInt n)
    | "int4" => s.int32?.map .int4
    | "int8" => s.int64?.map .int8
    | "float4" => (s.single? d).map .float4
    | "float8" => (s.number? d).map .float8
    | "numeric" => (s.number? d).map .numeric
    | "oid" => s.uint32?.map .oid
    | "char" => s.byte?.map .char
    | "text" => s.text?.map .text
    | "bytea" => (s.list? Stored.byte?).map .bytea
    | "timestamp" => (s.number? d).map .timestamp
    | "date" => s.int32?.map .date
    | "time" => (s.number? d).map .time
    | "timetz" => do
      let get ← s.record?
      return .timetz (← (← get "time").digits?) (← (← get "zone").int32?)
    | "interval" => do
      let get ← s.record?
      return .interval (← (← get "time").digits?) (← (← get "months").int32?)
    | "inet" => do
      let get ← s.record?
      return .inet (← Address.parse? (← (← get "addr").text?)) (← (← get "bits").byte?)
    | "macaddr" => do return .macaddr (← sixBytes? (← s.list? Stored.byte?))
    | _ => none
  | _ => none

end QueryPlanner.Datum
