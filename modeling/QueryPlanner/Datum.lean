/-
  QueryPlanner.Datum

  Data types and the typed scalar values that appear as constants and in
  column statistics.

  `Datum.compare?` orders two values of one family and is undefined between
  families; `=` tells apart any two values that are represented differently.
-/

import QueryPlanner.Network.Address
import QueryPlanner.Number

namespace QueryPlanner

/-- Identifier of a catalog object. -/
abbrev Oid := UInt32

/-! ## Types -/

/-- The data types of columns and constants. -/
inductive DataType where
  | bool | int2 | int4 | int8 | float4 | float8 | numeric | oid
  | char | name | text | varchar | bpchar | bytea
  | timestamp | timestamptz | date | time | timetz | interval
  | inet | cidr | macaddr
deriving DecidableEq, Repr

/-- Families of types whose values share a number line. -/
inductive TypeCategory where
  | boolean | numeric | string | bytes | dateTime | network
deriving DecidableEq

namespace DataType

/-- Every type, in catalog order. -/
def all : List DataType :=
  [.bool, .int2, .int4, .int8, .float4, .float8, .numeric, .oid,
   .char, .name, .text, .varchar, .bpchar, .bytea,
   .timestamp, .timestamptz, .date, .time, .timetz, .interval,
   .inet, .cidr, .macaddr]

/-- The name a type is written with. -/
def label : DataType → String
  | .bool => "bool" | .int2 => "int2" | .int4 => "int4" | .int8 => "int8"
  | .float4 => "float4" | .float8 => "float8" | .numeric => "numeric" | .oid => "oid"
  | .char => "char" | .name => "name" | .text => "text" | .varchar => "varchar"
  | .bpchar => "bpchar" | .bytea => "bytea" | .timestamp => "timestamp"
  | .timestamptz => "timestamptz" | .date => "date" | .time => "time"
  | .timetz => "timetz" | .interval => "interval" | .inet => "inet" | .cidr => "cidr"
  | .macaddr => "macaddr"

/-- The type of a name. -/
def ofName? (s : String) : Option DataType := all.find? fun t => t.label == s

def category : DataType → TypeCategory
  | .bool => .boolean
  | .int2 | .int4 | .int8 | .float4 | .float8 | .numeric | .oid => .numeric
  | .char | .name | .text | .varchar | .bpchar => .string
  | .bytea => .bytes
  | .timestamp | .timestamptz | .date | .time | .timetz | .interval => .dateTime
  | .inet | .cidr | .macaddr => .network

def isString (t : DataType) : Bool := t.category = .string

/-- Stored width in bytes; types of varying length have a flat guess. -/
def defaultWidth : DataType → Int32
  | .bool | .char => 1
  | .int2 => 2
  | .int4 | .float4 | .oid | .date => 4
  | .int8 | .float8 | .timestamp | .timestamptz | .time => 8
  | .timetz => 12
  | .interval => 16
  | .macaddr => 6
  | .name => 64
  | .numeric | .text | .varchar | .bpchar | .bytea | .inet | .cidr => 32

end DataType

def TypeCategory.name : TypeCategory → String
  | .boolean => "Boolean" | .numeric => "Numeric" | .string => "String"
  | .bytes => "Bytes" | .dateTime => "DateTime" | .network => "Network"

/-! ## Values -/

/-- A typed scalar value.  Times count seconds, dates count days; `text`
serves every character type but the single byte `char`. -/
inductive Datum (α : Type) where
  | bool (v : Bool)
  | int2 (v : Int16)
  | int4 (v : Int32)
  | int8 (v : Int64)
  | float4 (v : α)
  | float8 (v : α)
  | numeric (v : α)
  | oid (v : UInt32)
  | char (v : UInt8)
  | text (v : String)
  | bytea (v : List UInt8)
  | timestamp (v : α)
  | date (days : Int32)
  | time (v : α)
  | timetz (time : α) (zone : Int32)
  | interval (time : α) (months : Int32)
  | inet (addr : Address) (bits : UInt8)
  | macaddr (bytes : Vector UInt8 6)
deriving DecidableEq

/-- The bytes of a text in UTF-8. -/
def utf8 (s : String) : List UInt8 := s.toByteArray.data.toList

/-- Seconds per day. -/
def secondsPerDay {α : Type} [Number α] : α := 86400

/-- Days per month, on average. -/
def daysPerMonth {α : Type} [Number α] : α := 365.25 / 12

namespace Datum

/-- The bytes of a string-like value. -/
def bytes? {α : Type} : Datum α → Option (List UInt8)
  | .text s => some (utf8 s)
  | .bytea b => some b
  | .char c => some [c]
  | _ => none

variable {α : Type} [Number α]

/-- The value of an exact integer type. -/
def integer? : Datum α → Option Int
  | .int2 v => some v.toInt
  | .int4 v => some v.toInt
  | .int8 v => some v.toInt
  | .oid v => some v.toNat
  | _ => none

/-- The value of a numeric type as a number. -/
def number? : Datum α → Option α
  | .int2 v => some (Number.ofInt v.toInt)
  | .int4 v => some (Number.ofInt v.toInt)
  | .int8 v => some (Number.ofInt v.toInt)
  | .float4 v | .float8 v | .numeric v => some v
  | .oid v => some (Number.ofNat v.toNat)
  | _ => none

/-- A point in time in seconds. -/
def instant? : Datum α → Option α
  | .timestamp v => some v
  | .date d => some (Number.ofInt d.toInt * secondsPerDay)
  | _ => none

/-- Address family first, then the octets. -/
def addressOrder (a b : Address) : Ordering :=
  match a, b with
  | .v4 _, .v6 _ => .lt
  | .v6 _, .v4 _ => .gt
  | a, b => compare a.octets b.octets

/-- An interval in seconds, with months of thirty days. -/
def intervalSeconds (time : α) (months : Int32) : α :=
  time + Number.ofInt months.toInt * 30 * secondsPerDay

/-- How two values of one family lie to each other. -/
def compare? : Datum α → Datum α → Option Ordering
  | .bool l, .bool r => some (compare l r)
  | .text l, .text r => some (compare (utf8 l) (utf8 r))
  | .char l, .char r => some (compare l r)
  | .bytea l, .bytea r => some (compare l r)
  | .time l, .time r => Number.compare? l r
  | .timetz l lz, .timetz r rz =>
    Number.compare? (l + Number.ofInt lz.toInt) (r + Number.ofInt rz.toInt)
  | .interval l lm, .interval r rm =>
    Number.compare? (intervalSeconds l lm) (intervalSeconds r rm)
  | .inet l lb, .inet r rb => some ((addressOrder l r).then (compare lb rb))
  | .macaddr l, .macaddr r => some (compare l.toList r.toList)
  | l, r =>
    match l.integer?, r.integer? with
    | some l, some r => some (compare l r)
    | _, _ =>
      match l.number?, r.number? with
      | some l, some r => Number.compare? l r
      | _, _ =>
        match l.instant?, r.instant? with
        | some l, some r => Number.compare? l r
        | _, _ => none

end Datum

end QueryPlanner
