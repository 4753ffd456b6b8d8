/-
  QueryPlanner.Stored

  The form in which statistics and settings are stored and exchanged: trees
  of records, lists, text and numbers.

  Whole numbers and fractions are told apart, and a whole number may stand for
  a fraction but not the other way round.  Two dialects are read: stored files,
  in which a record may be given as the list of its members in order, and
  queries, in which numbers without digits are written as words and a member
  that is null counts as left out.
-/

import QueryPlanner.Decimal

namespace QueryPlanner

/-- A stored value. -/
inductive Stored where
  | null
  | bool (b : Bool)
  | int (n : Int)
  | float (x : Float)
  | text (s : String)
  | list (items : List Stored)
  | record (members : List (String × Stored))

/-- What may be written in a stored form. -/
inductive Dialect where
  | file
  | query
deriving DecidableEq

namespace Stored

/-! ## Reading -/

def bool? : Stored → Option Bool
  | .bool b => some b
  | _ => none

def text? : Stored → Option String
  | .text s => some s
  | _ => none

/-- A whole number within bounds. -/
def int? (lo hi : Int) : Stored → Option Int
  | .int n => if lo ≤ n ∧ n ≤ hi then some n else none
  | _ => none

/-- A whole number from zero to a bound. -/
def nat? (hi : Nat) (s : Stored) : Option Nat := (s.int? 0 hi).map Int.toNat

def byte? (s : Stored) : Option UInt8 := (s.nat? 255).map UInt8.ofNat

def uint32? (s : Stored) : Option UInt32 := (s.nat? (UInt32.size - 1)).map UInt32.ofNat

/-- A whole number of sixteen bits with a sign. -/
def short? (s : Stored) : Option Int := s.int? Int16.minValue.toInt Int16.maxValue.toInt

def int32? (s : Stored) : Option Int32 :=
  (s.int? Int32.minValue.toInt Int32.maxValue.toInt).map Int32.ofInt

def int64? (s : Stored) : Option Int64 :=
  (s.int? Int64.minValue.toInt Int64.maxValue.toInt).map Int64.ofInt

/-- A count, of sixty-four bits. -/
def size? (s : Stored) : Option Nat := s.nat? (UInt64.size - 1)

/-- Numbers that have no digits, and zero below zero. -/
def word? (s : String) : Option Float :=
  match s with
  | "nan" => some (0.0 / 0.0)
  | "inf" => some (1.0 / 0.0)
  | "-inf" => some (-1.0 / 0.0)
  | "-0" => some (-0.0)
  | _ => none

/-- The double nearest to a whole number. -/
def nearest (n : Int) : Float :=
  let size := Decimal.nearestDouble n.natAbs 1
  if n < 0 then -size else size

/-- A number written in digits; a whole one is rounded to the nearest double. -/
def digits? : Stored → Option Float
  | .int n => some (nearest n)
  | .float x => some x
  | _ => none

/-- A number. -/
def number? (d : Dialect) : Stored → Option Float
  | .text s => if d = .query then word? s else none
  | s => s.digits?

/-- A number as the nearest single, which is a double again.  In files a whole number is rounded to a
single at once, in queries like all others by way of a double. -/
def single? (d : Dialect) : Stored → Option Float
  | .int n =>
    let size : Int := Decimal.nearestWhole Decimal.single n.natAbs
    some <| if d = .file then nearest (if n < 0 then -size else size)
      else (nearest n).toFloat32.toFloat
  | s => (s.number? d).map fun x => x.toFloat32.toFloat

def list? {β : Type} (read : Stored → Option β) : Stored → Option (List β)
  | .list items => items.mapM read
  | _ => none

/-- The value with a name, written as the name, or as a record with nothing
under the name. -/
def choice? {β : Type} (all : List β) (label : β → String) : Stored → Option β
  | .text s | .record [(s, .null)] => all.find? fun b => label b == s
  | _ => none

/-- The members of a record by name. -/
def record? : Stored → Option (String → Option Stored)
  | .record members => some fun k => members.lookup k
  | _ => none

/-- The members of a record in a file, which may be given by name or in order. -/
def members? (names : List String) : Stored → Option (String → Option Stored)
  | .list items =>
    if items.length ≤ names.length then some fun k => items[names.idxOf k]? else none
  | s => s.record?

/-- A member that may be left out. -/
def memberOr {β : Type} (get : String → Option Stored) (name : String) (default : β)
    (read : Stored → Option β) : Option β :=
  match get name with
  | some s => read s
  | none => some default

/-! ## Reading queries -/

/-- A member, null if it is left out. -/
def member (s : Stored) (name : String) : Stored :=
  match s with
  | .record members => (members.lookup name).getD .null
  | _ => .null

/-- The first of some names that has a member, with the member. -/
def firstOf? (names : List String) (s : Stored) : Option (String × Stored) :=
  names.findSome? fun name =>
    match s.member name with
    | .null => none
    | m => some (name, m)

/-- The first of some names that has a member, be it null, with the member. -/
def namedFirst? (names : List String) : Stored → Option (String × Stored)
  | .record members => names.findSome? fun name => (members.lookup name).map fun m => (name, m)
  | _ => none

/-- A value that may be left out. -/
def optional? {β : Type} (read : Stored → Option β) : Stored → Option (Option β)
  | .null => some none
  | s => (read s).map some

/-- A value with a default. -/
def getD {β : Type} (default : β) (read : Stored → Option β) (s : Stored) : Option β :=
  (s.optional? read).map (·.getD default)

/-- A list, empty if it is left out. -/
def items? {β : Type} (read : Stored → Option β) (s : Stored) : Option (List β) :=
  s.getD [] (list? read)

/-- A value by its name. -/
def named? {β : Type} (all : List β) (label : β → String) (s : Stored) : Option β := do
  let name ← s.text?
  all.find? fun b => label b == name

mutual

/-- How deep a stored form is nested. -/
def height : Stored → Nat
  | .list items => heightOfItems items + 1
  | .record members => heightOfMembers members + 1
  | _ => 0

def heightOfItems : List Stored → Nat
  | [] => 0
  | s :: rest => max s.height (heightOfItems rest)

def heightOfMembers : List (String × Stored) → Nat
  | [] => 0
  | (_, s) :: rest => max s.height (heightOfMembers rest)

end

end Stored

end QueryPlanner
