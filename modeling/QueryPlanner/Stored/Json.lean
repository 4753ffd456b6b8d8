/-
  QueryPlanner.Stored.Json

  Stored forms written as JSON.

  Of several members with one name the last one counts, and lists and records
  are nested at most 127 deep.
-/

import QueryPlanner.Stored.Json.Token

namespace QueryPlanner.Stored.Json

/-- Reads something in front of some tokens, and leaves the rest. -/
abbrev Reader (β : Type) := List Token → Option (β × List Token)

/-- Items with commas between them, at least one and at most `size`, and the mark that closes
them. -/
def items? {β : Type} (read : Reader β) (close : Char) : Nat → Reader (List β)
  | 0, _ => none
  | size + 1, ts => do
    match ← read ts with
    | (x, .mark c :: rest) =>
      if c = close then some ([x], rest)
      else if c = ',' then
        let (xs, rest) ← items? read close size rest
        return (x :: xs, rest)
      else none
    | _ => none

/-- A name with a value. -/
def member? (read : Reader Stored) : Reader (String × Stored)
  | .leaf (.text name) :: .mark ':' :: rest => do
    let (s, rest) ← read rest
    return ((name, s), rest)
  | _ => none

/-- The last of the members with each name. -/
def lastMembers : List (String × Stored) → List (String × Stored)
  | [] => []
  | m :: ms => if ms.any (·.1 == m.1) then lastMembers ms else m :: lastMembers ms

/-- A value whose lists and records are nested no deeper than a bound, and have at most `size` items
each. -/
def valueWithin? (size : Nat) : Nat → Reader Stored
  | _, .leaf s :: rest => some (s, rest)
  | depth + 1, .mark '[' :: rest =>
    match rest with
    | .mark ']' :: rest => some (.list [], rest)
    | rest => do
      let (xs, rest) ← items? (valueWithin? size depth) ']' size rest
      return (.list xs, rest)
  | depth + 1, .mark '\x7b' :: rest =>
    match rest with
    | .mark '\x7d' :: rest => some (.record [], rest)
    | rest => do
      let (ms, rest) ← items? (member? (valueWithin? size depth)) '\x7d' size rest
      return (.record (lastMembers ms), rest)
  | _, _ => none

/-- The stored form that a JSON text holds. -/
def read? (text : String) : Option Stored := do
  let ts ← tokens? text.toList
  match ← valueWithin? ts.length 127 ts with
  | (s, []) => return s
  | _ => none

end QueryPlanner.Stored.Json
