/-
  QueryPlanner.Stored.Json.Token

  The tokens of JSON text: marks of its structure, and the values that hold no
  others.

  A number without a point and without an exponent is whole if it fits
  sixty-four bits, with a sign or without one; all other numbers are read as
  the nearest double, and one beyond the doubles is refused.  Zero below zero is no
  whole number.  A half of a surrogate pair is no text.
-/

import QueryPlanner.Stored

namespace QueryPlanner.Stored.Json

/-- A token. -/
inductive Token where
  /-- A bracket, a brace, a comma or a colon. -/
  | mark (c : Char)
  | leaf (s : Stored)

/-! ## Numbers -/

/-- The number of some decimal digits. -/
def ofDigits (ds : List Char) : Nat := ds.foldl (fun n c => n * 10 + (c.toNat - '0'.toNat)) 0

/-- A magnitude with its sign. -/
def signed (negative : Bool) (x : Float) : Float := if negative then -x else x

/-- A number written by its digits alone. -/
def whole (negative : Bool) (n : Nat) : Stored :=
  if negative then
    if 0 < n ∧ n ≤ 1 <<< 63 then .int (-n) else .float (signed true (Decimal.nearestDouble n 1))
  else if n < UInt64.size then .int n else .float (Decimal.nearestDouble n 1)

/-- The double nearest to `units * 10 ^ exponent`, if it is finite.  Powers that are out of reach are
not worked out. -/
def scaled? (units : Nat) (exponent : Int) : Option Float :=
  let magnitude := (Decimal.digitCount units : Int) + exponent
  if units = 0 ∨ magnitude < -400 then some 0.0
  else if 400 < magnitude then none
  else
    let x :=
      if 0 ≤ exponent then Decimal.nearestDouble (units * Nat.pow 10 exponent.toNat) 1
      else Decimal.nearestDouble units (Nat.pow 10 (-exponent).toNat)
    if x.isInf then none else some x

/-- Digits in front of a text, at least one, and the rest. -/
def digits? (cs : List Char) : Option (List Char × List Char) :=
  match cs.takeWhile Char.isDigit with
  | [] => none
  | ds => some (ds, cs.dropWhile Char.isDigit)

/-- The digits behind a point, none without one. -/
def fraction? : List Char → Option (List Char × List Char)
  | '.' :: cs => digits? cs
  | cs => some ([], cs)

/-- The digits of an exponent, which ends the number. -/
def power? (cs : List Char) : Option Nat := do
  let (ds, rest) ← digits? cs
  if rest = [] then some (ofDigits ds) else none

/-- An exponent, zero without one. -/
def exponent? : List Char → Option Int
  | [] => some 0
  | e :: cs =>
    if e = 'e' ∨ e = 'E' then
      match cs with
      | '-' :: cs => (power? cs).map fun n => -n
      | '+' :: cs => (power? cs).map fun n => n
      | cs => (power? cs).map fun n => n
    else none

/-- A number without its sign. -/
def unsigned? (negative : Bool) (cs : List Char) : Option Stored := do
  let (ds, rest) ← digits? cs
  if ds.head? = some '0' ∧ 1 < ds.length then none
  else if rest = [] then some (whole negative (ofDigits ds))
  else
    let (places, rest) ← fraction? rest
    let x ← scaled? (ofDigits (ds ++ places)) ((← exponent? rest) - places.length)
    return .float (signed negative x)

/-- The number that a text is. -/
def number? : List Char → Option Stored
  | '-' :: cs => unsigned? true cs
  | cs => unsigned? false cs

/-- The characters that numbers are written with. -/
def isNumeric (c : Char) : Bool := c.isDigit || ['-', '+', '.', 'e', 'E'].contains c

/-! ## Text -/

/-- A part of a quoted text: a character, or a unit of sixteen bits. -/
inductive Piece where
  | char (c : Char)
  | unit (n : Nat)

/-- A hexadecimal digit. -/
def hexDigit? (c : Char) : Option Nat :=
  if c.isDigit then some (c.toNat - '0'.toNat)
  else if 'a' ≤ c ∧ c ≤ 'f' then some (c.toNat - 'a'.toNat + 10)
  else if 'A' ≤ c ∧ c ≤ 'F' then some (c.toNat - 'A'.toNat + 10)
  else none

/-- The character that a letter stands for behind a backslash. -/
def escaped? (c : Char) : Option Char :=
  match c with
  | '"' | '\\' | '/' => some c
  | 'b' => some '\x08'
  | 'f' => some '\x0c'
  | 'n' => some '\n'
  | 'r' => some '\r'
  | 't' => some '\t'
  | _ => none

/-- The parts of a text up to its closing quote, and what follows the quote. -/
def pieces? : List Char → Option (List Piece × List Char)
  | [] => none
  | '"' :: cs => some ([], cs)
  | '\\' :: 'u' :: a :: b :: c :: d :: cs => do
    let n := 4096 * (← hexDigit? a) + 256 * (← hexDigit? b) + 16 * (← hexDigit? c) + (← hexDigit? d)
    let (ps, rest) ← pieces? cs
    return (.unit n :: ps, rest)
  | '\\' :: e :: cs => do
    let c ← escaped? e
    let (ps, rest) ← pieces? cs
    return (.char c :: ps, rest)
  | c :: cs => do
    if c.toNat < 0x20 ∨ c = '\\' then none
    else
      let (ps, rest) ← pieces? cs
      return (.char c :: ps, rest)

/-- The characters of some parts; two halves of a surrogate pair make one character. -/
def characters? : List Piece → Option (List Char)
  | [] => some []
  | .char c :: ps => (c :: ·) <$> characters? ps
  | .unit n :: .unit m :: ps =>
    if 0xD800 ≤ n ∧ n < 0xDC00 then
      if 0xDC00 ≤ m ∧ m < 0xE000 then
        (Char.ofNat (0x10000 + (n - 0xD800) * 0x400 + (m - 0xDC00)) :: ·) <$> characters? ps
      else none
    else if 0xDC00 ≤ n ∧ n < 0xE000 then none
    else (Char.ofNat n :: ·) <$> characters? (.unit m :: ps)
  | .unit n :: ps =>
    if 0xD800 ≤ n ∧ n < 0xE000 then none else (Char.ofNat n :: ·) <$> characters? ps

/-- The text up to its closing quote, and what follows the quote. -/
def quoted? (cs : List Char) : Option (String × List Char) := do
  let (ps, rest) ← pieces? cs
  return (String.ofList (← characters? ps), rest)

/-! ## Tokens -/

def isBlank (c : Char) : Bool := [' ', '\t', '\n', '\r'].contains c

def isMark (c : Char) : Bool := ['[', ']', '\x7b', '\x7d', ',', ':'].contains c

/-- A value that is written as a word. -/
def word? (cs : List Char) : Option Stored :=
  match String.ofList cs with
  | "null" => some .null
  | "true" => some (.bool true)
  | "false" => some (.bool false)
  | _ => none

/-- The tokens of a text of bounded length. -/
def tokensWithin? : Nat → List Char → Option (List Token)
  | _, [] => some []
  | 0, _ => none
  | n + 1, c :: cs =>
    if isBlank c then tokensWithin? n cs
    else if isMark c then (.mark c :: ·) <$> tokensWithin? n cs
    else if c = '"' then do
      let (s, rest) ← quoted? cs
      (.leaf (.text s) :: ·) <$> tokensWithin? n rest
    else if isNumeric c then do
      let x ← number? (c :: cs.takeWhile isNumeric)
      (.leaf x :: ·) <$> tokensWithin? n (cs.dropWhile isNumeric)
    else do
      let x ← word? (c :: cs.takeWhile Char.isAlpha)
      (.leaf x :: ·) <$> tokensWithin? n (cs.dropWhile Char.isAlpha)

/-- The tokens of a text. -/
def tokens? (cs : List Char) : Option (List Token) := tokensWithin? cs.length cs

end QueryPlanner.Stored.Json
