/-
  QueryPlanner.Network.Address

  Internet addresses of both families as values: their octets, their
  notation and the reader of that notation.

  An IPv6 address has one canonical text: groups in lower-case hexadecimal
  without leading zeros, the first of the longest runs of two or more zero
  groups written `::`, and an IPv4-mapped address with its last 32 bits in
  dotted form.  The reader accepts every text of the two standard notations.
-/

namespace QueryPlanner

/-- An address of one of the two internet families, by its octets. -/
inductive Address where
  | v4 (octets : Vector UInt8 4)
  | v6 (octets : Vector UInt8 16)
deriving DecidableEq

namespace Address

/-- The octets, most significant first. -/
def octets : Address → List UInt8
  | .v4 o => o.toList
  | .v6 o => o.toList

/-! ## Notation -/

/-- Four octets with points between them. -/
def dotted (octets : List UInt8) : String :=
  ".".intercalate (octets.map fun o => toString o.toNat)

/-- Octets read two by two as groups of 16 bits. -/
def groups : List UInt8 → List Nat
  | hi :: lo :: rest => (hi.toNat * 256 + lo.toNat) :: groups rest
  | _ => []

/-- A group without leading zeros, in lower case. -/
def groupText (g : Nat) : String := String.ofList (Nat.toDigits 16 g)

/-- The leading zero groups of a list, counted. -/
def zeroRun (gs : List Nat) : Nat := (gs.takeWhile (· == 0)).length

/-- Start and length of the first of the longest runs of zero groups. -/
def longestZeroRun (gs : List Nat) : Nat × Nat :=
  (List.range gs.length).foldl
    (fun best i => if best.2 < zeroRun (gs.drop i) then (i, zeroRun (gs.drop i)) else best)
    (0, 0)

/-- Groups with colons between them. -/
def colons (gs : List Nat) : String := ":".intercalate (gs.map groupText)

/-- The canonical text of an IPv6 address given by its octets. -/
def compressed (octets : List UInt8) : String :=
  if octets.take 12 = [0, 0, 0, 0, 0, 0, 0, 0, 0, 0, 255, 255] then
    "::ffff:" ++ dotted (octets.drop 12)
  else
    let gs := groups octets
    let run := longestZeroRun gs
    if 1 < run.2 then colons (gs.take run.1) ++ "::" ++ colons (gs.drop (run.1 + run.2))
    else colons gs

/-- The canonical text of an address. -/
def text : Address → String
  | .v4 o => dotted o.toList
  | .v6 o => compressed o.toList

/-! ## Reading -/

/-- The value of a hexadecimal digit. -/
def hexDigit? (c : Char) : Option Nat :=
  if c.isDigit then some (c.toNat - '0'.toNat)
  else if 'a' ≤ c ∧ c ≤ 'f' then some (c.toNat - 'a'.toNat + 10)
  else if 'A' ≤ c ∧ c ≤ 'F' then some (c.toNat - 'A'.toNat + 10)
  else none

/-- A decimal octet without superfluous zeros at the front of a text. -/
def octet? (cs : List Char) : Option (UInt8 × List Char) :=
  let digits := cs.takeWhile Char.isDigit
  let value := digits.foldl (fun n c => n * 10 + (c.toNat - '0'.toNat)) 0
  if digits = [] ∨ 3 < digits.length ∨ 255 < value
      ∨ (digits.head? = some '0' ∧ 1 < digits.length) then none
  else some (UInt8.ofNat value, cs.drop digits.length)

/-- One to four hexadecimal digits at the front of a text. -/
def group? (cs : List Char) : Option (Nat × List Char) :=
  let digits := cs.takeWhile fun c => (hexDigit? c).isSome
  if digits = [] ∨ 4 < digits.length then none
  else some (digits.foldl (fun n c => n * 16 + (hexDigit? c).getD 0) 0, cs.drop digits.length)

/-- The rest of a text behind one given character. -/
def after? (c : Char) : List Char → Option (List Char)
  | d :: rest => if d = c then some rest else none
  | [] => none

/-- Four octets with points between them at the front of a text. -/
def dotted? (cs : List Char) : Option (List UInt8 × List Char) := do
  let (a, cs) ← octet? cs
  let (b, cs) ← octet? (← after? '.' cs)
  let (c, cs) ← octet? (← after? '.' cs)
  let (d, cs) ← octet? (← after? '.' cs)
  return ([a, b, c, d], cs)

/-- Groups with colons between them at the front of a text, at most `room`
of them.  A dotted address stands for two groups and ends the list; the
answer tells whether it did. -/
def groupRun (first : Bool) (cs : List Char) : Nat → List Nat × Bool × List Char
  | 0 => ([], false, cs)
  | room + 1 =>
    match if first then some cs else after? ':' cs with
    | none => ([], false, cs)
    | some body =>
      match if 0 < room then dotted? body else none with
      | some (octets, rest) => (groups octets, true, rest)
      | none =>
        match group? body with
        | none => ([], false, cs)
        | some (g, rest) =>
          let (gs, ended, left) := groupRun false rest room
          (g :: gs, ended, left)

/-- Eight groups, or fewer around one `::`. -/
def eightGroups? (cs : List Char) : Option (List Nat) :=
  match groupRun true cs 8 with
  | (gs, ended, rest) =>
    if gs.length = 8 then if rest = [] then some gs else none
    else if ended then none
    else do
      let rest ← after? ':' (← after? ':' rest)
      match groupRun true rest (7 - gs.length) with
      | (tail, _, rest) =>
        if rest = [] then some (gs ++ List.replicate (8 - gs.length - tail.length) 0 ++ tail)
        else none

/-- The address a text denotes. -/
def parse? (s : String) : Option Address :=
  match dotted? s.toList with
  | some ([a, b, c, d], []) => some (.v4 #v[a, b, c, d])
  | _ => do
    let gs ← eightGroups? s.toList
    let bytes := (gs.flatMap fun g => [UInt8.ofNat (g / 256), UInt8.ofNat (g % 256)]).toArray
    if h : bytes.size = 16 then some (.v6 ⟨bytes, h⟩) else none

end Address

end QueryPlanner
