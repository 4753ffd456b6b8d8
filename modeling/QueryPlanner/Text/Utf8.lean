/-
  QueryPlanner.Text.Utf8

  Decoding of bytes that need not be valid UTF-8.  A well-formed sequence
  gives its character; a longest beginning of one that is not completed, or a
  byte that starts none, gives no character.
-/

namespace QueryPlanner.Utf8

/-- What the first byte of a sequence of two or more bytes demands: the range
of its second byte, and how many bytes follow. -/
def second? (lead : Nat) : Option (Nat × Nat × Nat) :=
  if 0xC2 ≤ lead ∧ lead ≤ 0xDF then some (0x80, 0xBF, 1)
  else if lead = 0xE0 then some (0xA0, 0xBF, 2)
  else if lead = 0xED then some (0x80, 0x9F, 2)
  else if 0xE1 ≤ lead ∧ lead ≤ 0xEF then some (0x80, 0xBF, 2)
  else if lead = 0xF0 then some (0x90, 0xBF, 3)
  else if 0xF1 ≤ lead ∧ lead ≤ 0xF3 then some (0x80, 0xBF, 3)
  else if lead = 0xF4 then some (0x80, 0x8F, 3)
  else none

/-- The payload of a first byte with `n` bytes to follow. -/
def leadBits (lead n : Nat) : Nat := lead % (1 <<< (6 - n))

/-- Reads `n` more bytes, the next one within `lo .. hi`; the character if
they are all there, and how many were taken. -/
def following (code lo hi : Nat) : Nat → List UInt8 → Option Char × Nat
  | 0, _ => (some (Char.ofNat code), 0)
  | _ + 1, [] => (none, 0)
  | n + 1, b :: rest =>
    if lo ≤ b.toNat ∧ b.toNat ≤ hi then
      let (c, taken) := following (code * 64 + b.toNat % 64) 0x80 0xBF n rest
      (c, taken + 1)
    else (none, 0)

/-- The character that starts with a byte, if any, and how many more bytes it
takes. -/
def first (b : UInt8) (rest : List UInt8) : Option Char × Nat :=
  if b.toNat < 0x80 then (some (Char.ofNat b.toNat), 0)
  else
    match second? b.toNat with
    | none => (none, 0)
    | some (lo, hi, n) => following (leadBits b.toNat n) lo hi n rest

/-- The characters of a byte string, with `none` for what is not text. -/
def decode : List UInt8 → List (Option Char)
  | [] => []
  | b :: rest => (first b rest).1 :: decode (rest.drop (first b rest).2)
termination_by bytes => bytes.length
decreasing_by simp only [List.length_drop, List.length_cons]; omega

/-- The text of a byte string, with the replacement character for what is
not text. -/
def decodeLossy (bytes : List UInt8) : List Char := (decode bytes).map (·.getD '\uFFFD')

end QueryPlanner.Utf8
