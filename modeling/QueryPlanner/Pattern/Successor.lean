/-
  QueryPlanner.Pattern.Successor

  An upper bound for the values that start with a prefix: a string greater
  than every extension of the prefix.
-/

import QueryPlanner.Datum
import QueryPlanner.Text.Utf8

namespace QueryPlanner.Successor

/-- The bytes with their last byte that can grow made one larger, and the
rest dropped; the bytes are given last first. -/
def bumpReversed : List UInt8 → Option (List UInt8)
  | [] => none
  | b :: before => if b < 255 then some ((b + 1) :: before) else bumpReversed before

/-- The least byte string above every one that starts with these bytes. -/
def ofBytes (bytes : List UInt8) : Option (List UInt8) :=
  (bumpReversed bytes.reverse).map List.reverse

/-- The bytes above a given one, in order. -/
def above (b : UInt8) : List UInt8 :=
  (List.range (255 - b.toNat)).map fun i => UInt8.ofNat (b.toNat + 1 + i)

/-- The first character that has the bytes of another but for a larger last one.  The characters
before it keep their bytes, so a text with its last byte raised is valid just when its last character
is. -/
def raiseLastByte (c : Char) : Option Char :=
  let bytes := utf8 (String.ofList [c])
  (above (bytes.getLastD 255)).findSome? fun b =>
    match Utf8.decode (bytes.dropLast ++ [b]) with
    | [d] => d
    | _ => none

/-- A text above every one that starts with these characters, given last
first: characters that cannot grow are dropped. -/
def raiseReversed : List Char → Option (List Char)
  | [] => none
  | c :: before =>
    match raiseLastByte c with
    | some d => some (d :: before)
    | none => raiseReversed before

/-- A text above every one that starts with a text. -/
def ofText (s : String) : Option String :=
  (raiseReversed s.toList.reverse).map fun cs => String.ofList cs.reverse

/-- A string above every one of its type that starts with a value. -/
def ofDatum {α : Type} : Datum α → Option (Datum α)
  | .bytea b => (ofBytes b).map .bytea
  | .text s => (ofText s).map .text
  | _ => none

end QueryPlanner.Successor
