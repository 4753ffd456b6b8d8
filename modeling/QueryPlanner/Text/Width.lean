/-
  QueryPlanner.Text.Width

  The columns that text takes on a terminal: two for the wide characters of
  East Asian scripts and for pictures, none for characters that only modify
  another or that are not shown, and one for most others.  Characters that join with
  what follows them take the columns of what they come to together.

  Sequences that set the style of what follows, an escape character with a
  bracket up to the letter m, are measured apart: what is shown of them is
  the escape character alone.
-/

import QueryPlanner.Text.Width.Joining
import QueryPlanner.Text.Width.Wide

namespace QueryPlanner.Text

/-! ## One character -/

/-- The columns of a character that stands alone. -/
def charWidth (c : Char) : Nat :=
  if c.toNat < 0x20 || 0x7F ≤ c.toNat && c.toNat < 0xA0 then 0
  else if c.toNat ≤ 0xA0 then 1
  else if isHidden c then 0
  else if c.toNat == 0x17D8 then 3
  else if isWide c then 2
  else 1

/-! ## A character before others -/

/-- What stands behind a place: what the characters come to, and the selectors of style before them. -/
structure Behind where
  follower : Follower
  asPicture : Bool
  asText : Bool

namespace Behind

/-- Only these characters, without a selector. -/
def of (f : Follower) : Behind := ⟨f, false, false⟩

/-- Nothing that a character joins with. -/
def start : Behind := of .plain

/-- A selector of the picture style was not taken up. -/
def withoutPicture (b : Behind) : Behind :=
  if !b.asPicture then b else if b.follower.isLasting then { b with asPicture := false } else start

/-- A selector of the text style was not taken up. -/
def withoutText (b : Behind) : Behind :=
  if !b.asText then b else if b.follower.isLasting then { b with asText := false } else start

/-- A selector of the picture style. -/
def selectPicture (b : Behind) : Behind :=
  if b.follower.isLasting then { b with asPicture := true }
  else ⟨if b.follower.isLinked then b.follower else .plain, true, false⟩

/-- A selector of the text style. -/
def selectText (b : Behind) : Behind :=
  if b.follower.isLasting then { b with asText := true } else ⟨.plain, false, true⟩

/-- A character in front: what it adds to the width, and what stands behind the place before it. -/
def cons (c : Char) (b : Behind) : Int × Behind :=
  if b.asPicture && Emoji.isStyled c then
    (if b.follower.isLinked then 0 else 2, of .picture)
  else if c.toNat ≤ 0xA0 then (1, start)
  else if c == '\uFE0F' then (0, b.withoutPicture.selectPicture)
  else if c == '\uFE0E' then (0, b.withoutPicture.selectText)
  else if b.withoutPicture.asText && Emoji.isNarrowedAsText c then (1, start)
  else match b.withoutPicture.withoutText.follower.join? c with
    | some (add, f) => (add, of f)
    | none => (charWidth c, of (.of c))

end Behind

/-! ## Text -/

/-- The columns of some characters, and what they are to a character before them. -/
def measure (cs : List Char) : Int × Behind :=
  cs.foldr (fun c m => ((Behind.cons c m.2).1 + m.1, (Behind.cons c m.2).2)) (0, Behind.start)

/-- A place within a sequence that sets the style. -/
inductive StyleState
  | outside
  | escape
  | inside

namespace StyleState

/-- The place after one more character. -/
def next (c : Char) : StyleState → StyleState
  | .outside => if c == '\x1b' then .escape else .outside
  | .escape => if c == '[' then .inside else .outside
  | .inside => if c == 'm' then .outside else .inside

/-- The characters of style sequences that would take columns if they were shown. -/
def hidden : StyleState → List Char → Nat
  | _, [] => 0
  | s, c :: cs =>
    (match s, s.next c with
      | .inside, _ | _, .inside => if charWidth c = 0 then 0 else 1
      | _, _ => 0) + hidden (s.next c) cs

end StyleState

/-- The columns that a line of text takes. -/
def width (s : String) : Nat :=
  ((measure s.toList).1 - StyleState.hidden .outside s.toList).toNat

end QueryPlanner.Text
