/-
  QueryPlanner.Text.Width.Joining

  How a character joins with what follows it on the line.

  Text is measured from its end to its start, so that every character is seen
  with what it may join with: a letter that merges with the next one, a picture
  that is linked to another, a letter of a flag, a sign that has a selector
  of its style behind it.  `Follower` is what the characters behind a place come to,
  and `Follower.join?` says which characters join with it, what they add to the
  width and what they come to together.
-/

import QueryPlanner.Text.Emoji
import QueryPlanner.Text.Width.Hidden

namespace QueryPlanner.Text

/-! ## Letters that merge -/

/-- A letter with which the letter before it may merge. -/
inductive Ligature
  /-- Arabic alef, after lam. -/
  | alef
  /-- Hebrew lamed, after alef. -/
  | lamed
  /-- A Khmer letter, which goes below the one before it. -/
  | khmer
  /-- Buginese ya, after the sign i. -/
  | ya
  /-- The sign i on ya, after a. -/
  | signedYa
  /-- A Tifinagh consonant. -/
  | tifinagh
  /-- A Tifinagh consonant behind the sign that joins it. -/
  | joinedTifinagh
  /-- A Lisu tone that is written behind another one. -/
  | lisuTone
  /-- Old Turkic i, after ec. -/
  | orkhonI
deriving DecidableEq, Repr

namespace Ligature

def lamBlocks : List Block :=
  [ (0x644, 0x644), (0x6B5, 0x6B8), (0x76A, 0x76A), (0x8A6, 0x8A6), (0x8C7, 0x8C7) ]

def alefBlocks : List Block :=
  [ (0x622, 0x623), (0x625, 0x625), (0x627, 0x627), (0x671, 0x673), (0x675, 0x675)
  , (0x773, 0x774), (0x870, 0x882) ]

def khmerBlocks : List Block :=
  [ (0x1780, 0x1782), (0x1784, 0x1787), (0x1789, 0x178C), (0x178E, 0x1793), (0x1795, 0x1798)
  , (0x179B, 0x179D), (0x17A0, 0x17A0), (0x17A2, 0x17A2), (0x17A7, 0x17A7), (0x17AB, 0x17AC)
  , (0x17AF, 0x17AF) ]

def tifinaghBlocks : List Block := [ (0x2D31, 0x2D65), (0x2D6F, 0x2D6F) ]

/-- The tones that may stand before another one. -/
def firstToneBlocks : List Block := [ (0xA4F8, 0xA4FB) ]

/-- The tones that may stand behind another one. -/
def lastToneBlocks : List Block := [ (0xA4FC, 0xA4FD) ]

/-- Marks that do not keep letters from merging. -/
def ignoredBlocks : List Block :=
  [ (0x34F, 0x34F), (0x17B4, 0x17B5), (0x180B, 0x180D), (0x180F, 0x180F), (0xFE00, 0xFE0F)
  , (0xE0100, 0xE01EF) ]

/-- The part that a letter may play behind another one. -/
def of? (c : Char) : Option Ligature :=
  if c.toNat == 0x5DC then some .lamed
  else if isIn alefBlocks c then some .alef
  else if isIn khmerBlocks c then some .khmer
  else if c.toNat == 0x1A10 then some .ya
  else if isIn tifinaghBlocks c then some .tifinagh
  else if isIn lastToneBlocks c then some .lisuTone
  else if c.toNat == 0x10C03 then some .orkhonI
  else none

/-- A joiner and ignored marks may stand before the letter.  Alef has rules of its own. -/
def isPatient : Ligature → Bool
  | .alef => false
  | _ => true

end Ligature

/-! ## What follows a place -/

/-- What the characters behind a place come to, for the character at that place. -/
inductive Follower
  | plain
  /-- A picture, which a joiner may link to the one before it. -/
  | picture
  /-- A skin tone, for a body. -/
  | skinTone
  /-- The second letter of a flag. -/
  | flagLetter
  /-- A flag, or several letters of flags. -/
  | flag
  /-- A joiner with a picture behind it. -/
  | linked
  /-- The sign of a key with a linked picture behind it. -/
  | linkedKey
  /-- One letter of a flag with a linked picture behind it. -/
  | linkedLetter
  /-- Letters of flags before a linked picture, an even or an odd number of them. -/
  | linkedFlag (isOdd : Bool)
  /-- The end of the tag of a flag, of so many letters and then digits, read backwards. -/
  | tag (letters digits : Nat)
  /-- The Kirat Rai vowel sign e. -/
  | raiE
  /-- The Kirat Rai vowel sign ai, which two signs e come to as well. -/
  | raiAi
  /-- A letter that may merge, with a joiner before it or not. -/
  | ligature (l : Ligature) (hasJoiner : Bool)
deriving DecidableEq, Repr

namespace Follower

def joiner : Char := '\u200D'

/-- What a character comes to by itself. -/
def of (c : Char) : Follower :=
  if Emoji.isSkinTone c then .skinTone
  else if Emoji.isFlagLetter c then .flagLetter
  else if Emoji.isPicture c then .picture
  else if c.toNat == 0x16D67 then .raiE
  else if c.toNat == 0x16D68 then .raiAi
  else match Ligature.of? c with
    | some l => .ligature l false
    | none => .plain

/-- A character before a letter that may merge: what it adds to the width, and what both come to. -/
def merge? (l : Ligature) (hasJoiner : Bool) (c : Char) : Option (Int × Follower) :=
  if l.isPatient && c == joiner then some (0, .ligature l true)
  else if l.isPatient && isIn Ligature.ignoredBlocks c then some (0, .ligature l hasJoiner)
  else match l, hasJoiner with
    | .alef, _ =>
      if isIn Ligature.lamBlocks c then some (0, .plain)
      else if isTransparent c then some (0, .ligature .alef false) else none
    | .lamed, true => if c.toNat == 0x5D0 then some (0, .plain) else none
    | .khmer, false => if c.toNat == 0x17D2 then some (-1, .plain) else none
    | .ya, true => if c.toNat == 0x1A17 then some (0, .ligature .signedYa false) else none
    | .signedYa, false => if c.toNat == 0x1A15 then some (0, .plain) else none
    | .tifinagh, j =>
      if c.toNat == 0x2D7F then some (1, .ligature .joinedTifinagh false)
      else if j && isIn Ligature.tifinaghBlocks c then some (0, .plain) else none
    | .joinedTifinagh, false =>
      if isIn Ligature.tifinaghBlocks c then some (-1, .plain) else none
    | .lisuTone, false => if isIn Ligature.firstToneBlocks c then some (0, .plain) else none
    | .orkhonI, true => if c.toNat == 0x10C32 then some (0, .plain) else none
    | _, _ => none

/-- A character before the end of a tag.  A tag has at most six letters, or three digits. -/
def extendTag? (letters digits : Nat) (c : Char) : Option (Int × Follower) :=
  if Emoji.isTagLetter c && digits == 0 && decide (letters < 6) then some (0, .tag (letters + 1) 0)
  else if Emoji.isTagDigit c && decide (digits < 3) && (digits != 0 || decide (letters < 5)) then
    some (0, .tag letters (digits + 1))
  else if c.toNat == 0x1F3F4 && (digits == 3 || digits == 0 && decide (3 ≤ letters)) then
    some (0, .picture)
  else none

/-- A character that joins with what follows: what it adds to the width, and what both come to. -/
def join? (c : Char) : Follower → Option (Int × Follower)
  | .plain => none
  | .picture => if c == joiner then some (0, .linked) else none
  | .skinTone =>
    if c == joiner then some (0, .linked)
    else if Emoji.isBody c then some (0, .picture) else none
  | .flagLetter => if Emoji.isFlagLetter c then some (1, .flag) else none
  | .flag =>
    if c == joiner then some (0, .linked)
    else if Emoji.isFlagLetter c then some (1, .flag) else none
  | .linked =>
    if c.toNat == 0x20E3 then some (0, .linkedKey)
    else if Emoji.isFlagLetter c then some (1, .linkedLetter)
    else if Emoji.isSkinTone c then some (0, .skinTone)
    else if c.toNat == 0xE007F then some (0, .tag 0 0)
    else if Emoji.isPicture c then some (0, .picture) else none
  | .linkedKey => none
  | .linkedLetter => if Emoji.isFlagLetter c then some (-1, .linkedFlag false) else none
  | .linkedFlag isOdd =>
    if c == joiner then some (0, .linked)
    else if Emoji.isFlagLetter c then some (if isOdd then -1 else 3, .linkedFlag !isOdd) else none
  | .tag letters digits => extendTag? letters digits c
  | .raiE =>
    if c.toNat == 0x16D63 || c.toNat == 0x16D69 then some (0, .plain)
    else if c.toNat == 0x16D67 then some (0, .raiAi)
    else if c.toNat == 0x16D68 then some (1, .raiE) else none
  | .raiAi => if c.toNat == 0x16D63 then some (0, .plain) else none
  | .ligature l j => merge? l j c

/-- A picture is linked to this, so that a sign before it adds no width. -/
def isLinked : Follower → Bool
  | .linked | .linkedKey => true
  | _ => false

/-- This remains behind a selector of style that nothing takes up. -/
def isLasting : Follower → Bool
  | .ligature _ _ => true
  | _ => false

end Follower

end QueryPlanner.Text
