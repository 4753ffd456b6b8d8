/-
  QueryPlanner.Pattern.Regex

  Regular expressions and the decision whether one matches somewhere in a
  text.

  An expression is followed through the text by marks on its characters: a
  character is marked when some way of reading the text so far ends with it.
  Every symbol of the text moves the marks once, so the work is the length of
  the text times the size of the expression.  Anchors depend on the place
  alone.
-/

import QueryPlanner.Pattern.CharSet

namespace QueryPlanner

/-- A regular expression. -/
inductive Regex where
  /-- Matches the empty text. -/
  | empty
  /-- Matches at the start of the text. -/
  | start
  /-- Matches at the end of the text. -/
  | stop
  | set (s : CharSet)
  | seq (a b : Regex)
  | alt (a b : Regex)
  /-- At least `lo` and at most `hi` times, without an upper bound if there is
  none. -/
  | times (a : Regex) (lo : Nat) (hi : Option Nat)
  /-- An expression in parentheses. -/
  | group (a : Regex)
deriving DecidableEq

/-- A place in a text: a character, or a byte that belongs to none. -/
abbrev Symbol := Option Char

namespace Regex

/-! ## Composition -/

/-- One expression after the other. -/
def concat : List Regex → Regex
  | [] => .empty
  | [r] => r
  | r :: rest => .seq r (concat rest)

/-- Any of some expressions. -/
def choice : List Regex → Regex
  | [] => .empty
  | [r] => r
  | r :: rest => .alt r (choice rest)

/-! ## Limits -/

/-- How deep an expression is nested: a concatenation or an alternation is one
level, however long it is. -/
def nesting : Regex → Nat
  | .empty | .start | .stop | .set _ => 0
  | .seq a (.seq b c) => max (a.nesting + 1) (Regex.seq b c).nesting
  | .alt a (.alt b c) => max (a.nesting + 1) (Regex.alt b c).nesting
  | .seq a b | .alt a b => max a.nesting b.nesting + 1
  | .times a _ _ | .group a => a.nesting + 1

/-- Matches no text but the empty one. -/
def isZeroWidth : Regex → Bool
  | .empty | .start | .stop => true
  | .set _ => false
  | .seq a b | .alt a b => a.isZeroWidth && b.isZeroWidth
  | .times a _ hi => a.isZeroWidth || hi == some 0
  | .group a => a.isZeroWidth

/-- The bounds of a repetition, at most one where more change nothing. -/
def boundsOf (a : Regex) (lo : Nat) (hi : Option Nat) : Nat × Option Nat :=
  if a.isZeroWidth then (min lo 1, some (min (hi.getD 1) 1)) else (lo, hi)

/-- The states of an automaton that reads the bytes of one character of a set. -/
def setStates (s : CharSet) : Nat :=
  match s with
  | .range lo hi => if lo = hi then lo.utf8Size else if s.isAscii then 2 else 14
  | _ => if s.isAscii then 3 else 14

/-- The states of an automaton for an expression, with repetitions written
out. -/
def stateCount : Regex → Nat
  | .empty | .start | .stop => 1
  | .set s => setStates s
  | .seq a b => a.stateCount + b.stateCount
  | .alt a b => a.stateCount + b.stateCount + 2
  | .times a lo hi =>
    let once := a.stateCount
    match boundsOf a lo hi with
    | (lo, none) => max lo 1 * once + 1
    | (lo, some hi) => lo * once + (hi - lo) * (once + 1) + 1
  | .group a => a.stateCount + 2

/-- Nested deeper than this, or with more states, a text is not read as an
expression. -/
def nestingLimit : Nat := 250
def stateLimit : Nat := 327680

def isWithinLimits (r : Regex) : Bool :=
  decide (r.nesting ≤ nestingLimit ∧ r.stateCount ≤ stateLimit)

/-! ## Marks -/

/-- A place in a text as anchors see it. -/
structure Place where
  atStart : Bool
  atStop : Bool

/-- A regular expression with its repetitions written out and marks on its
characters. -/
inductive Marked where
  | empty
  | start
  | stop
  | set (s : CharSet) (marked : Bool)
  | seq (a b : Marked)
  | alt (a b : Marked)
  | star (a : Marked)

namespace Marked

/-- An expression `n` times. -/
def power (a : Marked) (n : Nat) : Marked :=
  if _h : n ≤ 1 then if n = 0 then .empty else a
  else .seq (power a (n / 2)) (power a (n - n / 2))
termination_by n

/-- An expression, or nothing. -/
def orEmpty (a : Marked) : Marked := .alt a .empty

/-- A way of reading leaves the expression at a place, begun there if
`entered`, or at a mark. -/
def exits (p : Place) (entered : Bool) : Marked → Bool
  | .empty => entered
  | .start => entered && p.atStart
  | .stop => entered && p.atStop
  | .set _ marked => marked
  | .seq a b => exits p (exits p entered a) b
  | .alt a b => exits p entered a || exits p entered b
  | .star a => entered || exits p entered a

/-- The marks after one more symbol. -/
def advance (p : Place) (x : Symbol) (entered : Bool) : Marked → Marked
  | .set s _ => .set s (entered && x.any s.contains)
  | .seq a b => .seq (advance p x entered a) (advance p x (exits p entered a) b)
  | .alt a b => .alt (advance p x entered a) (advance p x entered b)
  | .star a => .star (advance p x (entered || exits p entered a) a)
  | a => a

/-- Some reading ends in the text, begun at any place of it or at a mark. -/
def matchesFrom (atStart : Bool) (a : Marked) : List Symbol → Bool
  | [] => exits ⟨atStart, true⟩ true a
  | x :: rest =>
    exits ⟨atStart, false⟩ true a || matchesFrom false (advance ⟨atStart, false⟩ x true a) rest

end Marked

/-- The expression with no marks. -/
def unmarked : Regex → Marked
  | .empty => .empty
  | .start => .start
  | .stop => .stop
  | .set s => .set s false
  | .seq a b => .seq a.unmarked b.unmarked
  | .alt a b => .alt a.unmarked b.unmarked
  | .times a lo hi =>
    let once := a.unmarked
    match boundsOf a lo hi with
    | (lo, none) => .seq (once.power lo) (.star once)
    | (lo, some hi) => .seq (once.power lo) (once.orEmpty.power (hi - lo))
  | .group a => a.unmarked

/-- Matches somewhere in a text. -/
def search (r : Regex) (text : List Symbol) : Bool := r.unmarked.matchesFrom true text

end Regex

end QueryPlanner
