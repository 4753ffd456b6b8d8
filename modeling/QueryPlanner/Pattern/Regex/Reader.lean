/-
  QueryPlanner.Pattern.Regex.Reader

  Reading of regular expressions: literals, anchors, `.`, classes, groups,
  alternation, the quantifiers `* + ? {n} {n,} {n,m}` with their lazy forms,
  and escaped punctuation.  A text outside this grammar is no expression, and
  neither is one that is too deep or too large.

  The text is first cut into tokens; the tokens are then read from left to
  right with a stack of open groups.
-/

import QueryPlanner.Pattern.Regex.Class

namespace QueryPlanner.Regex

/-! ## Tokens -/

inductive Token where
  | open
  | close
  | bar
  /-- An expression that stands for itself. -/
  | atom (r : Regex)
  /-- The preceding expression repeated. -/
  | times (lo : Nat) (hi : Option Nat)

/-- Blanks, which may stand around a number. -/
def isBlank (c : Char) : Bool :=
  c.isWhitespace || ['\x0b', '\x0c', '\u0085', '\u00a0', '\u1680', '\u2028', '\u2029', '\u202f',
    '\u205f', '\u3000'].contains c || ('\u2000' ≤ c && c ≤ '\u200a')

/-- A decimal number of 32 bits at the front of a text, and its length with
the blanks around it. -/
def number? (cs : List Char) : Option (Nat × Nat) :=
  let before := (cs.takeWhile isBlank).length
  let digits := (cs.drop before).takeWhile Char.isDigit
  let after := ((cs.drop (before + digits.length)).takeWhile isBlank).length
  let n := digits.foldl (fun n c => n * 10 + (c.toNat - '0'.toNat)) 0
  if digits = [] ∨ UInt32.size ≤ n then none else some (n, before + digits.length + after)

/-- Bounds behind an opening brace, and how many characters they take. -/
def bounds? (cs : List Char) : Option (Nat × Option Nat × Nat) :=
  match number? cs with
  | none => none
  | some (lo, k) =>
    match cs.drop k with
    | '}' :: _ => some (lo, some lo, k + 1)
    | ',' :: '}' :: _ => some (lo, none, k + 2)
    | ',' :: rest =>
      match number? rest with
      | none => none
      | some (hi, m) =>
        if (rest.drop m).head? = some '}' ∧ lo ≤ hi then some (lo, some hi, k + m + 2) else none
    | _ => none

/-- A quantifier, with the mark of its lazy form. -/
def quantifier (lo : Nat) (hi : Option Nat) (k : Nat) (rest : List Char) : Token × Nat :=
  (.times lo hi, if (rest.drop k).head? = some '?' then k + 1 else k)

/-- A character that stands for itself. -/
def literal (anyCase : Bool) (c : Char) : Token := .atom (.set ((CharSet.only c).folded anyCase))

/-- The token that starts with `c`, and how many more characters it takes. -/
def token? (anyCase : Bool) (c : Char) (rest : List Char) : Option (Token × Nat) :=
  match c with
  | '(' =>
    match rest with
    | '?' :: ':' :: _ => some (.open, 2)
    | '?' :: _ => none
    | _ => some (.open, 0)
  | ')' => some (.close, 0)
  | '|' => some (.bar, 0)
  | '^' => some (.atom .start, 0)
  | '$' => some (.atom .stop, 0)
  | '.' => some (.atom (.set .dot), 0)
  | '*' => some (quantifier 0 none 0 rest)
  | '+' => some (quantifier 1 none 0 rest)
  | '?' => some (quantifier 0 (some 1) 0 rest)
  | '{' => (bounds? rest).map fun (lo, hi, k) => quantifier lo hi k rest
  | '[' => (charClass? anyCase rest).map fun (s, k) => (.atom (.set s), k)
  | '\\' =>
    match rest with
    | 'A' :: _ => some (.atom .start, 1)
    | 'z' :: _ => some (.atom .stop, 1)
    | _ => (character? c rest).map fun (d, k) => (literal anyCase d, k)
  | c => (character? c rest).map fun (d, k) => (literal anyCase d, k)

/-- The tokens of a text. -/
def tokens? (anyCase : Bool) : List Char → Option (List Token)
  | [] => some []
  | c :: cs =>
    match token? anyCase c cs with
    | none => none
    | some (t, k) => (tokens? anyCase (cs.drop k)).map (t :: ·)
termination_by cs => cs.length
decreasing_by simp only [List.length_drop, List.length_cons]; omega

/-! ## Expressions -/

/-- A group being read: its finished alternatives and the factors of the
current one, both latest first. -/
structure Group where
  done : List Regex := []
  factors : List Regex := []

/-- The concatenation of the current factors. -/
def Group.current (g : Group) : Regex := concat g.factors.reverse

/-- The expression of a finished group. -/
def Group.close (g : Group) : Regex := choice (g.current :: g.done).reverse

/-- Reads tokens with the innermost group first and the enclosing ones
behind it. -/
def assemble : Group → List Group → List Token → Option Regex
  | g, [], [] => some g.close
  | _, _ :: _, [] => none
  | g, outer, .open :: rest => assemble {} (g :: outer) rest
  | _, [], .close :: _ => none
  | g, parent :: outer, .close :: rest =>
    assemble { parent with factors := .group g.close :: parent.factors } outer rest
  | g, outer, .bar :: rest => assemble ⟨g.current :: g.done, []⟩ outer rest
  | g, outer, .atom r :: rest => assemble { g with factors := r :: g.factors } outer rest
  | g, outer, .times lo hi :: rest =>
    match g.factors with
    | [] => none
    | r :: before => assemble { g with factors := .times r lo hi :: before } outer rest

/-- The expression a text denotes. -/
def parse? (anyCase : Bool) (cs : List Char) : Option Regex := do
  let r ← assemble {} [] (← tokens? anyCase cs)
  if r.isWithinLimits then some r else none

end QueryPlanner.Regex
