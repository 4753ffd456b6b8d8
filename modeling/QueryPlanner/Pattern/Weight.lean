/-
  QueryPlanner.Pattern.Weight

  The fraction of values that a pattern is guessed to match, from its text
  alone: every character narrows the result, every wildcard widens it.
-/

import QueryPlanner.Error
import QueryPlanner.Pattern

namespace QueryPlanner.PatternWeight

variable {α : Type} [Number α]

/-- A character that has to be there. -/
def fixedChar : α := 0.20

/-- A character out of a class. -/
def charRange : α := 0.25

/-- Any character; less than one, since it needs one. -/
def anyChar : α := 0.9

/-- A run of any characters. -/
def fullWildcard : α := 5

/-- A quantifier. -/
def partialWildcard : α := 2

/-! ## LIKE -/

/-- The factors of a LIKE pattern, multiplied up from the left. -/
def likeFactors (acc : α) : List UInt8 → α
  | [] => acc
  | c :: rest =>
    if c = Like.percent then likeFactors (acc * fullWildcard) rest
    else if c = Like.underscore then likeFactors (acc * anyChar) rest
    else if c = Like.backslash then
      match rest with
      | [] => acc
      | _ :: after => likeFactors (acc * fixedChar) after
    else likeFactors (acc * fixedChar) rest

/-- The weight of a LIKE pattern. -/
def ofLike (anyCase : Bool) : Datum α → Except (PlanError α) α
  | .text s => .ok (Number.min (likeFactors 1 (utf8 s)) 1)
  | .bytea b =>
    if anyCase then .error .caseInsensitiveBytes else .ok (Number.min (likeFactors 1 b) 1)
  | d => .error (.notAPattern d)

/-! ## Regular expressions -/

/-- What the parts of a regular expression do to its weight. -/
inductive Part where
  | open
  | close
  | bar
  | charClass (negated : Bool)
  | anyChar
  | quantifier
  | fixed
deriving DecidableEq

/-- The bytes behind the first closing mark. -/
def behind (mark : UInt8) (bytes : List UInt8) : List UInt8 :=
  (bytes.dropWhile (· != mark)).drop 1

/-- The bytes behind a class, from behind its bracket and negation. -/
def behindClass (bytes : List UInt8) : List UInt8 :=
  behind 93 (if bytes.head? = some 93 then bytes.drop 1 else bytes)

theorem length_behind_le (mark : UInt8) (bytes : List UInt8) :
    (behind mark bytes).length ≤ bytes.length := by
  have h := (List.dropWhile_suffix (l := bytes) (· != mark)).length_le
  simp only [behind, List.length_drop]
  omega

theorem length_behindClass_le (bytes : List UInt8) :
    (behindClass bytes).length ≤ bytes.length := by
  unfold behindClass
  split
  · have h := length_behind_le 93 (bytes.drop 1)
    simp only [List.length_drop] at h
    omega
  · exact length_behind_le 93 bytes

/-- The parts of a byte string; unfinished classes, bounds and escapes end
with it. -/
def parts : List UInt8 → List Part
  | [] => []
  | c :: rest =>
    if c = 40 then .open :: parts rest
    else if c = 41 then .close :: parts rest
    else if c = 124 then .bar :: parts rest
    else if c = 91 then
      if rest.head? = some 94 then .charClass true :: parts (behindClass (rest.drop 1))
      else .charClass false :: parts (behindClass rest)
    else if c = 46 then .anyChar :: parts rest
    else if c = 42 ∨ c = 63 ∨ c = 43 then .quantifier :: parts rest
    else if c = 123 then .quantifier :: parts (behind 125 rest)
    else if c = 92 then
      match rest with
      | [] => []
      | _ :: after => .fixed :: parts after
    else .fixed :: parts rest
termination_by bytes => bytes.length
decreasing_by
  all_goals simp only [List.length_cons]
  all_goals first
    | omega
    | (have h := length_behindClass_le rest; omega)
    | (have h := length_behind_le 125 rest; omega)
    | (have h := length_behindClass_le (rest.drop 1)
       simp only [List.length_drop] at h
       omega)

/-- A group being weighed: its finished alternatives, latest first, and the
product of the current one. -/
structure Group (α : Type) where
  done : List α
  current : α

/-- A group without parts. -/
def Group.fresh : Group α := ⟨[], 1⟩

/-- The weight of a group: alternatives add up, from the last one on, and
never exceed one. -/
def Group.total (g : Group α) : α :=
  g.done.foldl (fun acc w => Number.min (w + acc) 1) (Number.min g.current 1)

/-- A group with one more factor. -/
def Group.by (g : Group α) (w : α) : Group α := { g with current := g.current * w }

/-- Weighs parts with the innermost group first.  A group that is never
closed counts for nothing, and a parenthesis that closes none is a plain
character. -/
def weigh : Group α → List (Group α) → List Part → α
  | g, outer, [] => (outer.getLast?.getD g).total
  | g, outer, .open :: rest => weigh .fresh (g :: outer) rest
  | g, parent :: outer, .close :: rest => weigh (parent.by g.total) outer rest
  | g, [], .close :: rest => weigh (g.by fixedChar) [] rest
  | g, outer, .bar :: rest => weigh ⟨g.current :: g.done, 1⟩ outer rest
  | g, outer, .charClass negated :: rest =>
    weigh (g.by (if negated then 1 - charRange else charRange)) outer rest
  | g, outer, .anyChar :: rest => weigh (g.by anyChar) outer rest
  | g, outer, .quantifier :: rest => weigh (g.by partialWildcard) outer rest
  | g, outer, .fixed :: rest => weigh (g.by fixedChar) outer rest

/-- The weight of a byte string read as a regular expression. -/
def regexBytes (bytes : List UInt8) : α := weigh .fresh [] (parts bytes)

/-- The bytes before an unescaped end anchor. -/
def beforeEndAnchor? (bytes : List UInt8) : Option (List UInt8) :=
  if bytes.getLast? = some 36 ∧ bytes.dropLast.getLast? ≠ some Like.backslash then
    some bytes.dropLast
  else none

/-- The weight of a regular expression; one without an end anchor matches
with anything behind it. -/
def ofRegex : Datum α → Except (PlanError α) α
  | .text s =>
    match beforeEndAnchor? (utf8 s) with
    | some bytes => .ok (regexBytes bytes)
    | none => .ok (Number.min (regexBytes (utf8 s) * fullWildcard) 1)
  | .bytea _ => .error .regexOnBytes
  | d => .error (.notAPattern d)

/-- The weight of a pattern. -/
def ofPattern (kind : PatternType) (pattern : Datum α) : Except (PlanError α) α :=
  match kind with
  | .like | .likeAnyCase => ofLike kind.anyCase pattern
  | .regex | .regexAnyCase => ofRegex pattern

end QueryPlanner.PatternWeight
