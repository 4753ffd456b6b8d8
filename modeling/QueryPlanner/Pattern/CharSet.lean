/-
  QueryPlanner.Pattern.CharSet

  Sets of characters, as a class of a regular expression describes them.
-/

import QueryPlanner.Pattern.CaseFold

namespace QueryPlanner

/-- A set of characters. -/
inductive CharSet where
  /-- No character. -/
  | none
  /-- The characters between two, both included. -/
  | range (lo hi : Char)
  /-- The characters that differ from a member in case only. -/
  | anyCase (s : CharSet)
  | not (s : CharSet)
  | union (s t : CharSet)
  | inter (s t : CharSet)
  | minus (s t : CharSet)
  /-- The members of one of two sets that are not in the other. -/
  | differ (s t : CharSet)
deriving DecidableEq

namespace CharSet

def contains : CharSet → Char → Bool
  | .none, _ => false
  | .range lo hi, c => lo ≤ c && c ≤ hi
  | .anyCase s, c => s.contains c || (CaseFold.variants c).any s.contains
  | .not s, c => !s.contains c
  | .union s t, c => s.contains c || t.contains c
  | .inter s t, c => s.contains c && t.contains c
  | .minus s t, c => s.contains c && !t.contains c
  | .differ s t, c => s.contains c != t.contains c

/-- The set is described by ASCII characters alone, so that its members take one byte each. -/
def isAscii : CharSet → Bool
  | .none => true
  | .range _ hi => decide (hi.toNat < 128)
  | .anyCase s => s.isAscii
  | .not _ => false
  | .union s t | .differ s t => s.isAscii && t.isAscii
  | .inter s t => s.isAscii || t.isAscii
  | .minus s _ => s.isAscii

/-- One character. -/
def only (c : Char) : CharSet := .range c c

/-- Every character but the line feed. -/
def dot : CharSet := .not (only '\n')

/-- The union of some ranges. -/
def ofRanges (rs : List (Char × Char)) : CharSet :=
  rs.foldl (fun s r => .union s (.range r.1 r.2)) .none

/-- The set without regard to case, if asked for. -/
def folded (anyCase : Bool) (s : CharSet) : CharSet := if anyCase then .anyCase s else s

end CharSet

end QueryPlanner
