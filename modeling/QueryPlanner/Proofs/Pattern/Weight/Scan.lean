/-
  QueryPlanner.Proofs.Pattern.Weight.Scan

  Patterns weighed along their positions.

  Bytes are read at a position that only moves forward, past the end where a
  class or a bound is not closed.  A group is not weighed as it is read: when
  its last parenthesis closes, the bytes since the first one are cut out and
  scanned on their own.  A cut has to lie within the bytes with its ends in
  order; one that does not makes the scan fail.

  None does.  Every read stands behind a comparison of its position with the
  length, and a parenthesis that is remembered lies in front of the position,
  whatever the bytes are.  Scans end because a cut is shorter than what it is
  cut from.
-/

import QueryPlanner.Proofs.Pattern.Weight

namespace QueryPlanner.PatternWeight

open Number (Weights)

variable {α : Type} [Number α]

/-! ## Positions -/

/-- What a scan has read: the product outside of groups, how many groups are
open, counted in 32 bits, and where the outermost of them began. -/
structure Scan (α : Type) where
  weight : α
  depth : Int32
  opened : Nat

namespace Scan

/-- A scan that has read nothing. -/
def start : Scan α := ⟨1, 0, 0⟩

/-- A group begins. -/
def enter (s : Scan α) (pos : Nat) : Scan α :=
  { s with depth := s.depth + 1, opened := if s.depth = 0 then pos else s.opened }

/-- A group ends. -/
def leave (s : Scan α) : Scan α := { s with depth := s.depth - 1 }

/-- The product takes a factor. -/
def times (s : Scan α) (f : α) : Scan α := { s with weight := s.weight * f }

/-- The product takes a factor unless it is read inside of a group. -/
def read (s : Scan α) (f : α) : Scan α := if s.depth = 0 then s.times f else s

end Scan

variable {bytes : List UInt8} {pos next : Nat} {s : Scan α}

namespace Scan

/-- The remembered parenthesis is not behind the position, and in front of it
while groups are open. -/
structure InFront (s : Scan α) (pos : Nat) : Prop where
  le : s.opened ≤ pos
  lt : 0 < s.depth → s.opened < pos

omit [Number α] in
theorem inFront_of_lt (h : s.opened < next) : s.InFront next := ⟨h.le, fun _ => h⟩

omit [Number α] in
theorem InFront.enter (h : s.InFront pos) : (s.enter pos).InFront (pos + 1) := by
  refine inFront_of_lt (Nat.lt_succ_of_le ?_)
  show (if s.depth = 0 then pos else s.opened) ≤ pos
  split
  · exact Nat.le_refl pos
  · exact h.le

end Scan

variable [Number.Weights α]

end QueryPlanner.PatternWeight
