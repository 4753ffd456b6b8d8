/-
  QueryPlanner.Proofs.Pattern.Weight.Parts

  The parts of a byte string at the positions where they begin.

  Reading parts is local: one that ends within the bytes is read alike whatever
  comes behind it, so what is cut out of a pattern has the parts that it had in
  its place.
-/

import QueryPlanner.Proofs.Pattern.Weight.Scan

namespace QueryPlanner.PatternWeight

variable {α : Type} [Number α]
variable {bytes front : List UInt8} {mark c : UInt8} {pos next : Nat}

/-! ## Marks -/

/-- At a position stands a part and the rest at the next one.  A part that ends
within the bytes is read alike with anything behind it. -/
structure Stands (bytes : List UInt8) (pos : Nat) (p : Part) (next : Nat) : Prop where
  lt : pos < next
  parts_drop : parts (bytes.drop pos) = p :: parts (bytes.drop next)
  front : next ≤ bytes.length → ∃ front, bytes.drop pos = front ++ bytes.drop next ∧
    ∀ tail, parts (front ++ tail) = p :: parts tail

end QueryPlanner.PatternWeight
