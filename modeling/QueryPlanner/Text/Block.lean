/-
  QueryPlanner.Text.Block

  Sets of characters, given as blocks of code points.
-/

namespace QueryPlanner.Text

/-- The first and the last code point of a run of characters. -/
abbrev Block := Nat × Nat

/-- The character lies in one of the blocks. -/
def isIn (blocks : List Block) (c : Char) : Bool :=
  blocks.any fun b => decide (b.1 ≤ c.toNat ∧ c.toNat ≤ b.2)

end QueryPlanner.Text
