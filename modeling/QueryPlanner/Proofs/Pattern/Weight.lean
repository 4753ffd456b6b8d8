/-
  QueryPlanner.Proofs.Pattern.Weight

  The weight of a pattern as a number above zero and not above one.

  A pattern may be malformed in any way: its parts are weighed as they come,
  and each has a factor above zero.  So every product stays above zero, and a
  sum of alternatives does too; both are cut at one where a group or the
  pattern ends.

  What this takes of the numbers is `Number.Weights`, which exact rationals
  have with any logarithm.
-/

import QueryPlanner.Pattern.Weight
import QueryPlanner.Proofs.Datum.Order

namespace QueryPlanner

open PatternWeight

/-! ## Numbers -/

/-- The number is above zero and not above one. -/
def IsWeight {α : Type} [Number α] (w : α) : Prop := 0 < w ∧ w ≤ 1

/-- Numbers above zero are closed under what weights do with them. -/
class Number.Weights (α : Type) [Number α] : Prop where
  one : (0 : α) < 1
  fixedChar : 0 < (fixedChar : α)
  charRange : 0 < (charRange : α)
  outOfRange : 0 < (1 - PatternWeight.charRange : α)
  anyChar : 0 < (anyChar : α)
  fullWildcard : 0 < (fullWildcard : α)
  partialWildcard : 0 < (partialWildcard : α)
  add {a b : α} : 0 < a → 0 < b → 0 < a + b
  mul {a b : α} : 0 < a → 0 < b → 0 < a * b
  cut {a : α} : 0 < a → IsWeight (Number.min a 1)

namespace Number

end Number

namespace PatternWeight

open Number (Weights)

variable {α : Type} [Number α]

/-! ## Parts -/

/-- The factor of a part that is no frame of a group. -/
def Part.factor : Part → α
  | .charClass negated => if negated then 1 - charRange else charRange
  | .anyChar => PatternWeight.anyChar
  | .quantifier => partialWildcard
  | .open | .close | .bar | .fixed => fixedChar

/-- The group with one more part, which at a bar begins another alternative. -/
def Group.take (g : Group α) (p : Part) : Group α :=
  if p = .bar then ⟨g.current :: g.done, 1⟩ else g.by p.factor

/-- All parts but those that open or close a group are taken by the group that
is open. -/
theorem weigh_take {g : Group α} {outer : List (Group α)} {p : Part} {ps : List Part}
    (hopen : p ≠ .open) (hclose : ¬ (p = .close ∧ outer ≠ [])) :
    weigh g outer (p :: ps) = weigh (g.take p) outer ps := by
  cases p with
  | «open» => exact absurd rfl hopen
  | close =>
      obtain rfl : outer = [] := by_contra fun hne => hclose ⟨rfl, hne⟩
      rfl
  | bar | charClass | anyChar | quantifier | fixed => rw [weigh]; rfl

variable [Weights α] {acc w : α} {g : Group α} {outer : List (Group α)}

theorem Part.factor_pos (p : Part) : 0 < (p.factor : α) := by
  cases p with
  | charClass negated =>
      cases negated with
      | true => exact Weights.outOfRange
      | false => exact Weights.charRange
  | anyChar => exact Weights.anyChar
  | quantifier => exact Weights.partialWildcard
  | «open» | close | bar | fixed => exact Weights.fixedChar

/-! ## LIKE -/

/-- Every alternative of the group is above zero. -/
structure Group.Positive (g : Group α) : Prop where
  current : 0 < g.current
  done : ∀ w ∈ g.done, 0 < w

theorem Group.Positive.by (h : g.Positive) (hw : 0 < w) : (g.by w).Positive :=
  ⟨Weights.mul h.current hw, h.done⟩

theorem Group.Positive.take (h : g.Positive) (p : Part) : (g.take p).Positive := by
  rw [Group.take]
  split
  · exact ⟨Weights.one, List.forall_mem_cons.mpr ⟨h.current, h.done⟩⟩
  · exact h.by p.factor_pos

end PatternWeight

end QueryPlanner
