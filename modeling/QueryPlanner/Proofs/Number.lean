/-
  QueryPlanner.Proofs.Number

  The number line under the estimates.

  `Number` fixes operations and no laws.  What the choice of paths relies on
  is that `≤` and `<` are the comparisons of one line, on which a value that
  is no number has no place; `Number.Ordered` says so, and both instances of
  `Number` have it.  Doubles get it from a rank: the model of a double is
  compared by sign, then exponent, then mantissa, which is the order of
  triples.
-/

import Mathlib.Data.Prod.Lex
import Mathlib.Order.Compare
import Mathlib.Tactic.NormNum
import QueryPlanner.Number

namespace QueryPlanner

/-- The comparisons are those of a line, and the values off the line are
exactly those that do not compare with themselves. -/
class Number.Ordered (α : Type) [Number α] : Prop where
  le_trans {a b c : α} : a ≤ b → b ≤ c → a ≤ c
  le_total {a b : α} : a ≤ a → b ≤ b → a ≤ b ∨ b ≤ a
  lt_iff {a b : α} : a < b ↔ a ≤ b ∧ ¬ b ≤ a

namespace Number

section Laws

variable {α : Type} [Number α] {a b : α}

theorem isNaN_eq_false_iff : isNaN a = false ↔ a ≤ a := by
  simp only [isNaN, Bool.not_eq_false', decide_eq_true_eq]

theorem equal_iff : equal a b = true ↔ a ≤ b ∧ b ≤ a := by
  simp only [equal, Bool.and_eq_true, decide_eq_true_eq]

variable [Ordered α]

theorem lt_of_not_le (ha : a ≤ a) (hb : b ≤ b) (h : ¬ a ≤ b) : b < a :=
  Ordered.lt_iff.mpr ⟨(Ordered.le_total ha hb).resolve_left h, h⟩

/-- Two values on the line always compare, and as the line says. -/
theorem compare?_eq_some (ha : a ≤ a) (hb : b ≤ b) :
    compare? a b = some (if a ≤ b then if b ≤ a then .eq else .lt else .gt) := by
  unfold compare?
  by_cases hab : a ≤ b
  · by_cases hba : b ≤ a
    · have hlt : ¬ a < b := fun h => (Ordered.lt_iff.mp h).2 hba
      rw [if_neg hlt, if_pos (equal_iff.mpr ⟨hab, hba⟩), if_pos hab, if_pos hba]
    · rw [if_pos (Ordered.lt_iff.mpr ⟨hab, hba⟩), if_pos hab, if_neg hba]
  · have hlt : ¬ a < b := fun h => hab (Ordered.lt_iff.mp h).1
    have heq : ¬ equal a b = true := fun h => hab (equal_iff.mp h).1
    rw [if_neg hlt, if_neg heq, if_pos (lt_of_not_le ha hb hab), if_neg hab]

end Laws

/-! ## Doubles -/

section Double

open Float.Model Float.Model.UnpackedFloat

/-- The rank of a double on the line: its sign, with zero between the signs
and the infinities outside, then its exponent, then its mantissa.  Not a
number has no rank. -/
def rank? : UnpackedFloat → Option (Int ×ₗ Int ×ₗ Int)
  | .notANumber => none
  | .infinity .negative => some (toLex (-2, toLex (0, 0)))
  | .infinity .positive => some (toLex (2, toLex (0, 0)))
  | .zero _ => some (toLex (0, toLex (0, 0)))
  | .finite .negative m e _ => some (toLex (-1, toLex (-e, -m)))
  | .finite .positive m e _ => some (toLex (1, toLex (e, m)))

theorem compare_neg (a b : Int) : compare (-a) (-b) = (compare a b).swap := by
  rw [← Std.OrientedCmp.eq_swap]
  simp only [compare, compareOfLessAndEq, Int.neg_lt_neg_iff, Int.neg_inj, eq_comm]

theorem compare_natCast (m n : Nat) : compare (m : Int) (n : Int) = compare m n := by
  simp only [compare, compareOfLessAndEq, Int.ofNat_lt, Int.ofNat_inj]

/-- Doubles are compared by rank. -/
theorem compare_eq_compare_rank (a b : UnpackedFloat) :
    a.compare b = (rank? a).bind fun x => (rank? b).map (compare x) := by
  rcases a with (_ | _) | _ | (_ | _) | ⟨_ | _, m, e, hm⟩ <;>
  rcases b with (_ | _) | _ | (_ | _) | ⟨_ | _, n, f, hn⟩ <;>
  dsimp only [UnpackedFloat.compare, rank?, Option.bind_some, Option.bind_none, Option.map_some,
    Option.map_none] <;> try rfl
  -- Only two finite doubles of one sign are left, negative ones first.
  · show _ = some ((compare (-e) (-f)).then (compare (-(m : Int)) (-(n : Int))))
    rw [compare_neg, compare_neg, compare_natCast, Ordering.swap_then]
  · show _ = some ((compare e f).then (compare (m : Int) (n : Int)))
    rw [compare_natCast]

theorem float_le_iff {a b : Float} :
    a ≤ b ↔ ∃ x y, rank? a.toModel.unpack = some x ∧ rank? b.toModel.unpack = some y ∧ x ≤ y := by
  have h : a ≤ b ↔ a.toModel.unpack.le b.toModel.unpack = true := by
    show decide _ = true ↔ _
    rw [decide_eq_true_iff]
    rfl
  rw [h, UnpackedFloat.le, compare_eq_compare_rank]
  cases rank? a.toModel.unpack <;> cases rank? b.toModel.unpack <;>
    simp [Ordering.isLE_iff_ne_gt, compare_le_iff_le]

theorem float_lt_iff {a b : Float} :
    a < b ↔ ∃ x y, rank? a.toModel.unpack = some x ∧ rank? b.toModel.unpack = some y ∧ x < y := by
  have h : a < b ↔ a.toModel.unpack.lt b.toModel.unpack = true := by
    show decide _ = true ↔ _
    rw [decide_eq_true_iff]
    rfl
  rw [h, UnpackedFloat.lt, compare_eq_compare_rank]
  cases rank? a.toModel.unpack <;> cases rank? b.toModel.unpack <;>
    simp [compare_lt_iff_lt]

instance : Ordered Float where
  le_trans := by
    intro a b c hab hbc
    obtain ⟨x, y, hx, hy, hxy⟩ := float_le_iff.mp hab
    obtain ⟨y', z, hy', hz, hyz⟩ := float_le_iff.mp hbc
    rw [hy, Option.some.injEq] at hy'
    subst hy'
    exact float_le_iff.mpr ⟨x, z, hx, hz, hxy.trans hyz⟩
  le_total := by
    intro a b ha hb
    obtain ⟨x, -, hx, -, -⟩ := float_le_iff.mp ha
    obtain ⟨y, -, hy, -, -⟩ := float_le_iff.mp hb
    rcases le_total x y with h | h
    · exact .inl (float_le_iff.mpr ⟨x, y, hx, hy, h⟩)
    · exact .inr (float_le_iff.mpr ⟨y, x, hy, hx, h⟩)
  lt_iff := by
    intro a b
    constructor
    · intro h
      obtain ⟨x, y, hx, hy, hxy⟩ := float_lt_iff.mp h
      refine ⟨float_le_iff.mpr ⟨x, y, hx, hy, hxy.le⟩, fun hba => ?_⟩
      obtain ⟨y', x', hy', hx', hyx⟩ := float_le_iff.mp hba
      rw [hx, Option.some.injEq] at hx'
      rw [hy, Option.some.injEq] at hy'
      subst hx' hy'
      exact absurd hyx hxy.not_ge
    · rintro ⟨hab, hba⟩
      obtain ⟨x, y, hx, hy, -⟩ := float_le_iff.mp hab
      refine float_lt_iff.mpr ⟨x, y, hx, hy, lt_of_not_ge fun hyx => hba ?_⟩
      exact float_le_iff.mpr ⟨y, x, hy, hx, hyx⟩

end Double

/-! ## Exact rationals -/

/-- Rationals are ordered whatever logarithm is chosen for them. -/
theorem ordered_rational (log2 : Rat → Rat) : @Ordered Rat (rational log2) :=
  letI := rational log2
  { le_trans := fun hab hbc => Rat.le_trans hab hbc
    le_total := fun _ _ => Rat.le_total
    lt_iff := by
      intro a b
      show a < b ↔ a ≤ b ∧ ¬ b ≤ a
      rw [Rat.not_le]
      exact ⟨fun h => ⟨Rat.le_of_lt h, h⟩, fun h => h.2⟩ }

end Number

end QueryPlanner
