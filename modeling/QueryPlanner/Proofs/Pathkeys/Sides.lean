/-
  QueryPlanner.Proofs.Pathkeys.Sides

  The two sides of a merge clause.

  A merge clause orders its operands, each by a sort operator of its own.
  Every question that planning asks of a merge clause (what it equates with an
  expression, which side an input provides, whether a position of an ordering
  fits it) is answered from these two items.
-/

import QueryPlanner.Pathkeys

namespace QueryPlanner

variable {α : Type} {c : Clause α}

namespace Clause

/-- The operands of a merge clause, each with its sort operator. -/
def mergeSides? (c : Clause α) : Option (SortItem α × SortItem α) :=
  match c.merge, c.expr.binary? with
  | some m, some (_, l, r) => some (⟨l, m.operators.leftSort⟩, ⟨r, m.operators.rightSort⟩)
  | _, _ => none

/-- Two items are the sides of a merge clause, in either order. -/
def Equates (c : Clause α) (a b : SortItem α) : Prop :=
  c.mergeSides? = some (a, b) ∨ c.mergeSides? = some (b, a)

instance [DecidableEq α] (c : Clause α) (a b : SortItem α) : Decidable (c.Equates a b) :=
  inferInstanceAs (Decidable (_ ∨ _))

theorem Equates.symm {a b : SortItem α} (h : c.Equates a b) : c.Equates b a := Or.symm h

/-- A merge clause with operands has sides, which are these. -/
theorem mergeSides?_eq_some {opno : Oid} {l r : Expr α} (hm : c.isMergejoinable = true)
    (he : c.expr.binary? = some (opno, l, r)) :
    ∃ a b, c.mergeSides? = some (a, b) ∧ a.key = l ∧ b.key = r := by
  obtain ⟨m, hm⟩ := Option.isSome_iff_exists.mp hm
  refine ⟨⟨l, m.operators.leftSort⟩, ⟨r, m.operators.rightSort⟩, ?_, rfl, rfl⟩
  rw [mergeSides?, hm, he]

end Clause

/-- Adding an item once adds it. -/
@[simp] theorem SortPosition.mem_add [DecidableEq α] {p : SortPosition α} {x item : SortItem α} :
    x ∈ p.add item ↔ x ∈ p ∨ x = item := by
  rw [SortPosition.add]
  split
  · rename_i h
    have hitem : item ∈ p := List.contains_iff_mem.mp h
    constructor
    · exact .inl
    · rintro (hx | rfl)
      · exact hx
      · exact hitem
  · rw [List.mem_append, List.mem_singleton]

namespace Pathkeys

variable [DecidableEq α] {l r : SortItem α}

/-- What a clause equates with an expression is its side across from it. -/
theorem equated?_of_sides (h : c.mergeSides? = some (l, r)) (e : Expr α) :
    equated? c e = if l.key = e then some r else if r.key = e then some l else none := by
  rw [Clause.mergeSides?] at h
  split at h
  · rename_i m opno x y hm he
    cases h
    simp only [equated?, Clause.leftExpr?, Clause.rightExpr?, hm, he, Option.map_some]
  · exact nomatch h

theorem equated?_of_no_sides (h : c.mergeSides? = none) (e : Expr α) : equated? c e = none := by
  rw [Clause.mergeSides?] at h
  rw [equated?, Clause.leftExpr?, Clause.rightExpr?]
  cases hm : c.merge with
  | none => rfl
  | some m =>
      cases he : c.expr.binary? with
      | none => rfl
      | some x =>
          rw [hm, he] at h
          exact nomatch h

theorem equated?_eq_some {e : Expr α} {x : SortItem α} (h : equated? c e = some x) :
    ∃ a, a.key = e ∧ c.Equates a x := by
  cases hs : c.mergeSides? with
  | none =>
      rw [equated?_of_no_sides hs] at h
      exact nomatch h
  | some s =>
      rw [equated?_of_sides (l := s.1) (r := s.2) hs] at h
      split at h
      · rename_i he
        exact ⟨s.1, he, .inl (by rw [hs, ← Option.some.inj h])⟩
      · split at h
        · rename_i he
          exact ⟨s.2, he, .inr (by rw [hs, ← Option.some.inj h])⟩
        · exact nomatch h

/-- An input is sorted by the side that it provides, the left one first. -/
theorem mergeItem_of_sides (h : c.mergeSides? = some (l, r)) (target : TargetList α) :
    mergeItem target c =
      if target.provides l.key then .ok l
      else if target.provides r.key then .ok r
      else .error (.operandsNotInTarget c.expr) := by
  rw [Clause.mergeSides?] at h
  split at h
  · rename_i m opno x y hm he
    cases h
    simp only [mergeItem, Clause.leftExpr?, Clause.rightExpr?, hm, he, Option.map_some,
      Option.filter_some]
    by_cases hx : target.provides x = true
    · rw [if_pos hx, if_pos hx]
    · by_cases hy : target.provides y = true
      · rw [if_neg hx, if_pos hy, if_neg hx, if_pos hy]
      · rw [if_neg hx, if_neg hy, if_neg hx, if_neg hy]
  · exact nomatch h

/-- A position fits a clause if it has one of its sides. -/
theorem fits_of_sides (h : c.mergeSides? = some (l, r)) (p : SortPosition α) :
    fits p c = true ↔ l ∈ p ∨ r ∈ p := by
  rw [Clause.mergeSides?] at h
  split at h
  · rename_i m opno x y hm he
    cases h
    simp only [fits, Clause.leftExpr?, Clause.rightExpr?, hm, he, Option.map_some,
      Option.any_some, Bool.or_eq_true, List.contains_iff_mem]
  · exact nomatch h

end Pathkeys

end QueryPlanner
