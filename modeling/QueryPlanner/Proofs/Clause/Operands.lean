/-
  QueryPlanner.Proofs.Clause.Operands

  The operands of a clause, and the inputs of a join that they come from.

  What a clause records of its operands is read off its expression.  It can
  be merged or hashed only if both operands read relations, so where it
  separates two inputs each operand comes from one of them.
-/

import QueryPlanner.Clause
import QueryPlanner.Proofs.TargetList

namespace QueryPlanner.Clause

variable {α : Type} {c : Clause α} {s t : RelSet}

/-- The clause is what is known of its expression. -/
def Analyzed (c : Clause α) : Prop := ∃ operators id e, c = analyze operators id e

/-- Two expressions are the operands, in either order. -/
def HasOperands (c : Clause α) (a b : Expr α) : Prop :=
  ∃ opno, c.expr.binary? = some (opno, a, b) ∨ c.expr.binary? = some (opno, b, a)

theorem HasOperands.symm {a b : Expr α} (h : c.HasOperands a b) : c.HasOperands b a := by
  obtain ⟨opno, hab⟩ := h
  exact ⟨opno, hab.symm⟩

theorem HasOperands.eq_or_eq {a b l r : Expr α} {opno : Oid} (h : c.HasOperands a b)
    (he : c.expr = .op opno [l, r]) : a = l ∧ b = r ∨ a = r ∧ b = l := by
  obtain ⟨opno', hab⟩ := h
  rw [he, Expr.binary?] at hab
  rcases hab with hab | hab
  · cases hab
    exact .inl ⟨rfl, rfl⟩
  · cases hab
    exact .inr ⟨rfl, rfl⟩

theorem Analyzed.required_eq (h : c.Analyzed) : c.required = c.expr.relations := by
  obtain ⟨operators, id, e, rfl⟩ := h
  rw [analyze]
  split
  · rfl
  · rfl

/-- A clause reads what its operands read. -/
theorem Analyzed.toFinset_required {a b : Expr α} (h : c.Analyzed) (hab : c.HasOperands a b) :
    c.required.toFinset = a.relations.toFinset ∪ b.relations.toFinset := by
  obtain ⟨opno, hab | hab⟩ := hab
  · rw [h.required_eq, Expr.eq_op_of_binary? hab, Expr.relations_op]
  · rw [h.required_eq, Expr.eq_op_of_binary? hab, Expr.relations_op, Finset.union_comm]

/-- One operand comes from either input. -/
def Splits (c : Clause α) (s t : RelSet) : Prop := ∃ a b, c.HasOperands a b ∧ a.From s ∧ b.From t

theorem nonempty_of_isEmpty (h : s.isEmpty = false) : s.toFinset.Nonempty := by
  rw [Finset.nonempty_iff_ne_empty]
  intro he
  rw [RelSet.isEmpty_iff.mpr he] at h
  exact nomatch h

/-- A clause that can be merged or hashed has two operands, each with
relations of its own. -/
theorem Analyzed.operands (h : c.Analyzed) (hop : c.merge.isSome ∨ c.hash.isSome) :
    ∃ opno l r, c.expr.binary? = some (opno, l, r) ∧ c.left = l.relations ∧
      c.right = r.relations ∧ l.relations.toFinset.Nonempty ∧ r.relations.toFinset.Nonempty := by
  obtain ⟨operators, id, e, rfl⟩ := h
  rw [analyze] at hop ⊢
  cases he : e.binary? with
  | none =>
      simp only [he, Option.isSome_none, Bool.false_eq_true, or_self] at hop
  | some x =>
      obtain ⟨opno, l, r⟩ := x
      simp only [he] at hop ⊢
      split at hop
      · rename_i hinfo
        simp only [Bool.and_eq_true, Bool.not_eq_true'] at hinfo
        obtain ⟨⟨hl, hr⟩, -⟩ := hinfo
        exact ⟨opno, l, r, rfl, rfl, rfl, nonempty_of_isEmpty hl, nonempty_of_isEmpty hr⟩
      · simp only [Option.bind_none, Option.isSome_none, Bool.false_eq_true, or_self] at hop

/-- Where it separates two inputs, one operand comes from either. -/
theorem Analyzed.splits (h : c.Analyzed) (hop : c.merge.isSome ∨ c.hash.isSome)
    (hsep : c.separates s t = true) : c.Splits s t := by
  obtain ⟨opno, l, r, he, hl, hr, hln, hrn⟩ := h.operands hop
  rw [separates, Bool.or_eq_true, Bool.and_eq_true, Bool.and_eq_true, hl, hr] at hsep
  simp only [RelSet.isSubset_iff] at hsep
  rcases hsep with ⟨hls, hrt⟩ | ⟨hlt, hrs⟩
  · exact ⟨l, r, ⟨opno, .inl he⟩, ⟨hln, hls⟩, ⟨hrn, hrt⟩⟩
  · exact ⟨r, l, ⟨opno, .inr he⟩, ⟨hrn, hrs⟩, ⟨hln, hlt⟩⟩

/-- It separates the inputs that its operands come from. -/
theorem Analyzed.separates_of_splits (h : c.Analyzed) (hop : c.merge.isSome ∨ c.hash.isSome)
    (hsplits : c.Splits s t) : c.separates s t = true := by
  obtain ⟨a, b, ⟨opno, hab⟩, ha, hb⟩ := hsplits
  obtain ⟨opno', l, r, he, hl, hr, -, -⟩ := h.operands hop
  rw [separates, Bool.or_eq_true, Bool.and_eq_true, Bool.and_eq_true, hl, hr]
  simp only [RelSet.isSubset_iff]
  rw [he] at hab
  rcases hab with hab | hab
  · cases hab
    exact .inl ⟨ha.subset, hb.subset⟩
  · cases hab
    exact .inr ⟨hb.subset, ha.subset⟩

end QueryPlanner.Clause
