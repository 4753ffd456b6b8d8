/-
  QueryPlanner.Proofs.Operator.Links

  The links of the built-in operators are true.

  Estimates follow a link without looking at what the operator behind it
  decides: a clause with its sides exchanged is estimated by the commutator,
  and an inequality as what the negator leaves.  In the built-in catalog the
  commutator decides as the operator does with its sides exchanged.  The
  negator decides the opposite wherever the operator has something to decide:
  of two values that compare, and for LIKE of two values that have bytes.  A
  match by regular expression is left out, as a pattern that is no expression
  is matched by nothing, negated or not.
-/

import QueryPlanner.Pattern.Regex.Engine
import QueryPlanner.Proofs.Operator.Comparison
import QueryPlanner.Proofs.Pattern.LikeRange

namespace QueryPlanner

variable {α : Type} {engine : RegexEngine}

theorem Procedure.holds_pattern_not [Number α] {kind : PatternType} (hkind : kind.IsLike)
    (negated : Bool) {l r : Datum α} (hl : l.bytes?.isSome = true) (hr : r.bytes?.isSome = true) :
    (pattern engine kind (!negated)).holds l r = !(pattern engine kind negated).holds l r := by
  obtain ⟨text, htext⟩ := Option.isSome_iff_exists.mp hl
  obtain ⟨patt, hpatt⟩ := Option.isSome_iff_exists.mp hr
  simp only [holds, htext, hpatt, PatternType.patternMatch_of_isLike hkind]
  cases negated with
  | false => simp only [Bool.not_false, Bool.bne_true, Bool.bne_false]
  | true => simp only [Bool.not_true, Bool.bne_false, Bool.bne_true, Bool.not_not]

namespace OperatorCatalog

variable {op : Operator α} {opno : Oid}

/-- The operator behind the commutator link of another. -/
def commuted? (c : OperatorCatalog α) (opno : Oid) : Option (Operator α) :=
  (c.commutator? opno).bind c.get?

/-- The operator behind the negator link of another. -/
def negated? (c : OperatorCatalog α) (opno : Oid) : Option (Operator α) :=
  (c.negator? opno).bind c.get?

theorem commuted?_of_get? {c : OperatorCatalog α} (hget : c.get? opno = some op) :
    c.commuted? opno = op.commutator.bind c.get? := by
  rw [commuted?, commutator?, hget, Option.bind_some]

theorem negated?_of_get? {c : OperatorCatalog α} (hget : c.get? opno = some op) :
    c.negated? opno = op.negator.bind c.get? := by
  rw [negated?, negator?, hget, Option.bind_some]

/-- The commutator of a built-in comparison decides as the comparison does
with its sides exchanged.  Its negator decides the opposite of values that
compare, and the negator of a LIKE the opposite of values that have bytes. -/
theorem links_builtin [Number α] [Number.Ordered α]
    (hget : (builtin engine : OperatorCatalog α).get? opno = some op) :
    (∀ s, op.IsComparison s → ∃ commutator negator : Operator α,
      (builtin engine).commuted? opno = some commutator ∧
      (builtin engine).negated? opno = some negator ∧
      ∀ a b : Datum α, commutator.procedure.holds b a = op.procedure.holds a b ∧
        ((a.compare? b).isSome = true →
          negator.procedure.holds a b = !op.procedure.holds a b)) ∧
    ∀ kind negated, op.procedure = .pattern engine kind negated → kind.IsLike →
      ∃ negator : Operator α, (builtin engine).negated? opno = some negator ∧ ∀ a b : Datum α,
        a.bytes?.isSome = true → b.bytes?.isSome = true →
          negator.procedure.holds a b = !op.procedure.holds a b := by
  have hmem := (mem_of_get? hget).1
  rw [commuted?_of_get? hget, negated?_of_get? hget]
  constructor
  · intro s hs
    obtain ⟨base, type, rfl, hsix⟩ := (compares_builtin op.left).hasSix hmem hs
    refine ⟨comparison base type s.commutator, comparison base type s.negator,
      hsix s.commutator, hsix s.negator, fun a b => ⟨?_, fun h => ?_⟩⟩
    · exact Procedure.holds_commutator s a b
    · exact Procedure.holds_negator s h
  · intro kind negated hprocedure hkind
    rcases mem_builtin_cases hmem with ⟨base, type, s, rfl, -⟩ |
      ⟨base, left, right, kind', negated', rfl, hall⟩
    · exact nomatch hprocedure
    · cases hprocedure
      refine ⟨matchOperator engine base left right kind (!negated), ?_,
        fun a b ha hb => Procedure.holds_pattern_not hkind negated ha hb⟩
      rw [← get?_of_mem_builtin (hall !negated)]
      cases negated <;> rfl

/-- For `<` on whole numbers the links are `>` and `>=`, where one of the
values may be a fraction, and for a LIKE on texts the link is its negation. -/
theorem links_builtin_int4_text :
    ((builtin Regex.engine : OperatorCatalog Float).get? 1014 = some (comparison 1012 .int4 .less) ∧
      ∃ commutator negator : Operator Float,
        (builtin Regex.engine).commuted? 1014 = some commutator ∧
        (builtin Regex.engine).negated? 1014 = some negator ∧
        commutator.procedure.holds (.float8 2.5) (.int4 2) = true ∧
        negator.procedure.holds (.int4 2) (.float8 2.5) = false) ∧
    ((builtin Regex.engine : OperatorCatalog Float).get? 1138 =
        some (matchOperator Regex.engine 1138 .text .text .like false) ∧
      ∃ negator : Operator Float, (builtin Regex.engine).negated? 1138 = some negator ∧
        negator.procedure.holds (.text "apple") (.text "a%") = false) := by
  have hless : (builtin Regex.engine : OperatorCatalog Float).get? 1014 =
      some (comparison 1012 .int4 .less) := rfl
  have hlike : (builtin Regex.engine : OperatorCatalog Float).get? 1138 =
      some (matchOperator Regex.engine 1138 .text .text .like false) := rfl
  have hcompare : (Datum.int4 2).compare? (Datum.float8 (2.5 : Float)) = some .lt := by
    decide +kernel
  have hholds : (Procedure.ordering .less).holds (.int4 2) (.float8 (2.5 : Float)) = true := by
    rw [Procedure.holds, hcompare]
    rfl
  constructor
  · obtain ⟨commutator, negator, hcommutator, hnegator, hlinks⟩ :=
      (links_builtin hless).1 .less rfl
    obtain ⟨hturned, hopposite⟩ := hlinks (.int4 2) (.float8 2.5)
    refine ⟨hless, commutator, negator, hcommutator, hnegator, hturned.trans hholds, ?_⟩
    rw [hopposite (by rw [hcompare]; rfl)]
    exact congrArg (!·) hholds
  · obtain ⟨negator, hnegator, hopposite⟩ := (links_builtin hlike).2 .like false rfl (.inl rfl)
    refine ⟨hlike, negator, hnegator, ?_⟩
    rw [hopposite (.text "apple") (.text "a%") rfl rfl]
    decide +kernel

end OperatorCatalog

end QueryPlanner
