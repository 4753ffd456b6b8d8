/-
  QueryPlanner.Proofs.Selectivity.Null

  Operators applied to a column and null.

  The built-in operators are strict, so none of them keeps a row when one of its
  operands is null.  Equality, the orderings and the matches are estimated so,
  whichever side null stands on and under however many relabelings.  The
  estimates of `<>` and of the negated matches are what is left of these: an
  operator that keeps no row is taken for one that keeps them all.
-/

import QueryPlanner.Pattern.Regex.Engine
import QueryPlanner.Proofs.Selectivity
import QueryPlanner.Proofs.Selectivity.Commuted

namespace QueryPlanner

open PlanM

/-! ## Null -/

namespace Expr

variable {α : Type} {e : Expr α}

/-- Null, under any number of relabelings. -/
inductive IsNull : Expr α → Prop where
  | const (type : DataType) : IsNull (.const type none)
  | relabel {e : Expr α} (type : DataType) (typmod : Int) (h : IsNull e) :
      IsNull (.relabel e type typmod)

theorem IsNull.fold (h : e.IsNull) : ∃ type, e.fold = .const type none := by
  induction h with
  | const type => exact ⟨type, rfl⟩
  | relabel type typmod _ ih =>
      obtain ⟨inner, hinner⟩ := ih
      refine ⟨type, ?_⟩
      rw [Expr.fold, hinner]

theorem IsNull.occurrences (h : e.IsNull) : e.occurrences = [] := by
  induction h with
  | const type => rfl
  | relabel type typmod _ ih =>
      rw [Expr.occurrences]
      exact ih

theorem IsNull.membership (h : e.IsNull) : e.stripRelabel.relations.membership = .empty := by
  rw [relations_stripRelabel, relations, vars, h.occurrences]
  rfl

/-- It stays null without its outermost relabeling. -/
theorem IsNull.stripRelabel (h : e.IsNull) : e.stripRelabel.IsNull := by
  cases h with
  | const type => exact .const type
  | relabel type typmod h => exact h

end Expr

/-- Moving a fraction into `[0, 1]` leaves its ends where they are. -/
class Number.FixedEnds (α : Type) [Number α] : Prop where
  clamp_zero : clampProbability (0 : α) = 0
  clamp_one_sub_zero : clampProbability (1 - 0 : α) = 1

namespace Number

instance : FixedEnds Float where
  clamp_zero := by decide +kernel
  clamp_one_sub_zero := by decide +kernel

theorem fixedEnds_rational (log2 : Rat → Rat) : @FixedEnds Rat (rational log2) :=
  letI := rational log2
  { clamp_zero := rfl
    clamp_one_sub_zero := by
      show clampProbability (((1 : Int) : Rat) - ((0 : Int) : Rat)) = ((1 : Int) : Rat)
      rw [Int.cast_one, Int.cast_zero, sub_zero]
      rfl }

end Number

variable {α : Type} [Number α] {p : Planner α} {a e : Expr α} {var : Option RtIndex}
  {v : Variable α}

namespace Variable

/-- Null is no variable. -/
theorem examine_null (h : e.IsNull) : examine p e var = .ok (unbound p e) := by
  have hexpr : ofExpr p e var = .ok (unbound p e) := by
    rw [ofExpr, h.membership]
  have hstripped := h.stripRelabel
  rw [examine]
  split
  · rename_i heq
    rw [heq] at hstripped
    cases hstripped
  · exact hexpr

/-- A variable and null, in either order. -/
theorem restriction?_null (hv : examine p a var = .ok v) (hrelation : v.relation.isSome = true)
    (h : e.IsNull) :
    ∃ type, restriction? p [a, e] var = .ok (some ⟨v, .const type none, true⟩) ∧
      restriction? p [e, a] var = .ok (some ⟨v, .const type none, false⟩) := by
  obtain ⟨r, hr⟩ := Option.isSome_iff_exists.mp hrelation
  obtain ⟨type, hfold⟩ := h.fold
  have hnull : (unbound p e).expr.fold = .const type none := hfold
  refine ⟨type, ?_, ?_⟩
  · refine except_bind_eq_ok.mpr ⟨v, hv, except_bind_eq_ok.mpr ⟨_, examine_null h, ?_⟩⟩
    rw [hr]
    show Except.ok (some _) = _
    rw [hnull]
  · refine except_bind_eq_ok.mpr ⟨_, examine_null h, except_bind_eq_ok.mpr ⟨v, hv, ?_⟩⟩
    rw [hr]
    show Except.ok (some _) = _
    rw [hnull]

end Variable

/-! ## Estimates -/

/-- The operator is `<>`, or a match that is negated: what it decides is the
opposite of what another one does. -/
def Operator.isNegated (op : Operator α) : Bool :=
  match op.procedure with
  | .ordering .notEqual | .pattern _ _ true => true
  | _ => false

namespace Selectivity

variable {args : List (Expr α)} {opno : Oid} {type : DataType} {onLeft : Bool}
  {op : Operator α}

theorem equality_null
    (h : Variable.restriction? p args var = .ok (some ⟨v, .const type none, onLeft⟩)) :
    equality p opno args var = .ok 0 :=
  except_bind_eq_ok.mpr ⟨_, h, rfl⟩

theorem scalar_null {greater : Bool}
    (h : Variable.restriction? p args var = .ok (some ⟨v, .const type none, onLeft⟩)) :
    scalar p opno greater args var = .ok 0 :=
  except_bind_eq_ok.mpr ⟨_, h, rfl⟩

theorem matching_null {kind : PatternType}
    (h : Variable.restriction? p args var = .ok (some ⟨v, .const type none, true⟩)) :
    matching p args var kind = .ok 0 :=
  except_bind_eq_ok.mpr ⟨_, h, rfl⟩

/-- What an inequality leaves to the equality that negates it is everything. -/
theorem inequality_null {equal : Oid} (hnegator : p.operators.negator? opno = some equal)
    (h : Variable.restriction? p args var = .ok (some ⟨v, .const type none, onLeft⟩)) :
    inequality p opno args var = .ok (1 - 0) := by
  rw [inequality, hnegator]
  exact except_bind_eq_ok.mpr ⟨0, equality_null h, rfl⟩

/-- A built-in operator between a variable and null is estimated to keep
nothing, and everything if it is negated.  A match has its variable on the
left. -/
theorem restriction_of_null [Number.FixedEnds α]
    (hop : op ∈ (OperatorCatalog.builtin engine : OperatorCatalog α).operators)
    (hget : p.operators.get? op.oid = some op)
    (hside : onLeft = true ∨ ∃ s, op.IsComparison s)
    (h : Variable.restriction? p args var = .ok (some ⟨v, .const type none, onLeft⟩)) :
    restriction p op.oid args var = .ok (if op.isNegated then 1 else 0) := by
  have hlookup := OperatorCatalog.lookup_of_get? hget
  have hzero : Except.ok (clampProbability (0 : α)) = (.ok 0 : Except (PlanError α) α) := by
    rw [Number.FixedEnds.clamp_zero]
  have hone : Except.ok (clampProbability (1 - 0 : α)) = (.ok 1 : Except (PlanError α) α) := by
    rw [Number.FixedEnds.clamp_one_sub_zero]
  refine except_bind_eq_ok.mpr ⟨op, hlookup, ?_⟩
  rcases OperatorCatalog.mem_builtin_cases hop with ⟨base, dataType, s, rfl, -⟩ |
    ⟨base, left, right, kind, negated, rfl, -⟩
  · cases s with
    | equal => exact except_bind_eq_ok.mpr ⟨0, equality_null h, hzero⟩
    | notEqual =>
        have hnegator : p.operators.negator? (base + OperatorCatalog.strategyOffset .notEqual) =
            some (base + OperatorCatalog.strategyOffset .equal) :=
          congrArg (Option.bind · Operator.negator) hget
        exact except_bind_eq_ok.mpr ⟨1 - 0, inequality_null hnegator h, hone⟩
    | less | lessEqual | greater | greaterEqual =>
        exact except_bind_eq_ok.mpr ⟨0, scalar_null h, hzero⟩
  · obtain rfl : onLeft = true := hside.resolve_right nofun
    cases negated with
    | false => exact except_bind_eq_ok.mpr ⟨0, matching_null h, hzero⟩
    | true =>
        refine except_bind_eq_ok.mpr ⟨1 - 0, ?_, hone⟩
        rw [map_eq_pure_bind]
        exact except_bind_eq_ok.mpr ⟨0, matching_null h, rfl⟩

/-- **A comparison with null.**  Between a column of a relation that is built
and null, a built-in operator is estimated to keep no row, except that `<>` and
the negated matches are estimated to keep every row.  Null may stand on either
side of a comparison, and on the right of a match. -/
theorem restriction_column_null [Number.FixedEnds α]
    (hop : op ∈ (OperatorCatalog.builtin engine : OperatorCatalog α).operators)
    (hget : p.operators.get? op.oid = some op) {x : Var}
    (hconcerns : Variable.concerns var x.relation = true) (hx : p.Binds x.relation)
    (he : e.IsNull) :
    restriction p op.oid [.var x, e] var = .ok (if op.isNegated then 1 else 0) ∧
      ∀ s, op.IsComparison s →
        restriction p op.oid [e, .var x] var = .ok (if op.isNegated then 1 else 0) := by
  obtain ⟨r, hr⟩ := hx.relation
  obtain ⟨entry, hentry⟩ := hx.entry
  have hcolumn := Variable.examine_column hconcerns hr hentry
  obtain ⟨type, hleft, hright⟩ := Variable.restriction?_null hcolumn rfl he
  refine ⟨restriction_of_null hop hget (.inl rfl) hleft, ?_⟩
  intro s hs
  exact restriction_of_null hop hget (.inr ⟨s, hs⟩) hright

section Example

/-- A session over one table, of which nothing is known. -/
def oneTable : Planner Float :=
  (Planner.start .standard (.builtin Regex.engine) Catalog.empty.source
    ⟨fun _ _ => none, fun _ _ => none⟩ [.stored 7]).addRelation
      (Relation.blank 0 .base (RelSet.singleton 1))

theorem binds_oneTable : oneTable.Binds 1 where
  relation := ⟨_, rfl⟩
  entry := ⟨_, rfl⟩

/-- Null as an `oid`, read as an integer. -/
def relabeledNull : Expr Float := .relabel (.const .oid none) .int4 (-1)

theorem relabeledNull_isNull : relabeledNull.IsNull := .relabel .int4 (-1) (.const .oid)

/-- The comparisons of integers are built in. -/
theorem comparison_mem {α : Type} (s : Strategy) : OperatorCatalog.comparison 1012 .int4 s ∈
    (OperatorCatalog.builtin Regex.engine : OperatorCatalog α).operators := by
  have hs : s ∈ Strategy.all := by cases s <;> decide
  have htype : (DataType.int4, 2) ∈ DataType.all.zipIdx := by decide
  simp only [OperatorCatalog.builtin, OperatorCatalog.builtinOperators, List.mem_reverse,
    List.mem_append, List.mem_flatMap]
  exact .inl ⟨(.int4, 2), htype, List.mem_map_of_mem hs⟩

omit [Number α] in
theorem get?_comparison {p : Planner α} (hp : p.operators = .builtin Regex.engine)
    (s : Strategy) :
    p.operators.get? (OperatorCatalog.comparison 1012 .int4 s : Operator α).oid =
      some (OperatorCatalog.comparison 1012 .int4 s) := by
  rw [hp]
  exact OperatorCatalog.get?_of_mem_builtin (comparison_mem s)

/-- `$1.1 = null` and `null = $1.1`, in doubles and in exact numbers -/
theorem restriction_column_null_equal :
    relabeledNull.IsNull ∧ oneTable.Binds 1 ∧
      restriction oneTable 1012 [.var ⟨1, 1, .int4, -1⟩, relabeledNull] (some 1) = .ok 0 ∧
      restriction oneTable 1012 [relabeledNull, .var ⟨1, 1, .int4, -1⟩] (some 1) = .ok 0 ∧
      letI := Number.rational id
      restriction people 1012 [age, .const .int4 none] none = .ok 0 := by
  have hconcerns : Variable.concerns (some 1) (1 : RtIndex) = true := rfl
  obtain ⟨hleft, hright⟩ := restriction_column_null (x := ⟨1, 1, .int4, -1⟩)
    (comparison_mem .equal) (get?_comparison rfl .equal) hconcerns binds_oneTable
    relabeledNull_isNull
  refine ⟨relabeledNull_isNull, binds_oneTable, hleft, hright .equal rfl, ?_⟩
  let _ := Number.rational id
  have hnumbers := Number.fixedEnds_rational id
  have hpeople : people.Binds 1 := ⟨⟨_, rfl⟩, ⟨_, rfl⟩⟩
  have hany : Variable.concerns none (1 : RtIndex) = true := rfl
  have hage := restriction_column_null (x := ⟨1, 1, .int4, -1⟩) (comparison_mem .equal)
    (get?_comparison rfl .equal) hany hpeople (.const .int4)
  exact hage.1

/-- `$1.1 <> null` is estimated to keep all rows. -/
theorem restriction_notEqual_null :
    OperatorCatalog.comparison 1012 .int4 .notEqual ∈
        (OperatorCatalog.builtin Regex.engine : OperatorCatalog Float).operators ∧
      oneTable.operators = .builtin Regex.engine ∧ oneTable.Binds 1 ∧
      restriction oneTable 1013 [.var ⟨1, 1, .int4, -1⟩, .const .int4 none] (some 1) = .ok 1 ∧
      (1 : Float) ≠ 0 := by
  have hmem : OperatorCatalog.comparison 1012 .int4 .notEqual ∈
      (OperatorCatalog.builtin Regex.engine : OperatorCatalog Float).operators :=
    comparison_mem .notEqual
  have hget := get?_comparison (p := oneTable) rfl .notEqual
  have hconcerns : Variable.concerns (some 1) (1 : RtIndex) = true := rfl
  have hcolumn := Variable.examine_column (p := oneTable) (v := ⟨1, 1, .int4, -1⟩) hconcerns rfl rfl
  obtain ⟨type, hnull, -⟩ := Variable.restriction?_null hcolumn rfl (.const .int4)
  have hrestriction := restriction_of_null hmem hget (.inl rfl) hnull
  exact ⟨hmem, rfl, binds_oneTable, hrestriction, by decide +kernel⟩

end Example

end Selectivity

end QueryPlanner
