/-
  QueryPlanner.Proofs.Selectivity.Commuted

  A comparison is estimated alike in both directions.

  `a < b` and `b > a` keep the same rows.  With the operands exchanged the
  variable is found on the other side, and every estimate that looks at the
  side has an answer to it: common values are probed with their operands
  exchanged, an ordering is turned back by the commutator, and a bound keeps
  its direction because both the side and the direction of the operator
  change.  None of this needs more of the numbers than an order, so it holds of
  doubles as well as of exact numbers.
-/

import QueryPlanner.Pattern.Regex.Engine
import QueryPlanner.Proofs.Selectivity.Comparison
import QueryPlanner.Proofs.Selectivity.Conjunction

namespace QueryPlanner

open PlanM

variable {α : Type} [Number α] {p : Planner α} {l r : Expr α} {var : Option RtIndex}
  {type : JoinType} {dataType : DataType} {base : Oid} {f : α}

/-! ## Operands -/

namespace Variable

/-- The same variable on the other side. -/
def Restriction.turned (x : Restriction α) : Restriction α := { x with onLeft := !x.onLeft }

theorem restriction?_turned {x : Option (Restriction α)}
    (h : restriction? p [l, r] var = .ok x) :
    restriction? p [r, l] var = .ok (x.map Restriction.turned) := by
  obtain ⟨lv, hl, h⟩ := except_bind_eq_ok.mp h
  obtain ⟨rv, hr, h⟩ := except_bind_eq_ok.mp h
  refine except_bind_eq_ok.mpr ⟨rv, hr, except_bind_eq_ok.mpr ⟨lv, hl, ?_⟩⟩
  cases hlr : lv.relation <;> cases hrr : rv.relation <;> rw [hlr, hrr] at h <;> cases h <;> rfl

end Variable

namespace Selectivity

variable [Number.Ordered α]

/-! ## Comparisons -/

/-- A common value is probed with its operands exchanged by the commutator. -/
theorem applied_turned (s : Strategy) (onLeft : Bool) (value constant : Datum α) :
    applied (.ordering s.commutator) (!onLeft) value constant =
      applied (.ordering s) onLeft value constant := by
  cases onLeft with
  | false => exact Procedure.holds_commutator s constant value
  | true => exact Procedure.holds_commutator s value constant

theorem equality_turned (h : p.operators.HasSix base dataType)
    (hf : equality p (base + OperatorCatalog.strategyOffset .equal) [l, r] var = .ok f) :
    equality p (base + OperatorCatalog.strategyOffset .equal) [r, l] var = .ok f := by
  have hlookup := OperatorCatalog.lookup_of_get? (h .equal)
  obtain ⟨x, hx, hf⟩ := except_bind_eq_ok.mp hf
  refine except_bind_eq_ok.mpr ⟨_, Variable.restriction?_turned hx, ?_⟩
  cases x with
  | none => exact hf
  | some x =>
      have happlied (value constant : Datum α) :
          applied (.ordering .equal) (!x.onLeft) value constant =
            applied (.ordering .equal) x.onLeft value constant :=
        applied_turned .equal x.onLeft value constant
      simpa only [Option.map_some, hlookup, Variable.Restriction.turned, OperatorCatalog.comparison,
        bind, Except.bind, happlied] using hf

theorem inequality_turned (h : p.operators.HasSix base dataType)
    (hf : inequality p (base + OperatorCatalog.strategyOffset .notEqual) [l, r] var = .ok f) :
    inequality p (base + OperatorCatalog.strategyOffset .notEqual) [r, l] var = .ok f := by
  have hnegator := h.negator? .notEqual
  rw [inequality, hnegator] at hf ⊢
  obtain ⟨g, hg, hf⟩ := except_bind_eq_ok.mp hf
  exact except_bind_eq_ok.mpr ⟨g, equality_turned h hg, hf⟩

omit [Number.Ordered α] in
/-- An ordering is estimated with its variable on the left. -/
theorem scalar_turned {s : Strategy} (hs : s.IsRange) (h : p.operators.HasSix base dataType)
    (hf : scalar p (base + OperatorCatalog.strategyOffset s) s.keepsGreater [l, r] var = .ok f) :
    scalar p (base + OperatorCatalog.strategyOffset s.commutator) s.commutator.keepsGreater [r, l]
      var = .ok f := by
  obtain ⟨x, hx, hf⟩ := except_bind_eq_ok.mp hf
  refine except_bind_eq_ok.mpr ⟨_, Variable.restriction?_turned hx, ?_⟩
  cases x with
  | none => exact hf
  | some x =>
      dsimp only [Option.map_some, Variable.Restriction.turned] at hf ⊢
      cases hside : comparand x.other with
      | null | unknown => rwa [hside] at hf
      | value constant t =>
          rw [hside] at hf
          cases hleft : x.onLeft with
          | true =>
              rw [hleft] at hf
              simpa [h.commutator?, hs.keepsGreater_commutator] using hf
          | false =>
              rw [hleft] at hf
              simpa [h.commutator?, hs.keepsGreater_commutator] using hf

theorem restriction_turned (s : Strategy) (h : p.operators.HasSix base dataType)
    (hf : restriction p (base + OperatorCatalog.strategyOffset s) [l, r] var = .ok f) :
    restriction p (base + OperatorCatalog.strategyOffset s.commutator) [r, l] var = .ok f := by
  obtain ⟨g, hg, rfl⟩ := (restriction_comparison_eq_ok h).mp hf
  refine (restriction_comparison_eq_ok h).mpr ⟨g, ?_, rfl⟩
  cases s with
  | equal => exact equality_turned h hg
  | notEqual => exact inequality_turned h hg
  | less | lessEqual | greater | greaterEqual => exact scalar_turned (by decide) h hg

theorem restriction_turned_iff (s : Strategy) (h : p.operators.HasSix base dataType) :
    restriction p (base + OperatorCatalog.strategyOffset s) [l, r] var = .ok f ↔
      restriction p (base + OperatorCatalog.strategyOffset s.commutator) [r, l] var = .ok f := by
  refine ⟨restriction_turned s h, fun hf => ?_⟩
  have hback := restriction_turned s.commutator h hf
  rwa [s.commutator_commutator] at hback

/-! ## Lists of clauses -/

omit [Number α] [Number.Ordered α] in
/-- The expression is bounded from the same side. -/
theorem bound?_turned (s : Strategy) (h : p.operators.HasSix base dataType) (x : RtIndex) :
    bound? p (.op (base + OperatorCatalog.strategyOffset s.commutator) [r, l]) (some x) =
      bound? p (.op (base + OperatorCatalog.strategyOffset s) [l, r]) (some x) := by
  have hrestrict (s : Strategy) : (p.operators.get?
      (base + OperatorCatalog.strategyOffset s)).bind (·.restrict) =
      some (OperatorCatalog.strategyEstimator s) := by
    rw [h s]
    rfl
  simp only [bound?, Expr.binary?, bounded?, Option.isSome_some, Bool.true_or, if_true, hrestrict]
  cases isFixed l (some x) <;> cases isFixed r (some x) <;> cases s <;> rfl

/-- Two clauses count alike in a list: they keep the same fraction, and bound
the same expression. -/
structure CountsAs (p : Planner α) (var : Option RtIndex) (type : JoinType) (e e' : Expr α) :
    Prop where
  fraction : ∀ f, clause p var type e = .ok f → clause p var type e' = .ok f
  bound : bound? p e' var = bound? p e var

omit [Number.Ordered α] in
theorem CountsAs.refl (e : Expr α) : CountsAs p var type e e := ⟨fun _ => id, rfl⟩

section Congr

omit [Number.Ordered α]

variable {es es' : List (Expr α)}

theorem each_congr (h : List.Forall₂ (CountsAs p var type) es es') {fs : List α}
    (hfs : each p var type es = .ok fs) : each p var type es' = .ok fs := by
  induction h generalizing fs with
  | nil => exact hfs
  | cons he _ ih =>
      rw [each] at hfs ⊢
      obtain ⟨g, hg, hfs⟩ := except_bind_eq_ok.mp hfs
      obtain ⟨gs, hgs, hfs⟩ := except_bind_eq_ok.mp hfs
      refine except_bind_eq_ok.mpr ⟨g, he.fraction g hg, ?_⟩
      exact except_bind_eq_ok.mpr ⟨gs, ih hgs, hfs⟩

theorem addAll_congr (h : List.Forall₂ (CountsAs p var type) es es') (fs : List α)
    (c : Conjunction α) : c.addAll p var (es'.zip fs) = c.addAll p var (es.zip fs) := by
  induction h generalizing fs c with
  | nil => rfl
  | cons he _ ih =>
      cases fs with
      | nil => rfl
      | cons g gs =>
          rw [List.zip_cons_cons, List.zip_cons_cons, Conjunction.addAll, Conjunction.addAll,
            List.foldl_cons, List.foldl_cons, ← Conjunction.addAll, ← Conjunction.addAll, ih,
            Conjunction.add, Conjunction.add, he.bound]

/-- A list is estimated by what its clauses count as. -/
theorem clauseList_congr (h : List.Forall₂ (CountsAs p var type) es es')
    (hf : clauseList p es var type = .ok f) : clauseList p es' var type = .ok f := by
  obtain ⟨fs, hfs, hf⟩ := except_bind_eq_ok.mp hf
  refine except_bind_eq_ok.mpr ⟨fs, each_congr h hfs, ?_⟩
  have haddAll := addAll_congr h fs ⟨1, []⟩
  rw [Conjunction.addAll, Conjunction.addAll] at haddAll
  rwa [together, haddAll]

end Congr

theorem countsAs_turned (s : Strategy) (h : p.operators.HasSix base dataType) (x : RtIndex)
    (type : JoinType) :
    CountsAs p (some x) type (.op (base + OperatorCatalog.strategyOffset s) [l, r])
      (.op (base + OperatorCatalog.strategyOffset s.commutator) [r, l]) where
  fraction f hf := by
    rw [clause] at hf ⊢
    exact restriction_turned s h hf
  bound := bound?_turned s h x

theorem countsAs_turned_back (s : Strategy) (h : p.operators.HasSix base dataType) (x : RtIndex)
    (type : JoinType) :
    CountsAs p (some x) type (.op (base + OperatorCatalog.strategyOffset s.commutator) [r, l])
      (.op (base + OperatorCatalog.strategyOffset s) [l, r]) := by
  have hback := countsAs_turned (l := r) (r := l) s.commutator h x type
  rwa [s.commutator_commutator] at hback

omit [Number.Ordered α] in
theorem clauseList_replaced {e e' : Expr α} (h : CountsAs p var type e e')
    (front back : List (Expr α)) (hf : clauseList p (front ++ e :: back) var type = .ok f) :
    clauseList p (front ++ e' :: back) var type = .ok f := by
  have hsame (es : List (Expr α)) : List.Forall₂ (CountsAs p var type) es es :=
    List.forall₂_same.mpr fun e _ => .refl e
  exact clauseList_congr (List.rel_append (hsame front) (.cons h (hsame back))) hf

/-- Exchanging the operands of a built-in comparison, and taking the
commutator for the operator, changes no estimate: not that of the comparison
as a restriction, and not that of a list it stands in, where the estimate is
for one relation. -/
theorem estimates_turned {op : Operator α} {s : Strategy} {commutator : Oid}
    (hcompares : p.operators.Compares engine op.left)
    (hop : op ∈ (OperatorCatalog.builtin engine : OperatorCatalog α).operators)
    (hs : op.IsComparison s)
    (hcommutator : op.commutator = some commutator) (a b : Expr α) :
    (∀ var f, restriction p op.oid [a, b] var = .ok f ↔
        restriction p commutator [b, a] var = .ok f) ∧
      ∀ relid type front back f,
        clauseList p (front ++ .op op.oid [a, b] :: back) (some relid) type = .ok f ↔
          clauseList p (front ++ .op commutator [b, a] :: back) (some relid) type = .ok f := by
  obtain ⟨base, dataType, rfl, hsix⟩ := hcompares.hasSix hop hs
  cases hcommutator
  refine ⟨fun var f => restriction_turned_iff s hsix, fun relid type front back f => ?_⟩
  exact ⟨clauseList_replaced (countsAs_turned s hsix relid type) front back,
    clauseList_replaced (countsAs_turned_back s hsix relid type) front back⟩

section Example

/-- The age of a person, and the number it is compared with. -/
def age : Expr Rat := .var ⟨1, 1, .int4, -1⟩
def seventy : Expr Rat := .const .int4 (some (.int4 70))

/-- `age < 70` and `70 > age` -/
def younger : Operator Rat := OperatorCatalog.comparison 1012 .int4 .less

theorem younger_mem :
    younger ∈ (OperatorCatalog.builtin Regex.engine : OperatorCatalog Rat).operators :=
  (OperatorCatalog.mem_of_get?
    (rfl : (OperatorCatalog.builtin Regex.engine).get? 1014 = some younger)).1

theorem estimates_turned_younger :
    letI := Number.rational id
    people.operators.Compares Regex.engine younger.left ∧ younger.IsComparison .less ∧
      younger.commutator = some 1016 ∧
      clauseList people ([compared 1016 1 20, compared 1014 2 3] ++ .op 1016 [seventy, age] ::
        [compared 1013 1 30, compared 1016 2 1, compared 1014 1 60]) (some 1) .inner =
          .ok (27 / 12500) := by
  let _ := Number.rational id
  have hordered := Number.ordered_rational id
  have hcompares : people.operators.Compares Regex.engine younger.left :=
    OperatorCatalog.compares_builtin younger.left
  have hturned := estimates_turned hcompares younger_mem rfl rfl age seventy
  exact ⟨hcompares, rfl, rfl, (hturned.2 1 .inner _ _ _).mp clauseList_sixClauses⟩

end Example

end Selectivity

end QueryPlanner
