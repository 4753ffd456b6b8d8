/-
  QueryPlanner.Proofs.Selectivity.Total

  An estimate never fails for want of statistics.

  A lookup of an operator, a relation or a range table entry fails where there
  is none.  In a session over the built-in operators none is missing for a
  clause whose operators are built in and whose columns belong to relations
  that are built: what an estimate looks up beyond them are operators that
  others name, or the comparisons of a type.  A pattern is taken apart, so one
  that is constant has to be a text.  Statistics only choose between ways that
  all lead to an estimate.
-/

import QueryPlanner.Pattern.Regex.Engine
import QueryPlanner.Proofs.Planner.Requested
import QueryPlanner.Proofs.Selectivity

namespace QueryPlanner

open PlanM

variable {α : Type}

/-! ## Clauses that can be estimated -/

namespace Expr

mutual

/-- An expression and all expressions in it. -/
def subterms : Expr α → List (Expr α)
  | .var v => [.var v]
  | .const t v => [.const t v]
  | .relabel a t m => .relabel a t m :: a.subterms
  | .func i t as v => .func i t as v :: subtermsList as
  | .op i as => .op i as :: subtermsList as
  | .boolTest t a => .boolTest t a :: a.subterms
  | .nullTest t a => .nullTest t a :: a.subterms
  | .and as => .and as :: subtermsList as
  | .or as => .or as :: subtermsList as
  | .not a => .not a :: a.subterms

def subtermsList : List (Expr α) → List (Expr α)
  | [] => []
  | a :: as => a.subterms ++ subtermsList as

end

theorem self_mem_subterms (e : Expr α) : e ∈ e.subterms := by
  cases e <;> exact List.mem_cons_self

mutual

/-- The columns read stand in the expression. -/
theorem var_mem_subterms {v : Var} : ∀ {e : Expr α}, v ∈ e.occurrences → .var v ∈ e.subterms
  | .var w, h => by
      rw [occurrences, List.mem_singleton] at h
      rw [h]
      exact self_mem_subterms _
  | .const .., h => by
      rw [occurrences] at h
      cases h
  | .relabel .., h | .boolTest .., h | .nullTest .., h | .not _, h => by
      rw [occurrences] at h
      exact List.mem_cons_of_mem _ (var_mem_subterms h)
  | .func .., h | .op .., h | .and _, h | .or _, h => by
      rw [occurrences] at h
      exact List.mem_cons_of_mem _ (var_mem_subtermsList h)

theorem var_mem_subtermsList {v : Var} : ∀ {es : List (Expr α)}, v ∈ occurrencesList es →
    .var v ∈ subtermsList es
  | [], h => by
      rw [occurrencesList] at h
      cases h
  | e :: rest, h => by
      rw [occurrencesList, List.mem_append] at h
      rw [subtermsList, List.mem_append]
      exact h.imp var_mem_subterms var_mem_subtermsList

end

/-- A constant, relabeled or not, is a text. -/
def IsTextPattern (e : Expr α) : Prop :=
  ∀ type d, e.fold = .const type (some d) → ∃ s, d = .text s

end Expr

/-- The operator is estimated as a match with a pattern. -/
def Operator.IsMatch (op : Operator α) : Prop :=
  ∃ kind, op.restrict = some (.matching kind) ∨ op.restrict = some (.notMatching kind)

namespace Planner

/-- One expression can be estimated as far as its root goes: a column of a
relation that is built, or an operator of the catalog with two operands, the
second of them a text if it is a constant pattern. -/
def Supports (p : Planner α) : Expr α → Prop
  | .var v => ∃ r, p.baseRelation v.relation = .ok r
  | .op opno args => ∃ op l r, args = [l, r] ∧ p.operators.get? opno = some op ∧
      (op.IsMatch → r.IsTextPattern)
  | _ => True

/-- The whole expression can be estimated. -/
def Estimable (p : Planner α) (e : Expr α) : Prop := ∀ x ∈ e.subterms, p.Supports x

/-- The operators are the built-in ones, and relations are built of range table
entries. -/
structure Ready (p : Planner α) : Prop where
  operators : ∃ engine, p.operators = .builtin engine
  entry : ∀ relid, (∃ r, p.baseRelation relid = .ok r) → ∃ e, p.entry relid = .ok e

namespace Estimable

variable {p : Planner α} {e a : Expr α} {args : List (Expr α)} {opno : Oid}

theorem relabel {type : DataType} {typmod : Int} (h : p.Estimable (.relabel a type typmod)) :
    p.Estimable a :=
  fun x hx => h x (List.mem_cons_of_mem _ hx)

theorem boolTest {test : BoolTest} (h : p.Estimable (.boolTest test a)) : p.Estimable a :=
  fun x hx => h x (List.mem_cons_of_mem _ hx)

theorem nullTest {test : NullTest} (h : p.Estimable (.nullTest test a)) : p.Estimable a :=
  fun x hx => h x (List.mem_cons_of_mem _ hx)

theorem not (h : p.Estimable (.not a)) : p.Estimable a :=
  fun x hx => h x (List.mem_cons_of_mem _ hx)

theorem mem_subtermsList {x : Expr α} (hx : x ∈ a.subterms) (ha : a ∈ args) :
    x ∈ Expr.subtermsList args := by
  induction args with
  | nil => cases ha
  | cons b rest ih =>
      rw [Expr.subtermsList, List.mem_append]
      obtain rfl | ha := List.mem_cons.mp ha
      · exact .inl hx
      · exact .inr (ih ha)

theorem and (h : p.Estimable (.and args)) (ha : a ∈ args) : p.Estimable a :=
  fun x hx => h x (List.mem_cons_of_mem _ (mem_subtermsList hx ha))

theorem or (h : p.Estimable (.or args)) (ha : a ∈ args) : p.Estimable a :=
  fun x hx => h x (List.mem_cons_of_mem _ (mem_subtermsList hx ha))

/-- An operator has two operands, which can be estimated. -/
theorem op (h : p.Estimable (.op opno args)) :
    ∃ op l r, args = [l, r] ∧ p.operators.get? opno = some op ∧
      (op.IsMatch → r.IsTextPattern) ∧ p.Estimable l ∧ p.Estimable r := by
  obtain ⟨op, l, r, rfl, hop, hpattern⟩ := h _ (Expr.self_mem_subterms _)
  have hargs : ∀ a ∈ [l, r], p.Estimable a := fun a ha x hx =>
    h x (List.mem_cons_of_mem _ (mem_subtermsList hx ha))
  exact ⟨op, l, r, rfl, hop, hpattern, hargs l List.mem_cons_self,
    hargs r (List.mem_cons_of_mem l List.mem_cons_self)⟩

/-- The relations read are bound. -/
theorem bindsAll (h : p.Estimable e) (hp : p.Ready) : p.BindsAll e := by
  intro x hx
  obtain ⟨v, hv, rfl⟩ := Expr.mem_relations_iff.mp hx
  have hbuilt : ∃ r, p.baseRelation v.relation = .ok r :=
    h _ (Expr.var_mem_subterms (List.mem_eraseDups.mp hv))
  exact ⟨hbuilt, hp.entry _ hbuilt⟩

end Estimable

end Planner

variable [Number α] {p : Planner α} {e l r : Expr α} {args : List (Expr α)} {opno : Oid}
  {op : Operator α} {var : Option RtIndex} {type : JoinType}

/-! ## Operands -/

namespace Variable

variable {v : Variable α} {x : Restriction α}

theorem restriction?_total (hl : p.BindsAll l) (hr : p.BindsAll r) :
    ∃ x, restriction? p [l, r] var = .ok x := by
  rw [restriction?]
  refine except_bind_total (examine_total hl) fun lv _ => ?_
  refine except_bind_total (examine_total hr) fun rv _ => ?_
  split <;> exact ⟨_, rfl⟩

omit [Number α] in
theorem expr_of_bound {relation : Option (Relation α)} (h : (bound p e relation).relation = none) :
    (bound p e relation).expr = e := by
  cases relation with
  | none => rfl
  | some r => cases h

theorem expr_of_ofExpr (h : ofExpr p e var = .ok v) (hnone : v.relation = none) : v.expr = e := by
  rw [ofExpr] at h
  split at h
  · cases h
    rfl
  · split at h
    · obtain ⟨r, -, h⟩ := except_bind_eq_ok.mp h
      cases h
      cases hnone
    · cases h
      rfl
  · cases var with
    | none =>
        cases h
        exact expr_of_bound hnone
    | some x =>
        rw [ofSeveral.eq_def] at h
        dsimp only at h
        split at h
        · obtain ⟨r, -, h⟩ := except_bind_eq_ok.mp h
          cases h
          cases hnone
        · cases h
          rfl

/-- What belongs to no relation is left as it is. -/
theorem expr_of_examine (h : examine p e var = .ok v) (hnone : v.relation = none) :
    v.expr = e := by
  rw [examine] at h
  split at h
  · split at h
    · obtain ⟨r, -, h⟩ := except_bind_eq_ok.mp h
      obtain ⟨entry, -, h⟩ := except_bind_eq_ok.mp h
      cases h
      cases hnone
    · exact expr_of_ofExpr h hnone
  · exact expr_of_ofExpr h hnone

/-- Behind a variable on the left stands the right operand. -/
theorem other_of_restriction? (h : restriction? p [l, r] var = .ok (some x))
    (hleft : x.onLeft = true) : x.other = r.fold := by
  rw [restriction?] at h
  obtain ⟨lv, -, h⟩ := except_bind_eq_ok.mp h
  obtain ⟨rv, hrv, h⟩ := except_bind_eq_ok.mp h
  split at h
  · rename_i hnone
    cases h
    rw [expr_of_examine hrv hnone]
  · cases h
    cases hleft
  · cases h

end Variable

omit [Number α] in
theorem Planner.bindsAll_const (p : Planner α) (dataType : DataType) (value : Option (Datum α)) :
    p.BindsAll (.const dataType value) := by
  intro x hx
  obtain ⟨v, hv, -⟩ := Expr.mem_relations_iff.mp hx
  cases hv

omit [Number α] in
theorem Planner.Ready.closed (hp : p.Ready) : p.operators.Closed :=
  let ⟨_, hoperators⟩ := hp.operators
  hoperators ▸ OperatorCatalog.closed_builtin

namespace Selectivity

/-! ## Restrictions -/

section Restrictions

theorem nullTest_total {test : NullTest} (he : p.BindsAll e) :
    ∃ f, nullTest p test e var = .ok f :=
  except_bind_total (Variable.examine_total he) fun _ _ => ⟨_, rfl⟩

theorem boolTest_total {test : BoolTest} {plain : Unit → Except (PlanError α) α}
    (he : p.BindsAll e) (hplain : ∃ f, plain () = .ok f) :
    ∃ f, boolTest p test e var plain = .ok f := by
  refine except_bind_total (Variable.examine_total he) fun v _ => ?_
  split
  · exact ⟨_, rfl⟩
  · cases test with
    | isUnknown | isNotUnknown => exact ⟨_, rfl⟩
    | isTrue | isNotFalse | isFalse | isNotTrue =>
        exact except_bind_total hplain fun _ _ => ⟨_, rfl⟩

theorem equality_total (hl : p.BindsAll l) (hr : p.BindsAll r)
    (hop : ∃ op, p.operators.lookup opno = .ok op) :
    ∃ f, equality p opno [l, r] var = .ok f := by
  refine except_bind_total (Variable.restriction?_total hl hr) fun x _ => ?_
  split
  · exact ⟨_, rfl⟩
  · split
    · exact ⟨_, rfl⟩
    · exact ⟨_, rfl⟩
    · exact except_bind_total hop fun _ _ => ⟨_, rfl⟩
    · exact ⟨_, rfl⟩

variable (hp : p.Ready)
include hp

theorem inequality_total (hl : p.BindsAll l) (hr : p.BindsAll r) :
    ∃ f, inequality p opno [l, r] var = .ok f := by
  rw [inequality.eq_def]
  split
  · rename_i other hother
    exact except_bind_total (equality_total hl hr (hp.closed.exists_negator hother))
      fun _ _ => ⟨_, rfl⟩
  · exact ⟨_, rfl⟩

theorem scalar_total {greater : Bool} (hl : p.BindsAll l) (hr : p.BindsAll r)
    (hop : ∃ op, p.operators.lookup opno = .ok op) :
    ∃ f, scalar p opno greater [l, r] var = .ok f := by
  refine except_bind_total (Variable.restriction?_total hl hr) fun x _ => ?_
  split
  · exact ⟨_, rfl⟩
  · split
    · exact ⟨_, rfl⟩
    · exact ⟨_, rfl⟩
    · split
      · exact comparison_total hop
      · split
        · rename_i other hother
          exact comparison_total (hp.closed.exists_commutator hother)
        · exact ⟨_, rfl⟩

omit [Number α] in
theorem typeOperator_total (s : Strategy) (dataType : DataType) :
    ∃ opno, typeOperator p s.symbol dataType = .ok opno := by
  obtain ⟨engine, hoperators⟩ := hp.operators
  obtain ⟨opno, hopno⟩ := OperatorCatalog.exists_find?_comparison (α := α) engine dataType s
  rw [← hoperators] at hopno
  exact ⟨opno, by rw [typeOperator, hopno]⟩

omit [Number α] hp in
theorem exists_lookup_of_typeOperator {name : String} {dataType : DataType}
    (h : typeOperator p name dataType = .ok opno) : ∃ op, p.operators.lookup opno = .ok op := by
  rw [typeOperator] at h
  split at h
  · rename_i found hfound
    cases h
    exact OperatorCatalog.exists_lookup_of_find? hfound
  · cases h

theorem prefixRange_total {dataType : DataType} {fixed : Datum α} (he : p.BindsAll e) :
    ∃ f, prefixRange p e dataType fixed = .ok f := by
  have hconst := p.bindsAll_const dataType
  refine except_bind_total (typeOperator_total hp .greaterEqual dataType) fun atLeast hatLeast => ?_
  refine except_bind_total (scalar_total hp he (hconst _)
    (exists_lookup_of_typeOperator hatLeast)) fun above _ => ?_
  split
  · exact ⟨_, rfl⟩
  · refine except_bind_total (typeOperator_total hp .less dataType) fun lessThan hlessThan => ?_
    refine except_bind_total (scalar_total hp he (hconst _)
      (exists_lookup_of_typeOperator hlessThan)) fun below _ => ?_
    refine except_bind_total (nullTest_total he) fun nulls _ => ?_
    dsimp only
    split <;> exact ⟨_, rfl⟩

omit [Number α] hp in
/-- A text is split as a pattern of any kind, and what is left is a text. -/
theorem ofPattern_total (kind : PatternType) (s : String) :
    ∃ split : FixedPrefix α, FixedPrefix.ofPattern kind (.text s) = .ok split ∧
      ∃ t, split.rest = .text t := by
  have hregex (anyCase : Bool) : ∃ split : FixedPrefix α,
      FixedPrefix.ofRegex anyCase (.text s) = .ok split ∧ ∃ t, split.rest = .text t := by
    rw [FixedPrefix.ofRegex]
    split
    · split
      · exact ⟨_, rfl, _, rfl⟩
      · refine ⟨_, rfl, ?_⟩
        split_ifs <;> exact ⟨_, rfl⟩
    · exact ⟨_, rfl, _, rfl⟩
  cases kind with
  | like | likeAnyCase => exact ⟨_, rfl, _, rfl⟩
  | regex | regexAnyCase => exact hregex _

omit hp in
theorem weight_total (kind : PatternType) (s : String) :
    ∃ w, PatternWeight.ofPattern kind (.text s : Datum α) = .ok w := by
  have hregex : ∃ w, PatternWeight.ofRegex (.text s : Datum α) = .ok w := by
    rw [PatternWeight.ofRegex]
    split <;> exact ⟨_, rfl⟩
  cases kind with
  | like | likeAnyCase => exact ⟨_, rfl⟩
  | regex | regexAnyCase => exact hregex

omit [Number α] hp in
theorem eq_const_of_comparand {value : Datum α} {dataType : DataType}
    (h : comparand e = .value value dataType) : e = .const dataType (some value) := by
  unfold comparand at h
  split at h <;> cases h
  rfl

/-- A constant text is taken apart; its prefix is compared by operators of the
column's type, which are built in. -/
theorem matching_total {kind : PatternType} (hl : p.BindsAll l) (hr : p.BindsAll r)
    (htext : r.IsTextPattern) : ∃ f, matching p [l, r] var kind = .ok f := by
  refine except_bind_total (Variable.restriction?_total hl hr) fun x hx => ?_
  split
  · exact ⟨_, rfl⟩
  · rename_i x
    -- Only a constant to the right of the column is taken apart.
    split
    · exact ⟨_, rfl⟩
    · rename_i pattern patternType e more hleft hother hargs
      obtain ⟨rfl, rfl⟩ := List.cons.inj hargs
      split
      · exact ⟨_, rfl⟩
      · split
        · exact ⟨_, rfl⟩
        · obtain ⟨s, rfl⟩ := htext patternType pattern
            (Variable.other_of_restriction? hx hleft ▸ eq_const_of_comparand hother)
          obtain ⟨split, hsplit, t, ht⟩ := ofPattern_total (α := α) kind s
          obtain ⟨w, hw⟩ := weight_total (α := α) kind t
          rw [← ht] at hw
          dsimp only
          refine except_bind_total_of_ok hsplit ?_
          have hconst := p.bindsAll_const x.var.type
          -- By status: the whole pattern is fixed, its front is, or nothing is.
          split
          · refine except_bind_total (typeOperator_total hp .equal _) fun equal hequal => ?_
            exact equality_total hl (hconst _) (exists_lookup_of_typeOperator hequal)
          · refine except_bind_total (prefixRange_total hp hl) fun range _ => ?_
            exact except_bind_total ⟨w, hw⟩ fun _ _ => ⟨_, rfl⟩
          · exact except_bind_total ⟨w, hw⟩ fun _ _ => ⟨_, rfl⟩
    · exact ⟨_, rfl⟩

theorem restriction_total (hl : p.BindsAll l) (hr : p.BindsAll r)
    (hop : p.operators.get? opno = some op) (hpattern : op.IsMatch → r.IsTextPattern) :
    ∃ f, restriction p opno [l, r] var = .ok f := by
  have hlookup := OperatorCatalog.lookup_of_get? hop
  rw [restriction]
  refine except_bind_total_of_ok hlookup ?_
  dsimp only
  split
  · exact except_bind_total (equality_total hl hr ⟨op, hlookup⟩) fun _ _ => ⟨_, rfl⟩
  · exact except_bind_total (inequality_total hp hl hr) fun _ _ => ⟨_, rfl⟩
  · exact except_bind_total (scalar_total hp hl hr ⟨op, hlookup⟩) fun _ _ => ⟨_, rfl⟩
  · exact except_bind_total (scalar_total hp hl hr ⟨op, hlookup⟩) fun _ _ => ⟨_, rfl⟩
  · rename_i kind hkind
    exact except_bind_total (matching_total hp hl hr (hpattern ⟨kind, .inl hkind⟩))
      fun _ _ => ⟨_, rfl⟩
  · rename_i kind hkind
    obtain ⟨f, hf⟩ := matching_total hp hl hr (hpattern ⟨kind, .inr hkind⟩)
    exact ⟨_, by rw [hf]; rfl⟩
  · exact ⟨_, rfl⟩

end Restrictions

/-! ## Join clauses -/

theorem joinInequality_total (hp : p.Ready) (hl : p.BindsAll l) (hr : p.BindsAll r) :
    ∃ f, joinInequality p opno [l, r] type = .ok f := by
  rw [joinInequality.eq_def]
  split
  · rename_i other hother
    exact except_bind_total (joinEquality_total hl hr (hp.closed.exists_negator hother))
      fun _ _ => ⟨_, rfl⟩
  · exact ⟨_, rfl⟩

theorem joinClause_total (hp : p.Ready) (hl : p.BindsAll l) (hr : p.BindsAll r)
    (hop : p.operators.get? opno = some op) :
    ∃ f, joinClause p opno [l, r] type = .ok f := by
  have hlookup := OperatorCatalog.lookup_of_get? hop
  rw [joinClause]
  refine except_bind_total_of_ok hlookup ?_
  dsimp only
  split
  · exact except_bind_total (joinEquality_total hl hr ⟨op, hlookup⟩) fun _ _ => ⟨_, rfl⟩
  · exact except_bind_total (joinInequality_total hp hl hr) fun _ _ => ⟨_, rfl⟩
  all_goals exact ⟨_, rfl⟩

/-! ## Conjunctions -/

/-- Every bound is on an expression that was added, or on one from before. -/
theorem mem_addBound {isLower : Bool} {f : α} {bounds : List (Bounds α)} {b : Bounds α}
    (h : b ∈ addBound e isLower f bounds) : b.expr = e ∨ ∃ b' ∈ bounds, b'.expr = b.expr := by
  induction bounds with
  | nil =>
      rw [addBound, List.mem_singleton] at h
      rw [h]
      cases isLower <;> exact .inl rfl
  | cons c rest ih =>
      rw [addBound] at h
      split at h
      · rename_i hc
        obtain rfl | h := List.mem_cons.mp h
        · cases isLower <;> exact .inl hc
        · exact .inr ⟨b, List.mem_cons_of_mem c h, rfl⟩
      · obtain rfl | h := List.mem_cons.mp h
        · exact .inr ⟨b, List.mem_cons_self, rfl⟩
        · exact (ih h).imp_right fun ⟨b', hb', he⟩ => ⟨b', List.mem_cons_of_mem c hb', he⟩

omit [Number α] in
/-- A comparison bounds one of its operands. -/
theorem eq_of_bounded? {x : Expr α} {onLeft : Bool}
    (h : bounded? e l r var = some (x, onLeft)) : x = l ∨ x = r := by
  rw [bounded?] at h
  split at h
  · split at h <;> cases h
    · exact .inl rfl
    · exact .inr rfl
  · cases h

omit [Number α] in
theorem bindsAll_of_bound? (hp : p.Ready) (he : p.Estimable e) {x : Expr α} {isLower : Bool}
    (h : bound? p e var = some (x, isLower)) : p.BindsAll x := by
  rw [bound?] at h
  split at h
  · cases h
  · rename_i opno l r hbinary
    obtain rfl := Expr.eq_op_of_binary? hbinary
    obtain ⟨-, l', r', hargs, -, -, hl, hr⟩ := he.op
    cases hargs
    have hoperand : ∀ {onLeft : Bool}, bounded? (.op opno [l, r]) l r var = some (x, onLeft) →
        p.BindsAll x := fun hbounded => by
      obtain rfl | rfl := eq_of_bounded? hbounded
      · exact hl.bindsAll hp
      · exact hr.bindsAll hp
    split at h
    · rename_i hbounded _
      cases h
      exact hoperand hbounded
    · rename_i hbounded _
      cases h
      exact hoperand hbounded
    · cases h

theorem between_total {lower upper : α} (he : p.BindsAll e) :
    ∃ f, between p e lower upper var = .ok f := by
  rw [between]
  split
  · exact ⟨_, rfl⟩
  · refine except_bind_total (nullTest_total he) fun nulls _ => ?_
    dsimp only
    split
    · exact ⟨_, rfl⟩
    · split <;> exact ⟨_, rfl⟩

theorem fraction_total {b : Bounds α} (hb : p.BindsAll b.expr) :
    ∃ f, b.fraction p var = .ok f := by
  rw [Bounds.fraction]
  split
  · exact between_total hb
  all_goals exact ⟨_, rfl⟩

theorem together_total_of_estimable (hp : p.Ready) {clauses : List (Expr α × α)}
    (h : ∀ x ∈ clauses, p.Estimable x.1) : ∃ f, together p var clauses = .ok f := by
  have hbounds : ∀ b ∈ (clauses.foldl (fun (c : Conjunction α) x => c.add p var x.1 x.2)
      ⟨1, []⟩).bounds, p.BindsAll b.expr := by
    refine List.foldlRecOn
      (motive := fun c : Conjunction α => ∀ b ∈ c.bounds, p.BindsAll b.expr) clauses _ nofun ?_
    intro c hc x hx b hb
    -- A clause adds at most one bound, on one of its operands.
    rw [Conjunction.add] at hb
    split at hb
    · rename_i y isLower hy
      obtain hb | ⟨b', hb', hexpr⟩ := mem_addBound hb
      · exact hb ▸ bindsAll_of_bound? hp (h x hx) hy
      · exact hexpr ▸ hc b' hb'
    · exact hc b hb
  rw [together]
  refine except_bind_total (foldlM_total (fun acc b hb => ?_) _) fun _ _ => ⟨_, rfl⟩
  exact except_bind_total (fraction_total (hbounds b hb)) fun _ _ => ⟨_, rfl⟩

/-! ## Clauses -/

/-- The equality of truth values, which a boolean column is compared with. -/
theorem booleanColumn_total (hp : p.Ready) {v : Var} (hv : p.Estimable (.var v)) :
    ∃ f, booleanColumn p v var = .ok f := by
  have hbinds := hv.bindsAll hp
  have hentry : ∃ entry, p.entry v.relation = .ok entry :=
    hp.entry _ (hv _ (Expr.self_mem_subterms _))
  obtain ⟨engine, hoperators⟩ := hp.operators
  refine except_bind_total hentry fun entry _ => ?_
  split
  · exact ⟨_, rfl⟩
  · have hfind : p.operators.find? "=" .bool .bool = some 1000 := by
      rw [hoperators]
      rfl
    have hget : p.operators.get? 1000 = some (OperatorCatalog.comparison 1000 .bool .equal) := by
      rw [hoperators]
      rfl
    rw [hfind]
    refine restriction_total hp hbinds (p.bindsAll_const _ _) hget ?_
    rintro ⟨kind, h | h⟩ <;> cases h

mutual

/-- A clause is taken apart as its estimate is. -/
theorem clause_total_of_estimable (hp : p.Ready) : ∀ {e : Expr α}, p.Estimable e →
    ∃ f, clause p var type e = .ok f
  | .var v, he => by
      rw [clause]
      split
      · exact booleanColumn_total hp he
      · exact ⟨_, rfl⟩
  | .const t value, he => by
      by_cases htrue : value = some (.bool true)
      · rw [htrue, clause]
        exact ⟨_, rfl⟩
      · rw [clause]
        · exact ⟨_, rfl⟩
        · exact htrue
  | .relabel a _ _, he => by
      rw [clause]
      exact clause_total_of_estimable hp he.relabel
  | .func .., he => by
      rw [clause]
      exact ⟨_, rfl⟩
  | .op opno args, he => by
      obtain ⟨op, l, r, rfl, hop, hpattern, hl, hr⟩ := he.op
      rw [clause]
      split
      · exact joinClause_total hp (hl.bindsAll hp) (hr.bindsAll hp) hop
      · exact restriction_total hp (hl.bindsAll hp) (hr.bindsAll hp) hop hpattern
  | .boolTest test a, he => by
      rw [clause]
      exact boolTest_total (he.boolTest.bindsAll hp) (clause_total_of_estimable hp he.boolTest)
  | .nullTest test a, he => by
      rw [clause]
      exact nullTest_total (he.nullTest.bindsAll hp)
  | .and args, he => by
      rw [clause]
      refine except_bind_total (each_total_of_estimable hp fun a => he.and) fun fs _ => ?_
      exact together_total_of_estimable hp fun x hx => he.and (List.of_mem_zip hx).1
  | .or args, he => by
      rw [clause]
      exact except_bind_total (each_total_of_estimable hp fun a => he.or) fun _ _ => ⟨_, rfl⟩
  | .not a, he => by
      rw [clause]
      exact except_bind_total (clause_total_of_estimable hp he.not) fun _ _ => ⟨_, rfl⟩

theorem each_total_of_estimable (hp : p.Ready) : ∀ {es : List (Expr α)},
    (∀ e ∈ es, p.Estimable e) → ∃ fs, each p var type es = .ok fs
  | [], _ => by
      rw [each]
      exact ⟨_, rfl⟩
  | e :: rest, he => by
      rw [each]
      refine except_bind_total
        (clause_total_of_estimable hp (he e List.mem_cons_self)) fun f _ => ?_
      refine except_bind_total
        (each_total_of_estimable hp fun a ha => he a (List.mem_cons_of_mem e ha)) fun _ _ => ?_
      exact ⟨_, rfl⟩

end

section Example

end Example

end Selectivity

end QueryPlanner
