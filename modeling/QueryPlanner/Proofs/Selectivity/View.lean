/-
  QueryPlanner.Proofs.Selectivity.View

  How much of a session an estimate looks at.

  Of the relations an estimate reads base relations, and joins of relations
  that the expression in question reads; of none it reads the paths.  The rest
  of a session can be taken away: its `view` for a set of members gives the
  same estimates of expressions over them.  So two sessions with the same view
  agree on these, whatever joins either has built besides.
-/

import QueryPlanner.Proofs.Planner.Numbers
import QueryPlanner.Proofs.Selectivity.Total

namespace QueryPlanner

open PlanM

variable {α : Type}

/-! ## The view of a session -/

/-- A relation without its paths. -/
def Relation.bare (r : Relation α) : Relation α := { r with paths := [] }

namespace Planner

/-- The base relations of a session, and its joins inside a set of members. -/
def view (p : Planner α) (s : RelSet) : Planner α :=
  p.withRelations ((p.relations.map Relation.bare).filter fun r =>
    r.kind = .base ∨ r.relids.isSubset s)

variable {p : Planner α} {s t : RelSet} {relid : RtIndex}

/-- The settings are part of every view. -/
theorem settings_eq_of_view {q : Planner α} (h : p.view s = q.view s) :
    p.settings = q.settings := by
  have hsettings : (p.view s).settings = (q.view s).settings := by rw [h]
  exact hsettings

theorem baseRelation?_view : (p.view s).baseRelation? relid =
    (p.baseRelation? relid).map Relation.bare := by
  rw [baseRelation?_eq_find, baseRelation?_eq_find, view, withRelations_relations,
    List.find?_filter, List.find?_map]
  congr 1
  refine congrArg (List.find? · p.relations) (funext fun r => Bool.eq_iff_iff.mpr ?_)
  -- Only a base relation has a position.
  cases hk : r.kind with
  | base => simp [Relation.bare, Relation.relid?, hk]
  | join => simp [Relation.bare, Relation.relid?, hk]

theorem baseRelation_view :
    (p.view s).baseRelation relid = Relation.bare <$> p.baseRelation relid := by
  rw [baseRelation, baseRelation?_view, baseRelation]
  cases p.baseRelation? relid with
  | none => rfl
  | some r => rfl

theorem joinRelation?_view (h : t.isSubset s = true) :
    (p.view s).joinRelation? t = (p.joinRelation? t).map Relation.bare := by
  rw [joinRelation?_eq_find, joinRelation?_eq_find, view, withRelations_relations,
    List.find?_filter, List.find?_map]
  congr 1
  refine congrArg (List.find? · p.relations) (funext fun r => ?_)
  by_cases ht : r.relids = t
  · simp [Relation.bare, ht, h]
  · simp [Relation.bare, ht]

theorem entry_view : (p.view s).entry relid = p.entry relid := rfl

theorem operators_view : (p.view s).operators = p.operators := rfl

end Planner

/-! ## Expressions over a set of members -/

namespace Expr

variable {e a : Expr α} {args : List (Expr α)} {s : RelSet}

theorem over_of_occurrences (h : e.Over s) (ha : ∀ v ∈ a.occurrences, v ∈ e.occurrences) :
    a.Over s := by
  refine over_of_vars fun v hv => over_var_iff.mpr (h ?_)
  have hv' : v ∈ e.vars := List.mem_eraseDups.mpr (ha v (List.mem_eraseDups.mp hv))
  exact mem_relations_iff.mpr ⟨v, hv', rfl⟩

theorem mem_occurrencesList {v : Var} (ha : a ∈ args) (hv : v ∈ a.occurrences) :
    v ∈ occurrencesList args := by
  induction args with
  | nil => cases ha
  | cons b rest ih =>
      rw [occurrencesList, List.mem_append]
      rcases List.mem_cons.mp ha with rfl | ha
      · exact .inl hv
      · exact .inr (ih ha)

section Over

variable {type : DataType} {typmod : Int} {i : Oid}

theorem Over.relabel (h : (Expr.relabel a type typmod).Over s) : a.Over s :=
  over_of_occurrences h fun v hv => by rwa [occurrences]

theorem Over.boolTest {test : BoolTest} (h : (Expr.boolTest test a).Over s) : a.Over s :=
  over_of_occurrences h fun v hv => by rwa [occurrences]

theorem Over.not (h : (Expr.not a).Over s) : a.Over s :=
  over_of_occurrences h fun v hv => by rwa [occurrences]

theorem Over.op {opno : Oid} (h : (Expr.op opno args).Over s) (ha : a ∈ args) : a.Over s :=
  over_of_occurrences h fun v hv => by
    rw [occurrences]
    exact mem_occurrencesList ha hv

theorem Over.and (h : (Expr.and args).Over s) (ha : a ∈ args) : a.Over s :=
  over_of_occurrences h fun v hv => by
    rw [occurrences]
    exact mem_occurrencesList ha hv

theorem Over.or (h : (Expr.or args).Over s) (ha : a ∈ args) : a.Over s :=
  over_of_occurrences h fun v hv => by
    rw [occurrences]
    exact mem_occurrencesList ha hv

end Over

/-- An estimate for one relation looks at this one.  Any other looks at the
join of the relations that the expression reads, if there are several. -/
def ReadsIn (s : RelSet) (var : Option RtIndex) (e : Expr α) : Prop :=
  var = none → e.relations.membership = .multiple → e.Over s

theorem Over.readsIn {var : Option RtIndex} (h : var = none → e.Over s) : e.ReadsIn s var :=
  fun hvar _ => h hvar

theorem readsIn_const {var : Option RtIndex} {dataType : DataType} {value : Option (Datum α)} :
    (Expr.const dataType value).ReadsIn s var :=
  fun _ hm => nomatch hm

end Expr

/-! ## Variables -/

namespace Variable

variable {p : Planner α} {s : RelSet} {e : Expr α} {v : Variable α} {var : Option RtIndex}
  {args : List (Expr α)}

/-- A variable without the paths of its relation. -/
def bare (v : Variable α) : Variable α := { v with relation := v.relation.map Relation.bare }

theorem bound_view (relation : Option (Relation α)) :
    bound (p.view s) e (relation.map Relation.bare) = (bound p e relation).bare := by
  cases relation with
  | none => rfl
  | some r => rfl

theorem ofColumn_view {c : Var} : ofColumn (p.view s) e c = bare <$> ofColumn p e c := by
  rw [ofColumn, ofColumn, Planner.baseRelation_view, Planner.entry_view]
  cases p.baseRelation c.relation with
  | error err => rfl
  | ok r =>
      cases p.entry c.relation with
      | error err => rfl
      | ok entry => rfl

section Examine

variable [Number α]

theorem ofComputed_view {relid : RtIndex} :
    ofComputed (p.view s) e relid = bare <$> ofComputed p e relid := by
  rw [ofComputed, ofComputed, Planner.baseRelation_view]
  cases p.baseRelation relid with
  | error err => rfl
  | ok r => rfl

omit [Number α] in
theorem ofSeveral_view {t : RelSet} (h : var = none → t.isSubset s = true) :
    ofSeveral (p.view s) e t var = bare <$> ofSeveral p e t var := by
  cases var with
  | none =>
      rw [ofSeveral, ofSeveral, Planner.joinRelation?_view (h rfl), bound_view]
      rfl
  | some x =>
      rw [ofSeveral, ofSeveral]
      by_cases hx : t.contains x = true
      · rw [if_pos hx, if_pos hx, Planner.baseRelation_view]
        cases p.baseRelation x with
        | error err => rfl
        | ok r => rfl
      · rw [if_neg hx, if_neg hx]
        rfl

theorem ofExpr_view (h : e.ReadsIn s var) : ofExpr (p.view s) e var = bare <$> ofExpr p e var := by
  rw [Expr.ReadsIn, Expr.Over, ← Expr.relations_stripRelabel] at h
  rw [ofExpr, ofExpr]
  split
  · rfl
  · split
    · exact ofComputed_view
    · rfl
  · rename_i hm
    exact ofSeveral_view fun hvar => RelSet.isSubset_iff.mpr (h hvar hm)

/-- Of an expression over several relations nothing is known but their join. -/
theorem examine_of_multiple (h : e.relations.membership = .multiple) :
    examine p e none = .ok (bound p e (p.joinRelation? e.relations)) := by
  rw [← Expr.relations_stripRelabel] at h
  have hexpr : ofExpr p e none = .ok (bound p e (p.joinRelation? e.relations)) := by
    rw [ofExpr, h, Expr.relations_stripRelabel]
    rfl
  rw [examine]
  split
  · rename_i c hc
    -- A column reads one relation.
    rw [hc, Expr.relations_var] at h
    cases h
  · exact hexpr

/-- The same is found of an expression, up to the paths of its relation. -/
theorem examine_view (h : e.ReadsIn s var) :
    examine (p.view s) e var = bare <$> examine p e var := by
  rw [examine, examine]
  split
  · split
    · exact ofColumn_view
    · exact ofExpr_view h
  · exact ofExpr_view h

/-- Whatever an expression reads, the statistics for it are found with base
relations alone. -/
theorem statistics_view : statistics <$> examine (p.view s) e var = statistics <$> examine p e var := by
  by_cases h : e.ReadsIn s var
  · rw [examine_view h]
    cases examine p e var with
    | error err => rfl
    | ok v => rfl
  · -- A join has none.
    rw [Expr.ReadsIn, not_forall, not_forall] at h
    obtain ⟨rfl, hm, -⟩ := h
    rw [examine_of_multiple hm, examine_of_multiple hm]
    cases p.joinRelation? e.relations <;> cases (p.view s).joinRelation? e.relations <;> rfl

/-- A restriction without the paths of its relation. -/
def Restriction.bare (r : Restriction α) : Restriction α := { r with var := r.var.bare }

theorem restriction?_view (h : ∀ a ∈ args, a.ReadsIn s var) :
    restriction? (p.view s) args var = Option.map Restriction.bare <$> restriction? p args var := by
  rw [restriction?.eq_def, restriction?.eq_def p]
  split
  · rename_i a b
    rw [examine_view (h a List.mem_cons_self),
      examine_view (h b (List.mem_cons_of_mem a List.mem_cons_self))]
    cases examine p a var with
    | error err => rfl
    | ok l =>
        cases examine p b var with
        | error err => rfl
        | ok r =>
            -- Which of the two belongs to a relation does not depend on paths.
            obtain ⟨le, lrelation⟩ := l
            obtain ⟨re, rrelation⟩ := r
            cases lrelation <;> cases rrelation <;> rfl
  · rfl

theorem joinOperands_view (h : ∀ a ∈ args, a.Over s) :
    joinOperands (p.view s) args = Prod.map bare bare <$> joinOperands p args := by
  rw [joinOperands.eq_def, joinOperands.eq_def p]
  split
  · rename_i a b
    rw [examine_view (Expr.Over.readsIn fun _ => h a List.mem_cons_self),
      examine_view (Expr.Over.readsIn fun _ => h b (List.mem_cons_of_mem a List.mem_cons_self))]
    cases examine p a none with
    | error err => rfl
    | ok l =>
        cases examine p b none with
        | error err => rfl
        | ok r => rfl
  · rfl

theorem distinctCount_view : v.bare.distinctCount (p.view s) = v.distinctCount p := by
  obtain ⟨e, relation⟩ := v
  cases relation with
  | none => cases e <;> rfl
  | some r => cases e <;> rfl

end Examine

end Variable

variable [Number α] {p : Planner α} {s : RelSet} {e : Expr α} {args : List (Expr α)} {opno : Oid}
  {var : Option RtIndex} {type : JoinType}

namespace Selectivity

/-! ## Restrictions -/

/-- A null test needs no more than the statistics. -/
theorem nullTest_eq {test : NullTest} : nullTest p test e var =
    (fun known => clampProbability <|
      match known, test with
      | some t, .isNull => t.nullFraction
      | some t, .isNotNull => 1 - t.nullFraction
      | none, .isNull => p.settings.selectivity.unknown
      | none, .isNotNull => p.settings.selectivity.notUnknown) <$>
    (Variable.statistics <$> Variable.examine p e var) := by
  rw [nullTest]
  cases Variable.examine p e var with
  | error err => rfl
  | ok v => rfl

theorem nullTest_view {test : NullTest} : nullTest (p.view s) test e var = nullTest p test e var := by
  rw [nullTest_eq, nullTest_eq, Variable.statistics_view]
  rfl

theorem boolTest_view {test : BoolTest} {plain plain' : Unit → Except (PlanError α) α}
    (h : e.ReadsIn s var) (hplain : plain () = plain' ()) :
    boolTest (p.view s) test e var plain = boolTest p test e var plain' := by
  rw [boolTest.eq_def, boolTest.eq_def, Variable.examine_view h, hplain]
  cases Variable.examine p e var with
  | error err => rfl
  | ok v => rfl

theorem equality_view (h : ∀ a ∈ args, a.ReadsIn s var) :
    equality (p.view s) opno args var = equality p opno args var := by
  rw [equality, equality, Variable.restriction?_view h]
  cases Variable.restriction? p args var with
  | error err => rfl
  | ok found =>
      cases found with
      | none => rfl
      | some r =>
          have hdistinct : r.var.bare.distinctCount (p.view s) = r.var.distinctCount p :=
            Variable.distinctCount_view
          dsimp only [Functor.map, Except.map, bind, Except.bind, Option.map,
            Variable.Restriction.bare]
          simp only [hdistinct]
          rfl

theorem inequality_view (h : ∀ a ∈ args, a.ReadsIn s var) :
    inequality (p.view s) opno args var = inequality p opno args var := by
  rw [inequality.eq_def, inequality.eq_def]
  rw [Planner.operators_view]
  split
  · rw [equality_view h]
  · rfl

theorem scalar_view {greater : Bool} (h : ∀ a ∈ args, a.ReadsIn s var) :
    scalar (p.view s) opno greater args var = scalar p opno greater args var := by
  rw [scalar, scalar, Variable.restriction?_view h]
  cases Variable.restriction? p args var with
  | error err => rfl
  | ok found =>
      cases found with
      | none => rfl
      | some r => rfl

/-- Next to an expression over several relations, of which no values are known,
a constant counts for nothing. -/
theorem scalar_of_multiple {greater : Bool} {dataType : DataType} {value : Datum α}
    (h : e.relations.membership = .multiple) :
    scalar p opno greater [e, .const dataType (some value)] none =
      .ok p.settings.selectivity.inequality := by
  rw [scalar, Variable.restriction?, Variable.examine_of_multiple h]
  cases p.joinRelation? e.relations with
  | none => rfl
  | some r => rfl

theorem prefixRange_view {dataType : DataType} {fixed : Datum α} :
    prefixRange (p.view s) e dataType fixed = prefixRange p e dataType fixed := by
  have hscalar (opno : Oid) (greater : Bool) (value : Datum α) :
      scalar (p.view s) opno greater [e, .const dataType (some value)] none =
        scalar p opno greater [e, .const dataType (some value)] none := by
    -- Of an expression that reads more than the set nothing is known either way.
    by_cases he : e.ReadsIn s none
    · refine scalar_view (List.forall_mem_cons.mpr ⟨he, List.forall_mem_singleton.mpr ?_⟩)
      exact fun _ hm => nomatch hm
    · rw [Expr.ReadsIn, not_forall, not_forall] at he
      obtain ⟨-, hm, -⟩ := he
      rw [scalar_of_multiple hm, scalar_of_multiple hm]
      rfl
  have hoperator (name : String) : typeOperator (p.view s) name dataType =
      typeOperator p name dataType := rfl
  rw [prefixRange, prefixRange]
  simp only [hscalar, hoperator, nullTest_view]
  rfl

theorem matching_view {kind : PatternType} (h : ∀ a ∈ args, a.ReadsIn s var) :
    matching (p.view s) args var kind = matching p args var kind := by
  rw [matching, matching, Variable.restriction?_view h]
  cases Variable.restriction? p args var with
  | error err => rfl
  | ok found =>
      cases found with
      | none => rfl
      | some r =>
          dsimp only [Functor.map, Except.map, bind, Except.bind, Option.map,
            Variable.Restriction.bare, Variable.bare]
          split
          · rfl
          · rename_i first rest _ _
            -- A pattern that is fixed as a whole is estimated as an equality.
            have hequality (opno : Oid) (value : Datum α) :
                equality (p.view s) opno [first, .const r.var.type (some value)] var =
                  equality p opno [first, .const r.var.type (some value)] var :=
              equality_view (List.forall_mem_cons.mpr ⟨h first List.mem_cons_self,
                List.forall_mem_singleton.mpr Expr.readsIn_const⟩)
            simp only [hequality, prefixRange_view]
            rfl
          · rfl

theorem restriction_view (h : ∀ a ∈ args, a.ReadsIn s var) :
    restriction (p.view s) opno args var = restriction p opno args var := by
  rw [restriction, restriction, Planner.operators_view]
  simp only [equality_view h, inequality_view h, scalar_view h, matching_view h]
  rfl

/-! ## Join clauses -/

theorem joinEquality_view (h : ∀ a ∈ args, a.Over s) :
    joinEquality (p.view s) opno args type = joinEquality p opno args type := by
  rw [joinEquality, joinEquality, Variable.joinOperands_view h]
  cases Variable.joinOperands p args with
  | error err => rfl
  | ok operands =>
      obtain ⟨l, r⟩ := operands
      have hleft : l.bare.distinctCount (p.view s) = l.distinctCount p :=
        Variable.distinctCount_view
      have hright : r.bare.distinctCount (p.view s) = r.distinctCount p :=
        Variable.distinctCount_view
      dsimp only [Functor.map, Except.map, bind, Except.bind, Prod.map]
      rw [hleft, hright]
      rfl

theorem joinInequality_view (h : ∀ a ∈ args, a.Over s) :
    joinInequality (p.view s) opno args type = joinInequality p opno args type := by
  rw [joinInequality.eq_def, joinInequality.eq_def, Planner.operators_view]
  split
  · rw [joinEquality_view h]
  · rfl

theorem joinClause_view (h : ∀ a ∈ args, a.Over s) :
    joinClause (p.view s) opno args type = joinClause p opno args type := by
  rw [joinClause, joinClause, Planner.operators_view]
  simp only [joinEquality_view h, joinInequality_view h]
  rfl

/-! ## Lists of clauses -/

theorem fraction_view {b : Bounds α} : b.fraction (p.view s) var = b.fraction p var := by
  have hbetween (e : Expr α) (lower upper : α) :
      between (p.view s) e lower upper var = between p e lower upper var := by
    rw [between, between, nullTest_view]
    rfl
  rw [Bounds.fraction, Bounds.fraction]
  simp only [hbetween]

theorem together_view {clauses : List (Expr α × α)} :
    together (p.view s) var clauses = together p var clauses := by
  have hadd : Conjunction.add (p.view s) var = Conjunction.add p var := rfl
  rw [together, together, hadd]
  simp only [fraction_view]

theorem booleanColumn_view {c : Var} (h : var = none → (.var c : Expr α).Over s) :
    booleanColumn (p.view s) c var = booleanColumn p c var := by
  have hrestriction (opno : Oid) :
      restriction (p.view s) opno [.var c, .const .bool (some (.bool true))] var =
        restriction p opno [.var c, .const .bool (some (.bool true))] var :=
    restriction_view (List.forall_mem_cons.mpr ⟨Expr.Over.readsIn h,
      List.forall_mem_singleton.mpr Expr.readsIn_const⟩)
  rw [booleanColumn, booleanColumn, Planner.entry_view, Planner.operators_view]
  simp only [hrestriction]

mutual

/-- A clause is taken apart as its estimate is. -/
theorem clause_view : ∀ {e : Expr α}, (var = none → e.Over s) →
    clause (p.view s) var type e = clause p var type e
  | .var c, h => by
      rw [clause, clause, booleanColumn_view h]
  | .const t value, _ => by
      by_cases htrue : value = some (.bool true)
      · rw [htrue, clause, clause]
      · rw [clause, clause] <;> exact htrue
  | .relabel a _ _, h => by
      rw [clause, clause]
      exact clause_view fun hvar => (h hvar).relabel
  | .func .., _ => by
      rw [clause, clause]
  | .op opno args, h => by
      rw [clause, clause]
      split
      · -- A join clause is estimated for no relation in particular.
        rename_i hjoin
        rw [Bool.and_eq_true, Option.isNone_iff_eq_none] at hjoin
        exact joinClause_view fun a => (h hjoin.1).op
      · exact restriction_view fun a ha => Expr.Over.readsIn fun hvar => (h hvar).op ha
  | .boolTest test a, h => by
      rw [clause, clause]
      exact boolTest_view (Expr.Over.readsIn fun hvar => (h hvar).boolTest)
        (clause_view fun hvar => (h hvar).boolTest)
  | .nullTest test a, _ => by
      rw [clause, clause, nullTest_view]
  | .and args, h => by
      rw [clause, clause, each_view fun a ha hvar => (h hvar).and ha]
      simp only [together_view]
  | .or args, h => by
      rw [clause, clause, each_view fun a ha hvar => (h hvar).or ha]
  | .not a, h => by
      rw [clause, clause, clause_view fun hvar => (h hvar).not]

theorem each_view : ∀ {es : List (Expr α)}, (∀ e ∈ es, var = none → e.Over s) →
    each (p.view s) var type es = each p var type es
  | [], _ => by
      rw [each, each]
  | e :: rest, h => by
      rw [each, each, clause_view (h e List.mem_cons_self),
        each_view fun a ha => h a (List.mem_cons_of_mem e ha)]

end

theorem clauseList_view {es : List (Expr α)} (h : var = none → ∀ e ∈ es, e.Over s) :
    clauseList (p.view s) es var type = clauseList p es var type := by
  rw [clauseList, clauseList, each_view fun e he hvar => h hvar e he]
  simp only [together_view]

/-! ## Merges -/

/-- What a merge reads of its inputs. -/
theorem mergeScan_view (h : e.Over s) : mergeScan (p.view s) e = mergeScan p e := by
  rw [mergeScan, mergeScan]
  split
  · rfl
  · rename_i opno l r hbinary
    obtain rfl := Expr.eq_op_of_binary? hbinary
    have hl : l.Over s := h.op List.mem_cons_self
    have hr : r.Over s := h.op (List.mem_cons_of_mem l List.mem_cons_self)
    rw [Variable.examine_view (Expr.Over.readsIn fun _ => hl),
      Variable.examine_view (Expr.Over.readsIn fun _ => hr)]
    cases Variable.examine p l none with
    | error err => rfl
    | ok lv =>
        cases Variable.examine p r none with
        | error err => rfl
        | ok rv => rfl

end Selectivity

/-- How full the buckets of a hash table are. -/
theorem Grouping.bucketSize_view {buckets : Nat} (h : e.Over s) :
    bucketSize (p.view s) e buckets = bucketSize p e buckets := by
  rw [bucketSize, bucketSize, Variable.examine_view (Expr.Over.readsIn fun _ => h)]
  cases Variable.examine p e none with
  | error err => rfl
  | ok v =>
      have hdistinct : v.bare.distinctCount (p.view s) = v.distinctCount p :=
        Variable.distinctCount_view
      dsimp only [Functor.map, Except.map, bind, Except.bind]
      rw [hdistinct]
      obtain ⟨x, relation⟩ := v
      cases relation with
      | none => rfl
      | some r => rfl

end QueryPlanner
