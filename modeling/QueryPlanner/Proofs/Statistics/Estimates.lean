/-
  QueryPlanner.Proofs.Statistics.Estimates

  What estimates ask of their statistics.

  A planner has its statistics as a provider.  No estimate needs more of it
  than answers to single requests: those made where a variable is examined,
  where a row is measured, and where the order of an index is compared with
  that of the heap.  Everything else follows from these through the structure
  of the estimates.
-/

import QueryPlanner.Path.Joins
import QueryPlanner.Planner.Build
import QueryPlanner.Proofs.Statistics.Inquiry

namespace QueryPlanner

variable {α β : Type}

/-- The session, given other statistics. -/
def Planner.given (p : Planner α) (s : StatisticsProvider α) : Planner α :=
  { p with statistics := s }

theorem Planner.settings_given (p : Planner α) (s : StatisticsProvider α) :
    (p.given s).settings = p.settings := rfl

theorem Planner.operators_given (p : Planner α) (s : StatisticsProvider α) :
    (p.given s).operators = p.operators := rfl

variable {p : Planner α} {e : Expr α} {args : List (Expr α)} {opno : Oid}
  {var : Option RtIndex} {type : JoinType} {r : Relation α}

/-! ## Variables -/

namespace Variable

theorem consults_fromIndexKeys (keys : List (Index α × AttrNumber)) :
    Consults fun s => fromIndexKeys s keys := by
  induction keys with
  | nil => exact .const (false, none)
  | cons key rest ih =>
      obtain ⟨i, place⟩ := key
      obtain ⟨r, hr⟩ := ih
      -- The keys behind are asked for only if this one has no statistics.
      refine ⟨.ask (.index i.oid place) fun found => found.elim
        (r.bind fun others => .done (i.unique && i.keys.length == 1 || others.1, others.2))
        fun known => .done (i.unique && i.keys.length == 1, some known), fun s => ?_⟩
      show Inquiry.outcome s _ = fromIndexKeys s ((i, place) :: rest)
      rw [fromIndexKeys, Inquiry.outcome, Fetch.ask]
      cases s.index i.oid place with
      | some known => rfl
      | none =>
          rw [Option.elim_none, Inquiry.outcome_bind, hr]
          rfl

theorem consults_ofColumn (c : Var) : Consults fun s => ofColumn (p.given s) e c := by
  simp only [ofColumn]
  refine .except_bind (.of_same fun _ _ => rfl) fun r => ?_
  refine .except_bind (.of_same fun _ _ => rfl) fun entry => ?_
  cases h : entry.relation? with
  | none => exact .of_same fun _ _ => rfl
  | some relation =>
      exact (Consults.column relation c.column).map fun known =>
        Except.ok { bound p e (some r) with statistics := known }

variable [Number α]

theorem consults_ofComputed (relid : RtIndex) :
    Consults fun s => ofComputed (p.given s) e relid := by
  simp only [ofComputed]
  refine .except_bind (.of_same fun _ _ => rfl) fun r => ?_
  exact (consults_fromIndexKeys (indexKeysOf r.indexes e.stripRelabel)).map fun found =>
    Except.ok { bound p e (some r) with isUnique := found.1, statistics := found.2 }

theorem consults_ofExpr : Consults fun s => ofExpr (p.given s) e var := by
  simp only [ofExpr]
  split
  · exact .of_same fun _ _ => rfl
  · split
    · exact consults_ofComputed _
    · exact .of_same fun _ _ => rfl
  · exact .of_same fun _ _ => rfl

/-- A variable is examined with one request for a column, or one for each key
that the expression is. -/
theorem consults_examine (e : Expr α) (var : Option RtIndex) :
    Consults fun s => examine (p.given s) e var := by
  simp only [examine]
  split
  · split
    · exact consults_ofColumn _
    · exact consults_ofExpr
  · exact consults_ofExpr

theorem consults_restriction? : Consults fun s => restriction? (p.given s) args var := by
  simp only [restriction?]
  split
  · refine (consults_examine _ _).except_bind fun l => ?_
    refine (consults_examine _ _).except_bind fun r => ?_
    exact .of_same fun _ _ => rfl
  · exact .const _

theorem consults_joinOperands : Consults fun s => joinOperands (p.given s) args := by
  simp only [joinOperands]
  split
  · refine (consults_examine _ _).except_bind fun l => ?_
    exact (consults_examine _ _).except_bind fun r => .const _
  · exact .const _

end Variable

variable [Number α]

/-! ## Selectivities -/

namespace Selectivity

theorem consults_nullTest {test : NullTest} :
    Consults fun s => nullTest (p.given s) test e var := by
  simp only [nullTest]
  exact (Variable.consults_examine e var).except_bind fun v => .of_same fun _ _ => rfl

theorem consults_boolTest {test : BoolTest}
    {plain : StatisticsProvider α → Unit → Except (PlanError α) α}
    (hplain : Consults fun s => plain s ()) :
    Consults fun s => boolTest (p.given s) test e var (plain s) := by
  simp only [boolTest]
  refine (Variable.consults_examine e var).except_bind fun v => ?_
  split
  · exact .const _
  · split
    · exact .of_same fun _ _ => rfl
    · exact .of_same fun _ _ => rfl
    · exact hplain.except_bind fun f => .const _
    · exact hplain.except_bind fun f => .const _
    · exact hplain.except_bind fun f => .const _
    · exact hplain.except_bind fun f => .const _

theorem consults_equality : Consults fun s => equality (p.given s) opno args var := by
  simp only [equality]
  exact Variable.consults_restriction?.except_bind fun found => .of_same fun _ _ => rfl

theorem consults_inequality : Consults fun s => inequality (p.given s) opno args var := by
  simp only [inequality, Planner.operators_given, Planner.settings_given]
  split
  · exact consults_equality.except_bind fun f => .const _
  · exact .const _

theorem consults_scalar {greater : Bool} :
    Consults fun s => scalar (p.given s) opno greater args var := by
  simp only [scalar]
  exact Variable.consults_restriction?.except_bind fun found => .of_same fun _ _ => rfl

theorem consults_prefixRange {dataType : DataType} {fixed : Datum α} :
    Consults fun s => prefixRange (p.given s) e dataType fixed := by
  simp only [prefixRange]
  refine .except_bind (.of_same fun _ _ => rfl) fun atLeast => ?_
  refine consults_scalar.except_bind fun above => ?_
  split
  · exact .const _
  · refine .except_bind (.of_same fun _ _ => rfl) fun lessThan => ?_
    refine consults_scalar.except_bind fun below => ?_
    exact consults_nullTest.except_bind fun nulls => .of_same fun _ _ => rfl

theorem consults_matching {kind : PatternType} :
    Consults fun s => matching (p.given s) args var kind := by
  simp only [matching]
  refine Variable.consults_restriction?.except_bind fun found => ?_
  split
  · exact .of_same fun _ _ => rfl
  · split
    · exact .const _
    · split
      · exact .of_same fun _ _ => rfl
      · split
        · exact .of_same fun _ _ => rfl
        · refine .except_bind (.const _) fun split => ?_
          split
          · refine .except_bind (.of_same fun _ _ => rfl) fun equal => ?_
            exact consults_equality
          · exact consults_prefixRange.except_bind fun range => .const _
          · exact .const _
    · exact .of_same fun _ _ => rfl

/-- A restriction asks for the statistics of its operands. -/
theorem consults_restriction : Consults fun s => restriction (p.given s) opno args var := by
  simp only [restriction]
  refine .except_bind (.of_same fun _ _ => rfl) fun op => ?_
  split
  · exact consults_equality.except_bind fun f => .const _
  · exact consults_inequality.except_bind fun f => .const _
  · exact consults_scalar.except_bind fun f => .const _
  · exact consults_scalar.except_bind fun f => .const _
  · exact consults_matching.except_bind fun f => .const _
  · exact (consults_matching.map _).except_bind fun f => .const _
  · exact .of_same fun _ _ => rfl

theorem consults_joinEquality : Consults fun s => joinEquality (p.given s) opno args type := by
  simp only [joinEquality]
  exact Variable.consults_joinOperands.except_bind fun operands => .of_same fun _ _ => rfl

theorem consults_joinInequality : Consults fun s => joinInequality (p.given s) opno args type := by
  simp only [joinInequality, Planner.operators_given, Planner.settings_given]
  split
  · exact consults_joinEquality.except_bind fun f => .const _
  · exact .const _

/-- So does a join clause. -/
theorem consults_joinClause : Consults fun s => joinClause (p.given s) opno args type := by
  simp only [joinClause]
  refine .except_bind (.of_same fun _ _ => rfl) fun op => ?_
  split
  · exact consults_joinEquality.except_bind fun f => .const _
  · exact consults_joinInequality.except_bind fun f => .const _
  all_goals exact .of_same fun _ _ => rfl

theorem consults_between {lower upper : α} :
    Consults fun s => between (p.given s) e lower upper var := by
  simp only [between, Planner.settings_given]
  by_cases h : (Number.equal lower p.settings.selectivity.inequality ||
      Number.equal upper p.settings.selectivity.inequality) = true
  · simp only [h, if_true]
    exact .const _
  · simp only [h]
    exact consults_nullTest.except_bind fun nulls => .const _

theorem consults_fraction {b : Bounds α} : Consults fun s => b.fraction (p.given s) var := by
  simp only [Bounds.fraction]
  split
  · exact consults_between
  all_goals exact .const _

theorem consults_together {clauses : List (Expr α × α)} :
    Consults fun s => together (p.given s) var clauses := by
  -- Bounds are collected without statistics, which only their fractions need.
  have hadd (s : StatisticsProvider α) :
      Conjunction.add (p.given s) var = Conjunction.add p var := rfl
  simp only [together, hadd]
  refine .except_bind (.foldlM (fun acc b => ?_) _ _) fun product => .const _
  exact consults_fraction.except_bind fun f => .const _

theorem consults_booleanColumn {c : Var} : Consults fun s => booleanColumn (p.given s) c var := by
  simp only [booleanColumn, Planner.operators_given]
  refine .except_bind (.of_same fun _ _ => rfl) fun entry => ?_
  split
  · exact .const _
  · split
    · exact .const _
    · exact consults_restriction

mutual

/-- A clause asks what its parts ask. -/
theorem consults_clause : ∀ e : Expr α, Consults fun s => clause (p.given s) var type e
  | .var c => by
      simp only [clause]
      split
      · exact consults_booleanColumn
      · exact .const _
  | .const t value => by
      -- A true constant is a case of its own.
      by_cases htrue : value = some (.bool true)
      · simp only [htrue, clause]
        exact .const _
      · refine .of_same fun _ _ => ?_
        rw [clause, clause] <;> exact htrue
  | .relabel a _ _ => by
      simp only [clause]
      exact consults_clause a
  | .func .. => by
      simp only [clause]
      exact .const _
  | .op opno args => by
      simp only [clause]
      split
      · exact consults_joinClause
      · exact consults_restriction
  | .boolTest test a => by
      simp only [clause]
      exact consults_boolTest (consults_clause a)
  | .nullTest test a => by
      simp only [clause]
      exact consults_nullTest
  | .and args => by
      simp only [clause]
      exact (consults_each args).except_bind fun fs => consults_together
  | .or args => by
      simp only [clause]
      exact (consults_each args).except_bind fun fs => .const _
  | .not a => by
      simp only [clause]
      exact (consults_clause a).except_bind fun f => .const _

theorem consults_each : ∀ es : List (Expr α), Consults fun s => each (p.given s) var type es
  | [] => by
      simp only [each]
      exact .const _
  | e :: rest => by
      simp only [each]
      refine (consults_clause e).except_bind fun f => ?_
      exact (consults_each rest).except_bind fun fs => .const _

end

theorem consults_clauseList (es : List (Expr α)) (var : Option RtIndex) (type : JoinType) :
    Consults fun s => clauseList (p.given s) es var type := by
  simp only [clauseList]
  exact (consults_each es).except_bind fun fs => consults_together

/-- A merge asks for the statistics of both its inputs. -/
theorem consults_mergeScan (e : Expr α) : Consults fun s => mergeScan (p.given s) e := by
  simp only [mergeScan]
  split
  · exact .const _
  · refine (Variable.consults_examine _ none).except_bind fun l => ?_
    refine (Variable.consults_examine _ none).except_bind fun r => ?_
    exact .of_same fun _ _ => rfl

end Selectivity

/-! ## Groups and costs -/

theorem Grouping.addVar_given (s : StatisticsProvider α) (new : GroupVar α)
    (vars : List (GroupVar α)) : addVar (p.given s) new vars = addVar p new vars := by
  induction vars with
  | nil => rfl
  | cons old rest ih =>
      rw [addVar, addVar, ih]
      rfl

theorem Grouping.groupVar_given (s : StatisticsProvider α) (v : Variable α) :
    groupVar (p.given s) e v = groupVar p e v := rfl

theorem Grouping.consults_collect (factor : α) (vars : List (GroupVar α)) (exprs : List (Expr α)) :
    Consults fun s => collect (p.given s) factor vars exprs := by
  induction exprs generalizing factor vars with
  | nil =>
      simp only [collect]
      exact .const _
  | cons e rest ih =>
      simp only [collect, addVar_given, groupVar_given]
      split
      · exact ih _ _
      · refine (Variable.consults_examine e none).except_bind fun v => ?_
        split
        · exact ih _ _
        · split
          · split
            · exact .const _
            · exact ih _ _
          · simp only [addColumns, addVar_given, groupVar_given]
            refine .except_bind (.foldlM (fun vars c => ?_) _ _) fun vars => ih _ _
            exact (Variable.consults_examine (.var c) none).except_bind fun v => .const _

/-- A number of groups is found from the variables grouped by. -/
theorem Grouping.consults_estimate (exprs : List (Expr α)) (inputRows : α) :
    Consults fun s => estimate (p.given s) exprs inputRows := by
  simp only [estimate]
  exact (consults_collect _ _ exprs).except_bind fun found => .const _

theorem Grouping.consults_bucketSize (key : Expr α) (buckets : Nat) :
    Consults fun s => bucketSize (p.given s) key buckets := by
  simp only [bucketSize]
  exact (Variable.consults_examine key none).except_bind fun v => .of_same fun _ _ => rfl

namespace IndexAccess

omit [Number α] in
theorem consults_leadingStatistics {index : Index α} :
    Consults fun s => leadingStatistics (p.given s) r index := by
  simp only [leadingStatistics]
  split
  · refine .except_bind (.of_same fun _ _ => rfl) fun entry => ?_
    cases h : entry.relation? with
    | none => exact .of_same fun _ _ => rfl
    | some relation => exact (Consults.column relation _).map Except.ok
  · exact (Consults.index index.oid 1).map Except.ok
  · exact .const _

theorem consults_cost {index : Index α} {quals : List (Expr α)} :
    Consults fun s => cost (p.given s) r index quals := by
  have hbasic : Consults fun s => basicCost (p.given s) r index quals := by
    simp only [basicCost]
    split
    · exact .const _
    · exact (Selectivity.consults_clauseList _ _ _).except_bind fun f => .of_same fun _ _ => rfl
  have hcorrelation : Consults fun s => correlation (p.given s) r index := by
    simp only [correlation]
    split
    · exact .const _
    · exact consults_leadingStatistics.except_bind fun known => .const _
  simp only [cost]
  refine hbasic.except_bind fun basic => ?_
  split
  · exact hcorrelation.except_bind fun c => .const _
  · exact .const _

end IndexAccess

namespace Path

theorem consults_rowsPassing {join : Join α} {clauses : List (Clause α)} :
    Consults fun s => rowsPassing (p.given s) join clauses := by
  simp only [rowsPassing]
  exact (Selectivity.consults_clauseList _ _ _).except_bind fun f => .const _

theorem consults_indexScanCost {scan : IndexScan α} :
    Consults fun s => indexScanCost (p.given s) r scan := by
  simp only [indexScanCost]
  split
  · exact IndexAccess.consults_cost.except_bind fun access => .of_same fun _ _ => rfl
  · exact .const _

theorem consults_mergeJoinCost {join : Join α} {clauses : List (Clause α)}
    {outerSort innerSort : Pathkeys α} :
    Consults fun s => mergeJoinCost (p.given s) join clauses outerSort innerSort := by
  simp only [mergeJoinCost]
  split
  · exact .const _
  · refine (Selectivity.consults_mergeScan _).except_bind fun scan => ?_
    refine .except_bind (.of_same fun _ _ => rfl) fun outer => ?_
    exact consults_rowsPassing.except_bind fun rows => .of_same fun _ _ => rfl

theorem consults_hashJoinCost {join : Join α} {clauses : List (Clause α)} :
    Consults fun s => hashJoinCost (p.given s) join clauses := by
  simp only [hashJoinCost]
  refine .except_bind (.of_same fun _ _ => rfl) fun inner => ?_
  refine .except_bind ?_ fun fraction => ?_
  · simp only [bucketFraction]
    refine .foldlM (fun least c => ?_) _ _
    refine .except_bind (.const _) fun key => ?_
    exact (Grouping.consults_bucketSize key _).except_bind fun f => .const _
  · exact consults_rowsPassing.except_bind fun rows => .of_same fun _ _ => rfl

theorem consults_build {operator : PathOperator α} {pathkeys : Pathkeys α} :
    Consults fun s => build (p.given s) r operator pathkeys := by
  simp only [build]
  refine .except_bind ?_ fun c => .const _
  cases operator with
  | seqScan relid => exact .of_same fun _ _ => rfl
  | indexScan scan => exact consults_indexScanCost
  | nestLoop join => exact .of_same fun _ _ => rfl
  | mergeJoin join clauses outerSort innerSort => exact consults_mergeJoinCost
  | hashJoin join clauses => exact consults_hashJoinCost

/-- The scans of a relation ask what their costs ask. -/
theorem consults_scans (r : Relation α) : Consults fun s => scans (p.given s) r := by
  simp only [scans]
  split
  · exact .const _
  · refine consults_build.except_bind fun whole => ?_
    refine .except_bind (.mapM (fun index => ?_) _) fun viaIndexes => .const _
    have horders (s : StatisticsProvider α) :
        scanOrders (p.given s) r index = scanOrders p r index := rfl
    have hquals (s : StatisticsProvider α) :
        IndexAccess.quals (p.given s) r index = IndexAccess.quals p r index := rfl
    simp only [indexScans, horders, hquals]
    exact .mapM (fun scan => consults_build) _

end Path

namespace Pairing

theorem consults_joinsOf {j : Pairing α} {inner outer : Path α} :
    Consults fun s => joinsOf (p.given s) j inner outer := by
  simp only [joinsOf]
  refine Path.consults_build.except_bind fun nested => ?_
  refine .except_bind ?_ fun merged => .const _
  simp only [presortedMerge]
  split
  · exact .const _
  · refine .except_bind (.const _) fun required => ?_
    exact Path.consults_build.except_bind fun path => .const _

/-- And so do the joins of two relations. -/
theorem consults_paths (j : Pairing α) : Consults fun s => paths (p.given s) j := by
  simp only [paths]
  split
  · refine .except_bind ?_ fun sorted => ?_
    · simp only [sortedMerge]
      split
      · exact .const _
      · refine .except_bind (.const _) fun outerSort => ?_
        refine .except_bind (.const _) fun innerSort => ?_
        exact Path.consults_build.except_bind fun path => .const _
    · refine .except_bind (.mapM (fun outer => consults_joinsOf) _) fun presorted => ?_
      refine .except_bind ?_ fun hash => .const _
      simp only [hashed]
      split
      · exact .const _
      · exact Path.consults_build.except_bind fun path => .const _
  · exact .const _

end Pairing

/-! ## Widths -/

omit [Number α] in
theorem Planner.consults_recordedWidth? (relation : Option Oid) (e : Expr α) :
    Consults fun s => (p.given s).recordedWidth? relation e := by
  simp only [recordedWidth?]
  split
  · exact (Consults.column _ _).map fun known => (known.map (·.averageWidth)).filter (0 < ·)
  · exact .const _

omit [Number α] in
theorem Planner.consults_rowWidth (r : Relation α) : Consults fun s => (p.given s).rowWidth r := by
  simp only [rowWidth]
  have hrow (relation : Option Oid) : Consults fun s => r.target.foldlM (fun width t =>
      (Relation.addWidths width (((p.given s).recordedWidth? relation t.expr).getD
        t.expr.type.defaultWidth) : Except (PlanError α) Int32)) 0 := by
    refine .foldlM (fun width t => ?_) _ _
    have hwidth := (consults_recordedWidth? (p := p) relation t.expr).map fun known =>
      (Relation.addWidths width (known.getD t.expr.type.defaultWidth) : Except (PlanError α) Int32)
    exact hwidth
  split
  · refine .except_bind (.of_same fun _ _ => rfl) fun relation => ?_
    exact hrow relation
  · exact hrow none

end QueryPlanner
