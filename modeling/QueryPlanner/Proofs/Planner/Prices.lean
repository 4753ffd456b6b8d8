/-
  QueryPlanner.Proofs.Planner.Prices

  Every path of a session costs at least its startup.

  Paths are made of paths, over many requests and from sizes that change in
  between, so the bounds on costs are an invariant of the session: what is
  planned with does not change, sizes stay amounts, and whatever path a
  relation is offered is priced because those of its inputs are.
-/

import QueryPlanner.Pattern.Regex.Engine
import QueryPlanner.Proofs.Path.Priced
import QueryPlanner.Proofs.Planner.Session
import QueryPlanner.Proofs.Planner.Keeps

namespace QueryPlanner

open Planner
open Number (Amounts Probabilities)

variable {α : Type} [Number α] {p q : Planner α} {r : Relation α}

/-! ## Priced sessions -/

/-- Sizes, units of cost and correlations as they are in a catalog, and priced
relations. -/
structure Planner.Priced (p : Planner α) : Prop where
  params : p.settings.cost.NonNeg
  statistics : p.statistics.Correlated
  sizes : ∀ relation size, p.catalog.size relation = .ok size → 0 ≤ size.pages ∧ 0 ≤ size.tuples
  relations : ∀ r ∈ p.relations, r.Priced

namespace Planner

/-- From a priced session to a priced one. -/
def Prices (p q : Planner α) : Prop := p.Priced → q.Priced

instance : IsPreorder (Planner α) Prices where
  refl _ hp := hp
  trans _ _ _ h h' hp := h' (h hp)

theorem Priced.relation {id : Nat} (hp : p.Priced) (hr : p.relation id = .ok r) : r.Priced :=
  hp.relations r (mem_of_relation hr)

theorem prices_addRelation (hr : p.Priced → r.Priced) : Prices p (p.addRelation r) :=
  fun hp => ⟨hp.params, hp.statistics, hp.sizes,
    List.forall_mem_append.mpr ⟨hp.relations, List.forall_mem_singleton.mpr (hr hp)⟩⟩

theorem prices_modifyRelation {f : Relation.Edit α} {id : Nat}
    (hf : ∀ r, p.Priced → p.relation id = .ok r → (f r).Priced) :
    Prices p (modifyRelation id f p) := by
  intro hp
  refine ⟨hp.params, hp.statistics, hp.sizes, fun s hs => ?_⟩
  rcases mem_modifyRelation hs with hs | ⟨r, hr, rfl⟩
  · exact hp.relations s hs
  · exact hf r hp hr

/-- A change that any priced relation survives. -/
theorem prices_modifyRelation_of_priced {f : Relation.Edit α}
    (hf : ∀ r : Relation α, r.Priced → (f r).Priced) (id : Nat) (p : Planner α) :
    Prices p (modifyRelation id f p) :=
  prices_modifyRelation fun r hp hr => hf r (hp.relation hr)

/-- Priced paths are offered. -/
theorem prices_offer {id : Nat} {paths : List (Path α)}
    (hpaths : ∀ r, p.Priced → p.relation id = .ok r → ∀ path ∈ paths, path.Priced) :
    Prices p (modifyRelation id (.offer paths) p) :=
  prices_modifyRelation fun r hp hr => by
    have h := hp.relation hr
    exact ⟨h.pages, h.tuples, h.rows, fun path hpath =>
      (Relation.Sound.mem_offer hpath).elim (h.paths path) (hpaths r hp hr path)⟩

end Planner

/-! ## Builders -/

namespace PlanM

variable [Amounts α]

/-- A base relation has the size of its entry, and no rows yet. -/
theorem priced_ofEntry {relid : RtIndex} (hp : p.Priced)
    (h : Relation.ofEntry p relid = .ok r) : r.Priced := by
  have hzero : (0 : α) ≤ 0 := Number.zero_nonneg
  obtain ⟨entry, -, h⟩ := except_bind_eq_ok.mp h
  cases entry with
  | subquery =>
      cases h
      exact ⟨hp.params.placeholderPages, hp.params.placeholderTuples, hzero, nofun⟩
  | stored relation =>
      obtain ⟨size, hsize, h⟩ := except_bind_eq_ok.mp h
      obtain ⟨hpages, htuples⟩ := hp.sizes relation size hsize
      split at h
      · obtain ⟨indexes, -, h⟩ := except_bind_eq_ok.mp h
        cases h
        exact ⟨hpages, htuples, hzero, nofun⟩
      · cases h
        exact ⟨hpages, htuples, hzero, nofun⟩

theorem prices_baseRelation (relid : RtIndex) : (baseRelation relid : PlanM α Nat).Moves Prices :=
  baseRelation_moves fun _ _ _ hr => prices_addRelation fun hp => priced_ofEntry hp hr

theorem prices_addTarget (relid : RtIndex) (e : Expr α) :
    (addTarget relid e : PlanM α Unit).Moves Prices :=
  (prices_baseRelation relid).bind fun id => .modify <|
    prices_modifyRelation_of_priced (fun _ h => by exact ⟨h.pages, h.tuples, h.rows, h.paths⟩) id

theorem prices_estimateSize (relid : RtIndex) :
    (estimateSize relid : PlanM α Unit).Moves Prices :=
  .bind .get fun _ => .bind (.ofExcept _) fun _ => .bind (.ofExcept _) fun _ =>
    .bind (.ofExcept _) fun _ => .modify <|
      prices_modifyRelation_of_priced
        (fun _ h => by exact ⟨h.pages, h.tuples, Amounts.clampRows _, h.paths⟩) _

/-- Restrictions and join info have no part in it. -/
theorem prices_distribute (e : Expr α) : (distribute e : PlanM α (Clause α)).Moves Prices := by
  refine distribute_moves (fun p hp => ?_) (fun c p hp => ?_) prices_baseRelation prices_addTarget
    (fun c => ?_) (fun c key => ?_) e
  · exact ⟨hp.params, hp.statistics, hp.sizes, hp.relations⟩
  · exact ⟨hp.params, hp.statistics, hp.sizes, hp.relations⟩
  · exact prices_modifyRelation_of_priced fun _ h => ⟨h.pages, h.tuples, h.rows, h.paths⟩
  · exact prices_modifyRelation_of_priced fun _ h => ⟨h.pages, h.tuples, h.rows, h.paths⟩

theorem prices_joinRelation (outer inner : Nat) :
    (joinRelation outer inner : PlanM α (Nat × List (Clause α))).Moves Prices :=
  joinRelation_moves fun _ _ _ _ _ _ _ _ _ _ => prices_addRelation fun _ =>
    ⟨Number.zero_nonneg, Number.zero_nonneg, Amounts.clampRows _, nofun⟩

variable [Probabilities α]

theorem prices_addScans (id : Nat) : (addScans id : PlanM α Unit).Moves Prices := by
  intro p
  rcases addScans_cases id p with ⟨e, h⟩ | ⟨r, paths, hr, hpaths, h⟩
  · rw [final_of_error h]
    exact refl_of Prices p
  · rw [final_of_ok h]
    refine prices_offer fun s hp hs path hpath => ?_
    exact Path.priced_of_mem_scans hp.params hp.statistics (hp.relation hr) hpaths hpath

/-- The inputs may be any relations, and the clauses any clauses. -/
theorem prices_addJoins (join outer inner : Nat) (restrictions : List (Clause α))
    (type : JoinType) :
    (addJoins join outer inner restrictions type : PlanM α Unit).Moves Prices := by
  intro p
  rcases addJoins_cases join outer inner restrictions type p with
    ⟨e, h⟩ | ⟨r, o, i, paths, hr, ho, hi, hpaths, h⟩
  · rw [final_of_error h]
    exact refl_of Prices p
  · rw [final_of_ok h]
    refine prices_offer fun s hp hs path hpath => ?_
    exact Pairing.priced_of_mem_paths hp.params hp.statistics (hp.relation hr) (hp.relation ho)
      (hp.relation hi) hpaths hpath

end PlanM

/-! ## Sessions -/

variable [Amounts α] [Probabilities α]

/-- Paths that a client brings along are priced; all others are made by the
planner. -/
def Request.Honest : Request α → Prop
  | .offer _ paths => ∀ path ∈ paths, path.Priced
  | _ => True

theorem Request.prices_run {r : Request α} (hr : r.Honest) : r.run.Moves Prices := by
  refine r.run_moves PlanM.prices_baseRelation PlanM.prices_addTarget PlanM.prices_estimateSize
    (fun e _ => PlanM.prices_distribute e) PlanM.prices_joinRelation PlanM.prices_addScans
    PlanM.prices_addJoins (fun id paths h k p => ?_) fun order p hp => ?_
  · subst h
    exact prices_offer fun _ _ _ => hr
  · exact ⟨hp.params, hp.statistics, hp.sizes, hp.relations⟩

theorem priced_session {requests : List (Request α)} (hp : p.Priced)
    (hr : ∀ r ∈ requests, r.Honest) : (session requests p).2.Priced := by
  induction requests generalizing p with
  | nil => exact hp
  | cons r rest ih =>
      have hserve : (r.serve p).2.Priced := by
        rw [r.serve_snd]
        exact Request.prices_run (hr r List.mem_cons_self) p hp
      exact ih hserve fun s hs => hr s (List.mem_cons_of_mem r hs)

/-- **No path is cheaper to finish than to start.**  In exact numbers, with
any logarithm that is not negative from 2 on: as long as units of cost and
sizes of stored relations are not negative and correlations on record lie
in `[-1, 1]`, every path that any requests have left at a relation costs at
least its startup, and that is not negative. -/
theorem startup_le_total (log2 : Rat → Rat) (hlog : ∀ x, 2 ≤ x → 0 ≤ log2 x)
    (settings : Settings Rat) (operators : OperatorCatalog Rat) (catalog : RelationSource Rat)
    (statistics : StatisticsProvider Rat) (rangeTable : List RangeTableEntry)
    (requests : List (Request Rat)) :
    letI := Number.rational log2
    settings.cost.NonNeg →
    (∀ relation size, catalog.size relation = .ok size → 0 ≤ size.pages ∧ 0 ≤ size.tuples) →
    statistics.Correlated → (∀ r ∈ requests, r.Honest) →
    ∀ r ∈ (session requests
        (.start settings operators catalog statistics rangeTable)).2.relations,
      ∀ path ∈ r.paths, 0 ≤ path.startup ∧ path.startup ≤ path.total := by
  let _ := Number.rational log2
  have hamounts := Number.amounts_rational log2 hlog
  have hprobabilities := Number.probabilities_rational log2
  intro hparams hsizes hstatistics hhonest r hr path hpath
  have hstart : (Planner.start settings operators catalog statistics rangeTable).Priced :=
    ⟨hparams, hstatistics, fun relation size h => by
      obtain ⟨hpages, htuples⟩ := hsizes relation size h
      exact ⟨Number.zero_le_rational_iff.mpr hpages, Number.zero_le_rational_iff.mpr htuples⟩,
      nofun⟩
  have hpriced : path.Priced := ((priced_session hstart hhonest).relations r hr).paths path hpath
  exact ⟨Number.zero_le_rational_iff.mp hpriced.startup, hpriced.total⟩

section Example

local instance exactAmounts : Number Rat := .rational id

/-- A column that is stored nearly in descending order. -/
def descendingColumn : ColumnStatistics Rat :=
  ⟨0, 4, -1, [⟨.correlation, 1014, [], [-9 / 10]⟩]⟩

/-- A stored relation with an index on the column. -/
def descendingStored : RelationSource Rat :=
  Catalog.source ⟨[(100, ⟨"t", 100, 10000,
    [{ Index.plain 500 .btree [.column 1] with ordering := [1014] }]⟩)]⟩

/-- A join with a subquery on the column, which is below 5. -/
def lowRowsJoined : List (Request Rat) :=
  [.distribute (.op 1014 [.var ⟨1, 1, .int4, -1⟩, .const .int4 (some (.int4 5))]),
    .distribute (.op 1012 [.var ⟨1, 1, .int4, -1⟩, .var ⟨2, 1, .int4, -1⟩]),
    .estimateSize 1, .estimateSize 2, .search]

/-- The path reads an index, itself or for a join. -/
def Path.readsIndex (path : Path Rat) : Bool :=
  match path.operator with
  | .indexScan _ => true
  | .nestLoop join | .mergeJoin join .. | .hashJoin join _ =>
    match join.outer.operator with
    | .indexScan _ => true
    | _ => false
  | .seqScan _ => false

theorem correlated_descendingColumn : descendingColumn.Correlated := by
  intro slot hslot _ c hc
  obtain rfl := List.mem_singleton.mp hslot
  obtain rfl := List.mem_singleton.mp hc
  exact Number.isCorrelation_rational_iff.mpr ⟨by norm_num, by norm_num⟩

theorem size_descendingStored {relation : Oid} {size : RelationSize Rat}
    (h : descendingStored.size relation = .ok size) : 0 ≤ size.pages ∧ 0 ≤ size.tuples := by
  obtain ⟨stored, hstored, h⟩ := PlanM.except_bind_eq_ok.mp h
  cases h
  by_cases hrelation : relation = 100
  · subst hrelation
    cases hstored
    decide +kernel
  · rw [Catalog.lookup, Catalog.find?, List.lookup_cons, beq_false_of_ne hrelation] at hstored
    exact nomatch hstored

/-- The join is left with a path over the index, which costs at least its
startup. -/
theorem startup_le_total_lowRowsJoined :
    ∃ r ∈ (session lowRowsJoined (.start .standard (.builtin Regex.engine) descendingStored
        ⟨fun _ _ => some descendingColumn, fun _ _ => none⟩ [.stored 100, .subquery])).2.relations,
      r.kind = .join ∧ ∃ path ∈ r.paths, path.readsIndex = true ∧
        0 ≤ path.startup ∧ path.startup ≤ path.total := by
  have hpriced := startup_le_total id (fun x hx => le_trans zero_le_two hx) .standard
    (.builtin Regex.engine) descendingStored ⟨fun _ _ => some descendingColumn, fun _ _ => none⟩
    [.stored 100, .subquery] lowRowsJoined (@CostParams.nonNeg_standard Rat _ (Number.amounts_rational id fun x hx =>
      le_trans zero_le_two hx)) (fun _ _ => size_descendingStored)
    ⟨fun _ _ _ h => Option.some.inj h ▸ correlated_descendingColumn, nofun⟩
    (by simp [lowRowsJoined, Request.Honest])
  revert hpriced
  generalize hend : (session lowRowsJoined
      (.start .standard (.builtin Regex.engine) descendingStored
        ⟨fun _ _ => some descendingColumn, fun _ _ => none⟩ [.stored 100, .subquery])).2 = q
  intro hpriced
  have hany : q.relations.any (fun r => r.kind = .join && r.paths.any Path.readsIndex) = true := by
    rw [← hend]
    decide +kernel
  obtain ⟨r, hr, hjoin⟩ := List.any_eq_true.mp hany
  rw [Bool.and_eq_true, decide_eq_true_eq] at hjoin
  obtain ⟨path, hpath, hreads⟩ := List.any_eq_true.mp hjoin.2
  exact ⟨r, hr, hjoin.1, path, hpath, hreads, hpriced r hr path hpath⟩

end Example

end QueryPlanner
