/-
  QueryPlanner.Proofs.Path.View

  How much of a session the paths of a relation depend on.

  Scans look at the relation they are of, and join paths at their inputs and at
  the view of the members of both.  None looks at the paths that the relation
  has already.  So a relation is offered the same paths again as long as these
  are the same.
-/

import QueryPlanner.Proofs.Path.Candidates
import QueryPlanner.Proofs.Selectivity.View

namespace QueryPlanner

open PlanM

variable {α : Type} [Number α] {p q : Planner α} {s : RelSet} {r : Relation α}

/-! ## Scans -/

theorem IndexAccess.cost_view {index : Index α} {quals : List (Expr α)} :
    cost (p.view s) r index quals = cost p r index quals := by
  have hbasic : basicCost (p.view s) r index quals = basicCost p r index quals := by
    rw [basicCost.eq_def, basicCost.eq_def]
    split
    · rfl
    · rename_i relid _
      have hfraction (es : List (Expr α)) :
          Selectivity.clauseList (p.view s) es (some relid) .inner =
            Selectivity.clauseList p es (some relid) .inner :=
        Selectivity.clauseList_view fun hvar => nomatch hvar
      simp only [hfraction]
      rfl
  rw [cost, cost, hbasic]
  rfl

namespace Path

theorem indexScanCost_view {scan : IndexScan α} :
    indexScanCost (p.view s) r scan = indexScanCost p r scan := by
  rw [indexScanCost, indexScanCost, IndexAccess.cost_view]
  rfl

/-- Scans are the same whatever joins there are. -/
theorem scans_view : scans (p.view s) r = scans p r := by
  have hindex (relid : RtIndex) : indexScans (p.view s) r relid = indexScans p r relid := by
    funext index
    have hbuild (direction : ScanDirection) (order : Pathkeys α) :
        build (p.view s) r (.indexScan ⟨relid, index, IndexAccess.quals p r index, direction⟩) order =
          build p r (.indexScan ⟨relid, index, IndexAccess.quals p r index, direction⟩) order := by
      rw [build, build, cost, cost, indexScanCost_view]
    have horders : scanOrders (p.view s) r index = scanOrders p r index := rfl
    have hquals : IndexAccess.quals (p.view s) r index = IndexAccess.quals p r index := rfl
    rw [indexScans, indexScans, horders, hquals]
    simp only [hbuild]
  rw [scans, scans]
  simp only [hindex]
  rfl

theorem scans_bare : scans p r.bare = scans p r := rfl

theorem scans_congr {r' : Relation α} (hview : p.view s = q.view s) (hr : r.bare = r'.bare) :
    scans p r = scans q r' := by
  rw [← scans_bare, hr, scans_bare, ← scans_view (s := s), hview, scans_view]

/-! ## Joins -/

section Joins

variable {join : Join α} {clauses : List (Clause α)}

theorem rowsPassing_view (h : ∀ c ∈ clauses, c.expr.Over s) :
    rowsPassing (p.view s) join clauses = rowsPassing p join clauses := by
  rw [rowsPassing, rowsPassing, Selectivity.clauseList_view fun _ => List.forall_mem_map.mpr h]

omit [Number α] in
/-- One of the operands is hashed. -/
theorem over_of_hashKey {inner : RelSet} {c : Clause α} {e : Expr α} (h : hashKey inner c = .ok e)
    (hc : c.expr.Over s) : e.Over s := by
  rw [hashKey] at h
  split at h
  · rename_i side hside
    cases h
    have hoperand : c.leftExpr? = some e ∨ c.rightExpr? = some e := by
      split at hside
      · exact .inl hside
      · exact .inr hside
    rw [Clause.leftExpr?, Clause.rightExpr?, Option.map_eq_some_iff, Option.map_eq_some_iff]
      at hoperand
    rcases hoperand with ⟨⟨opno, l, r⟩, hbinary, rfl⟩ | ⟨⟨opno, l, r⟩, hbinary, rfl⟩
    · rw [Expr.eq_op_of_binary? hbinary] at hc
      exact hc.op List.mem_cons_self
    · rw [Expr.eq_op_of_binary? hbinary] at hc
      exact hc.op (List.mem_cons_of_mem l List.mem_cons_self)
  · cases h

theorem bucketFraction_view {inner : RelSet} {buckets : Nat} (h : ∀ c ∈ clauses, c.expr.Over s) :
    bucketFraction (p.view s) inner buckets clauses = bucketFraction p inner buckets clauses := by
  refine foldlM_congr (fun least c hc => ?_) 1
  cases hkey : hashKey inner c with
  | error err => rfl
  | ok e =>
      have hsize : Grouping.bucketSize (p.view s) e buckets = Grouping.bucketSize p e buckets :=
        Grouping.bucketSize_view (over_of_hashKey hkey (h c hc))
      show (Grouping.bucketSize (p.view s) e buckets >>= _) = Grouping.bucketSize p e buckets >>= _
      rw [hsize]

/-- The view of two sessions is the same, and so are the members of the inputs. -/
structure SameInputs (s : RelSet) (p q : Planner α) (join : Join α) : Prop where
  view : p.view s = q.view s
  outer : relids p join.outer = relids q join.outer
  inner : relids p join.inner = relids q join.inner

theorem mergeJoinCost_congr {outerSort innerSort : Pathkeys α} (h : SameInputs s p q join)
    (hclauses : ∀ c ∈ clauses, c.expr.Over s) :
    mergeJoinCost p join clauses outerSort innerSort =
      mergeJoinCost q join clauses outerSort innerSort := by
  have hsettings : p.settings = q.settings := Planner.settings_eq_of_view h.view
  rw [mergeJoinCost.eq_def, mergeJoinCost.eq_def]
  split
  · rfl
  · rename_i first rest
    have hfirst := hclauses first List.mem_cons_self
    have hscan : Selectivity.mergeScan p first.expr = Selectivity.mergeScan q first.expr := by
      rw [← Selectivity.mergeScan_view hfirst, h.view, Selectivity.mergeScan_view hfirst]
    have hrows : rowsPassing p join (first :: rest) = rowsPassing q join (first :: rest) := by
      rw [← rowsPassing_view hclauses, h.view, rowsPassing_view hclauses]
    have hinput : mergeInput p = mergeInput q := by
      funext input sort fraction
      rw [mergeInput, mergeInput, hsettings]
    simp only [hscan, h.outer, hinput, hsettings, hrows]

theorem hashJoinCost_congr (h : SameInputs s p q join) (hclauses : ∀ c ∈ clauses, c.expr.Over s) :
    hashJoinCost p join clauses = hashJoinCost q join clauses := by
  have hsettings : p.settings = q.settings := Planner.settings_eq_of_view h.view
  have hrows : rowsPassing p join clauses = rowsPassing q join clauses := by
    rw [← rowsPassing_view hclauses, h.view, rowsPassing_view hclauses]
  have hbuckets (inner : RelSet) (buckets : Nat) :
      bucketFraction p inner buckets clauses = bucketFraction q inner buckets clauses := by
    rw [← bucketFraction_view hclauses, h.view, bucketFraction_view hclauses]
  rw [hashJoinCost, hashJoinCost]
  simp only [hsettings, h.inner, hbuckets, hrows]

theorem build_mergeJoin_congr {outerSort innerSort order : Pathkeys α} (h : SameInputs s p q join)
    (hclauses : ∀ c ∈ clauses, c.expr.Over s) :
    build p r (.mergeJoin join clauses outerSort innerSort) order =
      build q r (.mergeJoin join clauses outerSort innerSort) order := by
  rw [build, build, cost, cost, mergeJoinCost_congr h hclauses]

theorem build_hashJoin_congr {order : Pathkeys α} (h : SameInputs s p q join)
    (hclauses : ∀ c ∈ clauses, c.expr.Over s) :
    build p r (.hashJoin join clauses) order = build q r (.hashJoin join clauses) order := by
  rw [build, build, cost, cost, hashJoinCost_congr h hclauses]

theorem build_nestLoop_congr {order : Pathkeys α} (h : p.view s = q.view s) :
    build p r (.nestLoop join) order = build q r (.nestLoop join) order := by
  rw [build, build, cost, cost, nestLoopCost, nestLoopCost, Planner.settings_eq_of_view h]

end Joins

end Path

/-! ## Pairings -/

namespace Pairing

variable {j : Pairing α} {outer inner : Path α}

/-- A pairing without the paths that the join has already. -/
def bare (j : Pairing α) : Pairing α := { j with join := j.join.bare }

theorem paths_bare : j.bare.paths p = j.paths p := rfl

/-- Two sessions are the same to a pairing: in the view of what its clauses
read, and in the members of the inputs. -/
structure SameView (s : RelSet) (p q : Planner α) (j : Pairing α) : Prop where
  view : p.view s = q.view s
  clauses : ∀ c ∈ j.restrictions, c.expr.Over s
  outer : ∀ path ∈ j.outer.paths, Path.relids p path = Path.relids q path
  inner : ∀ path ∈ j.inner.paths, Path.relids p path = Path.relids q path

namespace SameView

omit [Number α] in
theorem inputs (h : SameView s p q j) (ho : outer ∈ j.outer.paths) (hi : inner ∈ j.inner.paths) :
    Path.SameInputs s p q (j.ofInputs outer inner) :=
  ⟨h.view, h.outer outer ho, h.inner inner hi⟩

omit [Number α] in
theorem mergeable (h : SameView s p q j) : ∀ c ∈ j.mergeable, c.expr.Over s :=
  fun c hc => h.clauses c (List.mem_of_mem_filter hc)

omit [Number α] in
theorem hashable (h : SameView s p q j) : ∀ c ∈ j.hashable, c.expr.Over s :=
  fun c hc => h.clauses c (List.mem_of_mem_filter hc)

theorem sortedMerge_eq (h : SameView s p q j) (ho : outer ∈ j.outer.paths)
    (hi : inner ∈ j.inner.paths) : sortedMerge p j outer inner = sortedMerge q j outer inner := by
  rw [sortedMerge, sortedMerge]
  split
  · rfl
  · simp only [Path.build_mergeJoin_congr (h.inputs ho hi) h.mergeable]

theorem presortedMerge_eq (h : SameView s p q j) (ho : outer ∈ j.outer.paths)
    (hi : inner ∈ j.inner.paths) :
    presortedMerge p j outer inner = presortedMerge q j outer inner := by
  rw [presortedMerge, presortedMerge]
  have hfound : ∀ c ∈ Pathkeys.findMergeClauses outer.pathkeys j.mergeable, c.expr.Over s :=
    fun c hc => h.mergeable c (Pathkeys.mem_of_mem_findMergeClauses hc)
  split
  · rfl
  · refine bind_congr fun required => ?_
    cases hsorted : Path.cheapestFor? .total required j.inner.paths with
    | some sorted =>
        have hmem := (Path.mem_of_cheapestFor? hsorted).1
        simp only [Path.build_mergeJoin_congr (h.inputs ho hmem) hfound]
    | none => simp only [Path.build_mergeJoin_congr (h.inputs ho hi) hfound]

theorem joinsOf_eq (h : SameView s p q j) (ho : outer ∈ j.outer.paths)
    (hi : inner ∈ j.inner.paths) : joinsOf p j inner outer = joinsOf q j inner outer := by
  rw [joinsOf, joinsOf, Path.build_nestLoop_congr h.view, h.presortedMerge_eq ho hi]

theorem hashed_eq (h : SameView s p q j) (ho : outer ∈ j.outer.paths)
    (hi : inner ∈ j.inner.paths) : hashed p j outer inner = hashed q j outer inner := by
  rw [hashed, hashed]
  split
  · rfl
  · simp only [Path.build_hashJoin_congr (h.inputs ho hi) h.hashable]

/-- The same paths are offered in both. -/
theorem paths_eq (h : SameView s p q j) : j.paths p = j.paths q := by
  rw [Pairing.paths, Pairing.paths]
  split
  · rename_i outer inner houter hinner
    have ho := Path.mem_of_cheapest? houter
    have hi := Path.mem_of_cheapest? hinner
    have hjoins : j.outer.paths.mapM (joinsOf p j inner) = j.outer.paths.mapM (joinsOf q j inner) :=
      mapM_congr fun path hpath => h.joinsOf_eq hpath hi
    rw [h.sortedMerge_eq ho hi, hjoins, h.hashed_eq ho hi]
  · rfl

end SameView

end Pairing

end QueryPlanner
