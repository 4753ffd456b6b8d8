/-
  QueryPlanner.Proofs.Path.Candidates

  The paths that planning offers a relation, before the costs of any are
  compared.

  A base relation is offered scans, a join one path for each way of pairing
  its inputs.  `Scan` and `Pairing.Candidate` list them by operator and order;
  what is offered is built from one of these, so what holds of the candidates
  holds of every path of a session.
-/

import QueryPlanner.Path.Joins
import QueryPlanner.Proofs.Path.Cheapest
import QueryPlanner.Proofs.PlanM

namespace QueryPlanner

open PlanM

variable {α : Type} [Number α] {p : Planner α} {r : Relation α} {path : Path α}
  {paths : List (Path α)}

namespace Path

theorem build_eq_ok {operator : PathOperator α} {order : Pathkeys α}
    (h : build p r operator order = .ok path) :
    ∃ c, cost p r operator = .ok c ∧ path = ⟨r.id, operator, r.rows, c.startup, c.total, order⟩ := by
  obtain ⟨c, hc, h⟩ := except_bind_eq_ok.mp h
  cases h
  exact ⟨c, hc, rfl⟩

/-- A path belongs to the relation that it is built for. -/
theorem parent_of_build {operator : PathOperator α} {order : Pathkeys α}
    (h : build p r operator order = .ok path) : path.parent = r.id := by
  obtain ⟨_, -, rfl⟩ := build_eq_ok h
  rfl

/-- The cheapest of some paths is one of them. -/
theorem mem_of_cheapest? {criterion : CostCriterion} (h : cheapest? criterion paths = some path) :
    path ∈ paths := by
  cases paths with
  | nil => exact nomatch h
  | cons first rest =>
      rw [cheapest?, firstMin?, Option.some.injEq] at h
      refine h ▸ List.foldlRecOn (motive := (· ∈ first :: rest)) _ _ List.mem_cons_self ?_
      intro best hbest next hnext
      split
      · exact List.mem_cons_of_mem first hnext
      · exact hbest

theorem mem_of_cheapestFor? {criterion : CostCriterion} {required : Pathkeys α}
    (h : cheapestFor? criterion required paths = some path) :
    path ∈ paths ∧ Pathkeys.satisfies path.pathkeys required = true :=
  List.mem_filter.mp (mem_of_cheapest? h)

theorem exists_cheapest? (criterion : CostCriterion) (h : paths ≠ []) :
    ∃ path, cheapest? criterion paths = some path :=
  Option.ne_none_iff_exists'.mp fun hnone => h (firstMin?_eq_none.mp hnone)

/-- A new path stays, or goes for an old one that does. -/
theorem add_ne_nil (new : Path α) (paths : List (Path α)) : add new paths ≠ [] := by
  induction paths with
  | nil => exact List.cons_ne_nil new []
  | cons old rest ih =>
      rw [add]
      split
      · exact List.cons_ne_nil old _
      · exact ih
      · exact List.cons_ne_nil old _

theorem addAll_ne_nil {new : List (Path α)} (h : new ≠ [] ∨ paths ≠ []) : addAll new paths ≠ [] := by
  rw [addAll]
  induction new generalizing paths with
  | nil => exact h.resolve_left (· rfl)
  | cons first rest ih => exact ih (.inr (add_ne_nil first paths))

/-! ## Scans -/

/-- The scans that a base relation is offered. -/
inductive Scan (p : Planner α) (r : Relation α) (relid : RtIndex) :
    PathOperator α → Pathkeys α → Prop where
  | whole : Scan p r relid (.seqScan relid) []
  | ofIndex {index : Index α} {direction : ScanDirection} {order : Pathkeys α}
      (hindex : index ∈ r.indexes) (horder : (direction, order) ∈ scanOrders p r index) :
      Scan p r relid (.indexScan ⟨relid, index, IndexAccess.quals p r index, direction⟩) order

theorem scan_of_mem_scans (h : scans p r = .ok paths) (hpath : path ∈ paths) :
    ∃ relid operator order, r.relid? = some relid ∧ Scan p r relid operator order ∧
      build p r operator order = .ok path := by
  rw [scans] at h
  split at h
  · exact nomatch h
  · rename_i relid hrelid
    obtain ⟨whole, hwhole, h⟩ := except_bind_eq_ok.mp h
    obtain ⟨viaIndexes, hvia, h⟩ := except_bind_eq_ok.mp h
    cases h
    rcases List.mem_cons.mp hpath with rfl | hpath
    · exact ⟨relid, _, _, hrelid, .whole, hwhole⟩
    · obtain ⟨scansOf, hscans, hpath⟩ := List.mem_flatten.mp hpath
      obtain ⟨index, hindex, hbuilt⟩ := mem_of_mapM_eq_ok hvia hscans
      obtain ⟨⟨direction, order⟩, horder, hbuild⟩ := mem_of_mapM_eq_ok hbuilt hpath
      exact ⟨relid, _, _, hrelid, .ofIndex hindex horder, hbuild⟩

theorem scans_ne_nil (h : scans p r = .ok paths) : paths ≠ [] := by
  rw [scans] at h
  split at h
  · exact nomatch h
  · obtain ⟨whole, -, h⟩ := except_bind_eq_ok.mp h
    obtain ⟨viaIndexes, -, h⟩ := except_bind_eq_ok.mp h
    exact Except.ok.inj h ▸ List.cons_ne_nil whole _

/-- Every scan is offered. -/
theorem exists_mem_scans {relid : RtIndex} {operator : PathOperator α} {order : Pathkeys α}
    (h : scans p r = .ok paths) (hrelid : r.relid? = some relid)
    (hscan : Scan p r relid operator order) :
    ∃ path ∈ paths, build p r operator order = .ok path := by
  rw [scans, hrelid] at h
  obtain ⟨whole, hwhole, h⟩ := except_bind_eq_ok.mp h
  obtain ⟨viaIndexes, hvia, h⟩ := except_bind_eq_ok.mp h
  cases h
  cases hscan with
  | whole => exact ⟨whole, List.mem_cons_self, hwhole⟩
  | ofIndex hindex horder =>
      obtain ⟨scansOf, hscans, hbuilt⟩ := exists_of_mapM_eq_ok hvia hindex
      obtain ⟨path, hpath, hbuild⟩ := exists_of_mapM_eq_ok hbuilt horder
      have hmem : path ∈ viaIndexes.flatten := List.mem_flatten_of_mem hscans hpath
      exact ⟨path, List.mem_cons_of_mem whole hmem, hbuild⟩

/-- A scan of an index is in the order of the index, one way or the other. -/
theorem order_of_mem_scanOrders {index : Index α} {direction : ScanDirection}
    {order : Pathkeys α} (h : (direction, order) ∈ scanOrders p r index) :
    order = IndexAccess.order p.operators r index direction := by
  rw [scanOrders, List.mem_append] at h
  rcases h with h | h
  · split at h
    · exact absurd h List.not_mem_nil
    · cases List.mem_singleton.mp h
      rfl
  · split at h
    · cases List.mem_singleton.mp h
      rfl
    · exact absurd h List.not_mem_nil

end Path

/-! ## Joins -/

namespace Pairing

variable {j : Pairing α}

/-- The join paths that two relations are offered: both inputs sorted, and for
each outer path in its own order a nested loop and, where its order fits some
clauses, a merge with an inner path that is sorted or gets sorted; and the
hash join. -/
inductive Candidate (j : Pairing α) : PathOperator α → Pathkeys α → Prop where
  | sorted {outer inner : Path α} {outerSort innerSort : Pathkeys α}
      (ho : outer ∈ j.outer.paths) (hi : inner ∈ j.inner.paths) (hne : j.mergeable ≠ [])
      (houter : Pathkeys.ofMergeClauses j.mergeable j.outer.target = .ok outerSort)
      (hinner : Pathkeys.ofMergeClauses j.mergeable j.inner.target = .ok innerSort) :
      Candidate j (.mergeJoin (j.ofInputs outer inner) j.mergeable outerSort innerSort)
        (j.order outerSort)
  | nested {outer inner : Path α} (ho : outer ∈ j.outer.paths) (hi : inner ∈ j.inner.paths) :
      Candidate j (.nestLoop (j.ofInputs outer inner)) (j.order outer.pathkeys)
  | presorted {outer inner : Path α} {clauses : List (Clause α)} {required : Pathkeys α}
      (ho : outer ∈ j.outer.paths) (hi : inner ∈ j.inner.paths)
      (hclauses : clauses = Pathkeys.findMergeClauses outer.pathkeys j.mergeable)
      (hne : clauses ≠ [])
      (hrequired : Pathkeys.ofMergeClauses clauses j.inner.target = .ok required)
      (hsorted : Pathkeys.satisfies inner.pathkeys required = true) :
      Candidate j (.mergeJoin (j.ofInputs outer inner) clauses [] []) (j.order outer.pathkeys)
  | halfSorted {outer inner : Path α} {clauses : List (Clause α)} {required : Pathkeys α}
      (ho : outer ∈ j.outer.paths) (hi : inner ∈ j.inner.paths)
      (hclauses : clauses = Pathkeys.findMergeClauses outer.pathkeys j.mergeable)
      (hne : clauses ≠ [])
      (hrequired : Pathkeys.ofMergeClauses clauses j.inner.target = .ok required) :
      Candidate j (.mergeJoin (j.ofInputs outer inner) clauses [] required)
        (j.order outer.pathkeys)
  | hashed {outer inner : Path α} (ho : outer ∈ j.outer.paths) (hi : inner ∈ j.inner.paths)
      (hne : j.hashable ≠ []) :
      Candidate j (.hashJoin (j.ofInputs outer inner) j.hashable) []

/-- A path is built from a candidate. -/
def Offers (p : Planner α) (j : Pairing α) (path : Path α) : Prop :=
  ∃ operator order, j.Candidate operator order ∧ Path.build p j.join operator order = .ok path

variable {outer inner : Path α}

theorem offers_of_sortedMerge (ho : outer ∈ j.outer.paths) (hi : inner ∈ j.inner.paths)
    (h : sortedMerge p j outer inner = .ok paths) (hpath : path ∈ paths) : j.Offers p path := by
  rw [sortedMerge] at h
  split at h
  · cases h
    exact absurd hpath List.not_mem_nil
  · rename_i clauses hne
    obtain ⟨outerSort, houter, h⟩ := except_bind_eq_ok.mp h
    obtain ⟨innerSort, hinner, h⟩ := except_bind_eq_ok.mp h
    obtain ⟨built, hbuilt, h⟩ := except_bind_eq_ok.mp h
    cases h
    obtain rfl := List.mem_singleton.mp hpath
    exact ⟨_, _, .sorted ho hi (fun he => hne he) houter hinner, hbuilt⟩

theorem offers_of_presortedMerge (ho : outer ∈ j.outer.paths) (hi : inner ∈ j.inner.paths)
    (h : presortedMerge p j outer inner = .ok paths) (hpath : path ∈ paths) : j.Offers p path := by
  rw [presortedMerge] at h
  split at h
  · cases h
    exact absurd hpath List.not_mem_nil
  · rename_i clauses hne
    obtain ⟨required, hrequired, h⟩ := except_bind_eq_ok.mp h
    obtain ⟨built, hbuilt, h⟩ := except_bind_eq_ok.mp h
    cases h
    obtain rfl := List.mem_singleton.mp hpath
    cases hsorted : Path.cheapestFor? .total required j.inner.paths with
    | some sorted =>
        rw [hsorted] at hbuilt
        obtain ⟨hmem, hsatisfies⟩ := Path.mem_of_cheapestFor? hsorted
        exact ⟨_, _, .presorted ho hmem rfl (fun he => hne he) hrequired hsatisfies, hbuilt⟩
    | none =>
        rw [hsorted] at hbuilt
        exact ⟨_, _, .halfSorted ho hi rfl (fun he => hne he) hrequired, hbuilt⟩

theorem offers_of_joinsOf (ho : outer ∈ j.outer.paths) (hi : inner ∈ j.inner.paths)
    (h : joinsOf p j inner outer = .ok paths) (hpath : path ∈ paths) : j.Offers p path := by
  obtain ⟨nested, hnested, h⟩ := except_bind_eq_ok.mp h
  obtain ⟨merged, hmerged, h⟩ := except_bind_eq_ok.mp h
  cases h
  rcases List.mem_cons.mp hpath with rfl | hpath
  · exact ⟨_, _, .nested ho hi, hnested⟩
  · exact offers_of_presortedMerge ho hi hmerged hpath

theorem offers_of_hashed (ho : outer ∈ j.outer.paths) (hi : inner ∈ j.inner.paths)
    (h : hashed p j outer inner = .ok paths) (hpath : path ∈ paths) : j.Offers p path := by
  rw [hashed] at h
  split at h
  · cases h
    exact absurd hpath List.not_mem_nil
  · rename_i clauses hne
    obtain ⟨built, hbuilt, h⟩ := except_bind_eq_ok.mp h
    cases h
    obtain rfl := List.mem_singleton.mp hpath
    exact ⟨_, _, .hashed ho hi fun he => hne he, hbuilt⟩

/-- Whatever a join is offered is built from a candidate. -/
theorem offers_of_mem_paths (h : j.paths p = .ok paths) (hpath : path ∈ paths) :
    j.Offers p path := by
  rw [Pairing.paths] at h
  split at h
  · rename_i outer inner houter hinner
    have ho := Path.mem_of_cheapest? houter
    have hi := Path.mem_of_cheapest? hinner
    obtain ⟨sorted, hsorted, h⟩ := except_bind_eq_ok.mp h
    obtain ⟨presorted, hpresorted, h⟩ := except_bind_eq_ok.mp h
    obtain ⟨hash, hhash, h⟩ := except_bind_eq_ok.mp h
    cases h
    rw [List.mem_append, List.mem_append] at hpath
    rcases hpath with (hpath | hpath) | hpath
    · exact offers_of_sortedMerge ho hi hsorted hpath
    · obtain ⟨joins, hjoins, hpath⟩ := List.mem_flatten.mp hpath
      obtain ⟨first, hfirst, hbuilt⟩ := mem_of_mapM_eq_ok hpresorted hjoins
      exact offers_of_joinsOf hfirst hi hbuilt hpath
    · exact offers_of_hashed ho hi hhash hpath
  · cases h
    exact absurd hpath List.not_mem_nil

/-- Inputs with paths are joined, and sorted for all clauses that a merge can
follow. -/
theorem paths_eq_ok (h : j.paths p = .ok paths) (ho : j.outer.paths ≠ []) (hi : j.inner.paths ≠ []) :
    paths ≠ [] ∧ (j.mergeable ≠ [] → ∃ outerSort innerSort,
      Pathkeys.ofMergeClauses j.mergeable j.outer.target = .ok outerSort ∧
      Pathkeys.ofMergeClauses j.mergeable j.inner.target = .ok innerSort) := by
  obtain ⟨outer, houter⟩ := Path.exists_cheapest? .total ho
  obtain ⟨inner, hinner⟩ := Path.exists_cheapest? .total hi
  rw [Pairing.paths, houter, hinner] at h
  obtain ⟨sorted, hsorted, h⟩ := except_bind_eq_ok.mp h
  obtain ⟨presorted, hpresorted, h⟩ := except_bind_eq_ok.mp h
  obtain ⟨hash, -, h⟩ := except_bind_eq_ok.mp h
  cases h
  constructor
  · -- Each outer path has a nested loop.
    obtain ⟨first, hfirst⟩ := List.exists_mem_of_ne_nil _ ho
    obtain ⟨joins, hjoins, hbuilt⟩ := exists_of_mapM_eq_ok hpresorted hfirst
    obtain ⟨nested, -, hbuilt⟩ := except_bind_eq_ok.mp hbuilt
    obtain ⟨merged, -, hbuilt⟩ := except_bind_eq_ok.mp hbuilt
    cases hbuilt
    refine List.ne_nil_of_mem (a := nested) (List.mem_append_left _ (List.mem_append_right _ ?_))
    exact List.mem_flatten_of_mem hjoins List.mem_cons_self
  · intro hne
    rw [sortedMerge] at hsorted
    split at hsorted
    · rename_i hnil
      exact absurd hnil hne
    · obtain ⟨outerSort, hout, hsorted⟩ := except_bind_eq_ok.mp hsorted
      obtain ⟨innerSort, hinn, -⟩ := except_bind_eq_ok.mp hsorted
      exact ⟨outerSort, innerSort, hout, hinn⟩

end Pairing

end QueryPlanner
