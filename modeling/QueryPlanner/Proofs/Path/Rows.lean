/-
  QueryPlanner.Proofs.Path.Rows

  The rows that the scans of a base relation deliver.

  A query wants the rows that satisfy every restriction.  An index holds the
  rows that satisfy its predicate, and a scan of it visits those that satisfy
  its quals and checks the other restrictions itself.  Planning chooses the
  indexes to scan by keys and quals alone, so a scan misses rows of the query
  where the restrictions leave the predicate open.
-/

import QueryPlanner.Pattern.Regex.Engine
import QueryPlanner.Planner.Build
import QueryPlanner.Proofs.Path.Candidates
import QueryPlanner.Proofs.Row

namespace QueryPlanner

variable {α : Type} [Number α] {i : Interpretation α} {p : Planner α} {r : Relation α}
  {row : Row α} {e : Expr α}

/-! ## Wanted rows -/

namespace Relation

/-- A row satisfies every restriction of the relation. -/
def Wants (i : Interpretation α) (r : Relation α) (row : Row α) : Prop :=
  ∀ e ∈ r.restrictionExprs, e.Holds i row

/-- The restrictions leave no row at which the clause does not hold. -/
def Implies (i : Interpretation α) (r : Relation α) (e : Expr α) : Prop :=
  ∀ row, r.Wants i row → e.Holds i row

theorem implies_of_mem (h : e ∈ r.restrictionExprs) : r.Implies i e :=
  fun _ hrow => hrow e h

end Relation

/-! ## Delivered rows -/

/-- An index has an entry for a row. -/
def Index.Covers (i : Interpretation α) (index : Index α) (row : Row α) : Prop :=
  (Expr.and index.predicate).Holds i row

/-- The rows that a scan of a relation delivers. -/
inductive PathOperator.Delivers (i : Interpretation α) (r : Relation α) (row : Row α) :
    PathOperator α → Prop where
  | whole {relid : RtIndex} (hrow : r.Wants i row) : Delivers i r row (.seqScan relid)
  | viaIndex {scan : IndexScan α} (hentry : scan.index.Covers i row)
      (hvisited : ∀ e ∈ scan.quals, e.Holds i row)
      (hchecked : ∀ e ∈ r.restrictionExprs, e ∉ scan.quals → e.Holds i row) :
      Delivers i r row (.indexScan scan)

/-- The quals of a scan are restrictions. -/
theorem IndexAccess.mem_restrictionExprs_of_mem_quals {index : Index α}
    (h : e ∈ IndexAccess.quals p r index) : e ∈ r.restrictionExprs := by
  rw [IndexAccess.quals] at h
  split at h
  · exact absurd h List.not_mem_nil
  · exact (List.mem_filter.mp h).1

/-- A scan of an index delivers the wanted rows that the index covers: each
restriction is either a qual or checked. -/
theorem PathOperator.delivers_indexScan_iff {relid : RtIndex} {index : Index α}
    {direction : ScanDirection} :
    Delivers i r row (.indexScan ⟨relid, index, IndexAccess.quals p r index, direction⟩) ↔
      index.Covers i row ∧ r.Wants i row := by
  constructor
  · rintro (_ | ⟨hentry, hvisited, hchecked⟩)
    refine ⟨hentry, fun e he => ?_⟩
    by_cases hqual : e ∈ IndexAccess.quals p r index
    · exact hvisited e hqual
    · exact hchecked e he hqual
  · rintro ⟨hentry, hrow⟩
    refine .viaIndex hentry (fun e he => ?_) fun e he _ => hrow e he
    exact hrow e (IndexAccess.mem_restrictionExprs_of_mem_quals he)

namespace Path

variable {paths : List (Path α)}

/-- An index with an order worth reading it in is scanned. -/
theorem exists_indexScan {index : Index α} (h : scans p r = .ok paths) (hindex : index ∈ r.indexes)
    (hscanned : scanOrders p r index ≠ []) :
    ∃ path ∈ paths, ∃ relid direction,
      path.operator = .indexScan ⟨relid, index, IndexAccess.quals p r index, direction⟩ := by
  obtain ⟨⟨direction, order⟩, horder⟩ := List.exists_mem_of_ne_nil _ hscanned
  -- A relation that has been offered scans is a base relation.
  obtain ⟨relid, hrelid⟩ : ∃ relid, r.relid? = some relid := by
    rw [scans] at h
    split at h
    · cases h
    · exact ⟨_, ‹_›⟩
  obtain ⟨path, hpath, hbuild⟩ := exists_mem_scans h hrelid (.ofIndex hindex horder)
  obtain ⟨c, -, rfl⟩ := build_eq_ok hbuild
  exact ⟨_, hpath, relid, direction, rfl⟩

/-- Every scan that a relation is offered delivers all wanted rows exactly if
the restrictions imply each predicate of an index that is scanned. -/
theorem scans_deliver_iff (i : Interpretation α) (h : scans p r = .ok paths) :
    (∀ path ∈ paths, ∀ row, r.Wants i row → path.operator.Delivers i r row) ↔
      ∀ index ∈ r.indexes, scanOrders p r index ≠ [] →
        ∀ e ∈ index.predicate, r.Implies i e := by
  constructor
  · intro hall index hindex hscanned e he row hrow
    obtain ⟨path, hpath, relid, direction, hoperator⟩ := exists_indexScan h hindex hscanned
    have hdelivers := hall path hpath row hrow
    rw [hoperator, PathOperator.delivers_indexScan_iff] at hdelivers
    exact Expr.holds_and.mp hdelivers.1 e he
  · intro himplied path hpath row hrow
    obtain ⟨relid, operator, order, -, hscan, hbuild⟩ := scan_of_mem_scans h hpath
    obtain ⟨c, -, rfl⟩ := build_eq_ok hbuild
    cases hscan with
    | whole => exact .whole hrow
    | ofIndex hindex horder =>
        have hentry := himplied _ hindex (List.ne_nil_of_mem horder)
        exact PathOperator.delivers_indexScan_iff.mpr
          ⟨Expr.holds_and.mpr fun e he => hentry e he row hrow, hrow⟩

section Example

/-- The comparison of a column with a number. -/
def columnCompared (relid : RtIndex) (column : AttrNumber) (op : Oid) (v : Int32) : Expr Float :=
  .op op [.var ⟨relid, column, .int4, -1⟩, .const .int4 (some (.int4 v))]

/-- The first column is 42. -/
def firstIs42 : Expr Float := columnCompared 1 1 1012 42

/-- The second column is below 5. -/
def secondBelow5 (relid : RtIndex) : Expr Float := columnCompared relid 2 1014 5

/-- A session over one relation with an index on the first column of the rows
with a second column below 5. -/
def lowRowsIndexed (restrictions : List (Expr Float)) : Planner Float :=
  let index : Index Float := { Index.plain 500 .btree [.column 1] with
    ordering := [1014]
    predicate := [secondBelow5 0] }
  let catalog : Catalog Float := ⟨[(100, ⟨"t", 100, 10000, [index]⟩)]⟩
  (restrictions.forM fun e => discard (PlanM.distribute e)).final
    (.start .standard (.builtin Regex.engine) catalog.source (StatisticsStore.provider ⟨[]⟩)
      [.stored 100])

/-- The built-in operators, and functions that are always null. -/
def builtinMeaning : Interpretation Float := ⟨.builtin Regex.engine, fun _ _ => none⟩

/-- A relation is scanned, one of its indexes included. -/
def isScannedByIndex (p : Planner Float) (r : Relation Float) : Bool :=
  (scans p r).isOk && r.indexes.any fun index => !(scanOrders p r index).isEmpty

theorem exists_of_isScannedByIndex {p : Planner Float} {r : Relation Float}
    (h : isScannedByIndex p r = true) :
    ∃ paths, scans p r = .ok paths ∧ ∃ path ∈ paths, ∃ scan,
      path.operator = .indexScan scan ∧ scan.index ∈ r.indexes := by
  rw [isScannedByIndex, Bool.and_eq_true, List.any_eq_true] at h
  obtain ⟨hok, index, hindex, hscanned⟩ := h
  obtain ⟨paths, hpaths⟩ : ∃ paths, scans p r = .ok paths := by
    cases hscans : scans p r with
    | ok paths => exact ⟨paths, rfl⟩
    | error e => exact nomatch hscans ▸ hok
  have hne : scanOrders p r index ≠ [] := by
    intro hempty
    rw [hempty] at hscanned
    exact nomatch hscanned
  obtain ⟨path, hpath, relid, direction, hoperator⟩ := exists_indexScan hpaths hindex hne
  exact ⟨paths, hpaths, path, hpath, _, hoperator, hindex⟩

/-- With the predicate among the restrictions the index is scanned, and every
scan delivers all wanted rows. -/
theorem scans_deliver_iff_lowRows :
    ∃ r ∈ (lowRowsIndexed [firstIs42, secondBelow5 1]).relations, ∃ paths,
      scans (lowRowsIndexed [firstIs42, secondBelow5 1]) r = .ok paths ∧
      (∃ path ∈ paths, ∃ scan, path.operator = .indexScan scan ∧ scan.index.isPartial = true) ∧
      ∀ path ∈ paths, ∀ row, r.Wants builtinMeaning row →
        path.operator.Delivers builtinMeaning r row := by
  obtain ⟨p, hp⟩ : ∃ p, lowRowsIndexed [firstIs42, secondBelow5 1] = p := ⟨_, rfl⟩
  have hany : p.relations.any (fun r => isScannedByIndex p r && r.indexes.all fun index =>
      index.isPartial && index.predicate.all r.restrictionExprs.contains) = true := by
    rw [← hp]
    decide +kernel
  obtain ⟨r, hr, h⟩ := List.any_eq_true.mp hany
  rw [Bool.and_eq_true, List.all_eq_true] at h
  obtain ⟨paths, hpaths, path, hpath, scan, hoperator, hindex⟩ := exists_of_isScannedByIndex h.1
  refine ⟨r, hp ▸ hr, paths, hp ▸ hpaths, ⟨path, hpath, scan, hoperator, ?_⟩, ?_⟩
  · exact (Bool.and_eq_true_iff.mp (h.2 scan.index hindex)).1
  · refine (scans_deliver_iff builtinMeaning hpaths).mpr fun index hmem _ e he => ?_
    have hrestricted := (Bool.and_eq_true_iff.mp (h.2 index hmem)).2
    exact Relation.implies_of_mem (List.contains_iff_mem.mp (List.all_eq_true.mp hrestricted e he))

/-- The first column at 42, the second at 7. -/
def highRow : Row Float := fun _ column => some (.int4 (if column = 1 then 42 else 7))

/-- With a restriction on the first column alone the index is scanned all the
same, and the scan misses a row of the query. -/
theorem scans_miss_highRow :
    ∃ r ∈ (lowRowsIndexed [firstIs42]).relations, ∃ paths,
      scans (lowRowsIndexed [firstIs42]) r = .ok paths ∧
      ∃ path ∈ paths, ∃ scan, path.operator = .indexScan scan ∧
        (∃ e ∈ scan.index.predicate, ¬ r.Implies builtinMeaning e) ∧
        r.Wants builtinMeaning highRow ∧
        ¬ path.operator.Delivers builtinMeaning r highRow := by
  obtain ⟨p, hp⟩ : ∃ p, lowRowsIndexed [firstIs42] = p := ⟨_, rfl⟩
  have hany : p.relations.any (fun r => isScannedByIndex p r &&
      (r.restrictionExprs.all fun e => e.Holds builtinMeaning highRow) &&
      r.indexes.all fun index =>
        index.predicate.any fun e => !decide (e.Holds builtinMeaning highRow)) = true := by
    rw [← hp]
    decide +kernel
  obtain ⟨r, hr, h⟩ := List.any_eq_true.mp hany
  rw [Bool.and_eq_true, Bool.and_eq_true, List.all_eq_true, List.all_eq_true] at h
  obtain ⟨⟨hscanned, hrow⟩, hopen⟩ := h
  have hwants : r.Wants builtinMeaning highRow := fun e he => of_decide_eq_true (hrow e he)
  obtain ⟨paths, hpaths, path, hpath, scan, hoperator, hindex⟩ :=
    exists_of_isScannedByIndex hscanned
  obtain ⟨e, he, hfails⟩ := List.any_eq_true.mp (hopen scan.index hindex)
  have hfails : ¬ e.Holds builtinMeaning highRow := by simpa using hfails
  refine ⟨r, hp ▸ hr, paths, hp ▸ hpaths, path, hpath, scan, hoperator,
    ⟨e, he, fun himplied => hfails (himplied highRow hwants)⟩, hwants, ?_⟩
  rw [hoperator]
  rintro (_ | ⟨hentry, -, -⟩)
  exact hfails (Expr.holds_and.mp hentry e he)

end Example

end Path

end QueryPlanner
