/-
  QueryPlanner.Proofs.BestPath

  The chosen path is the cheapest way to the order that a query asks for.

  A path that is not in the order is sorted, which adds the same to the cost of
  every path of a relation.  So the path that is cheapest unsorted is cheapest
  sorted, and no other has to be looked at for a sort; and where this path is in
  the order already, nothing beats it, as a sort costs something.  What is left
  is to compare one sorted path with the cheapest path in the order.
-/

import Mathlib.Tactic.Linarith
import QueryPlanner.BestPath
import QueryPlanner.Pattern.Regex.Engine
import QueryPlanner.Proofs.Datum.Order
import QueryPlanner.Proofs.Path.Cheapest

namespace QueryPlanner

/-! ## The cheapest path in an order -/

namespace Path

variable {α : Type} [Number α]

/-- Among costed paths the choice for an ordering is a cheapest one of those
that deliver it. -/
theorem isCheapest_cheapestFor? [Number.Ordered α] {paths : List (Path α)}
    (hcosted : ∀ path ∈ paths, IsCosted path) (criterion : CostCriterion)
    (required : Pathkeys α) :
    IsCheapest criterion (fun path => Pathkeys.satisfies path.pathkeys required = true) paths
      (cheapestFor? criterion required paths) := by
  have hmem {path : Path α} : path ∈ paths.filter (fun q => Pathkeys.containedIn required
      q.pathkeys) ↔ path ∈ paths ∧ Pathkeys.satisfies path.pathkeys required = true :=
    List.mem_filter
  cases hchosen : cheapestFor? criterion required paths with
  | none =>
      intro path hpath hordered
      have hnil := firstMin?_eq_none.mp hchosen
      have hpath' := hmem.mpr ⟨hpath, hordered⟩
      rw [hnil] at hpath'
      exact List.not_mem_nil hpath'
  | some m =>
      obtain ⟨hm, hleast⟩ :=
        cheapest?_eq_some (fun path hpath => hcosted path (hmem.mp hpath).1) hchosen
      obtain ⟨hm, hordered⟩ := hmem.mp hm
      exact ⟨hm, hordered, fun path hpath hpath' => hleast path (hmem.mpr ⟨hpath, hpath'⟩)⟩

/-- Where one cost comes first, a path with the smallest costs has the smallest
total. -/
theorem total_le_of_lexLe [Number.Ordered α] {m path : Path α}
    (h : LexLe (m.costs .total) (path.costs .total)) : m.total ≤ path.total :=
  (lexLe_iff.mp h).1

/-- Exact costs are numbers. -/
theorem isCosted_rational (log2 : Rat → Rat) (path : Path Rat) :
    @IsCosted Rat (Number.rational log2) path := by
  let _ := Number.rational log2
  exact ⟨Number.isNaN_eq_false_iff.mpr Rat.le_refl, Number.isNaN_eq_false_iff.mpr Rat.le_refl⟩

end Path

/-- No order asked for, or one that is delivered. -/
theorem Pathkeys.satisfies_of_isEmpty_or {α : Type} [DecidableEq α] {order required : Pathkeys α}
    (h : (required.isEmpty || satisfies order required) = true) :
    satisfies order required = true := by
  rcases (Bool.or_eq_true _ _).mp h with hempty | hdelivers
  · rw [List.isEmpty_iff.mp hempty]
    exact containedIn_iff.mpr (.nil _)
  · exact hdelivers

/-! ## The cost of a sort -/

section Charge

variable (log2 : Rat → Rat)

/-- What a sort adds to the cost of its input. -/
def sortCharge (params : CostParams Rat) (rows : Rat) : Rat :=
  2 * params.cpuOperator * max rows 2 * log2 (max rows 2) + params.cpuOperator * max rows 2

theorem sortCost_total_rational (params : CostParams Rat) (input rows : Rat) :
    letI := Number.rational log2
    (sortCost params input rows).total = input + sortCharge log2 params rows := by
  let _ := Number.rational log2
  have hrows : Number.max rows 2 = max rows 2 := Number.max_rational log2 rows 2
  show input + 2 * params.cpuOperator * Number.max rows 2 * log2 (Number.max rows 2) +
    params.cpuOperator * Number.max rows 2 = input + sortCharge log2 params rows
  rw [hrows, sortCharge, add_assoc]

theorem sortCharge_nonneg (hlog : ∀ x, 2 ≤ x → 0 ≤ log2 x) {params : CostParams Rat}
    (hcost : 0 ≤ params.cpuOperator) (rows : Rat) : 0 ≤ sortCharge log2 params rows := by
  have htwo : 2 ≤ max rows 2 := le_max_right rows 2
  have hrows : 0 ≤ max rows 2 := zero_le_two.trans htwo
  have hrow : 0 ≤ params.cpuOperator * max rows 2 := mul_nonneg hcost hrows
  have hcompare : 0 ≤ 2 * params.cpuOperator * max rows 2 * log2 (max rows 2) :=
    mul_nonneg (mul_nonneg (mul_nonneg zero_le_two hcost) hrows) (hlog _ htwo)
  exact add_nonneg hcompare hrow

end Charge

/-! ## The choice -/

namespace BestPath

/-- A path of a relation that delivers an order, by itself or with a sort, at no
more than any path in the order costs and than any path costs with a sort. -/
structure IsBest {α : Type} [Number α] (params : CostParams α) (required : Pathkeys α)
    (r : Relation α) (best : BestPath α) : Prop where
  mem : best.path ∈ r.paths
  delivers : best.sorted = false →
    Pathkeys.satisfies best.path.pathkeys required = true ∧ best.total = best.path.total
  charges : best.sorted = true → best.total = (sortCost params best.path.total r.rows).total
  le_ordered : ∀ path ∈ r.paths, Pathkeys.satisfies path.pathkeys required = true →
    best.total ≤ path.total
  le_sorted : ∀ path ∈ r.paths, best.total ≤ (sortCost params path.total r.rows).total

section Choice

variable {log2 : Rat → Rat} {p : Planner Rat} {r : Relation Rat} {m cheapest : Path Rat}
  {required : Pathkeys Rat}

/-- No sort of a path undercuts the sort of the cheapest one. -/
theorem sort_total_le {x : Rat} (hleast : ∀ path ∈ r.paths, cheapest.total ≤ path.total)
    (hx : x ≤ cheapest.total + sortCharge log2 p.settings.cost r.rows) :
    letI := Number.rational log2
    ∀ path ∈ r.paths, x ≤ (sortCost p.settings.cost path.total r.rows).total := by
  intro path hpath
  rw [sortCost_total_rational]
  have hpath := hleast path hpath
  linarith

/-- A path in the order is best if no other in the order is cheaper, nor the
cheapest path with a sort. -/
theorem isBest_ordered (hm : m ∈ r.paths)
    (hdelivers : @Pathkeys.satisfies Rat (Number.rational log2).decEq m.pathkeys required = true)
    (hordered : ∀ path ∈ r.paths,
      @Pathkeys.satisfies Rat (Number.rational log2).decEq path.pathkeys required = true →
        m.total ≤ path.total)
    (hleast : ∀ path ∈ r.paths, cheapest.total ≤ path.total)
    (hsort : m.total ≤ cheapest.total + sortCharge log2 p.settings.cost r.rows) :
    @IsBest Rat (Number.rational log2) p.settings.cost required r (ordered m) :=
  letI := Number.rational log2
  { mem := hm
    delivers := fun _ => ⟨hdelivers, rfl⟩
    charges := nofun
    le_ordered := hordered
    le_sorted := sort_total_le hleast hsort }

/-- The cheapest path is best if it is in the order. -/
theorem isBest_cheapest (hm : m ∈ r.paths) (hleast : ∀ path ∈ r.paths, m.total ≤ path.total)
    (hdelivers : @Pathkeys.satisfies Rat (Number.rational log2).decEq m.pathkeys required = true)
    (hcharge : 0 ≤ sortCharge log2 p.settings.cost r.rows) :
    @IsBest Rat (Number.rational log2) p.settings.cost required r (ordered m) :=
  isBest_ordered hm hdelivers (fun path hpath _ => hleast path hpath) hleast
    (le_add_of_nonneg_right hcharge)

/-- The cheapest path with a sort is best if no path in the order is cheaper. -/
theorem isBest_sort (hm : m ∈ r.paths) (hleast : ∀ path ∈ r.paths, m.total ≤ path.total)
    (hordered : ∀ path ∈ r.paths,
      @Pathkeys.satisfies Rat (Number.rational log2).decEq path.pathkeys required = true →
        m.total + sortCharge log2 p.settings.cost r.rows ≤ path.total) :
    letI := Number.rational log2
    IsBest p.settings.cost required r (sort p r m) := by
  let _ := Number.rational log2
  have htotal : (sort p r m).total = m.total + sortCharge log2 p.settings.cost r.rows :=
    sortCost_total_rational log2 p.settings.cost m.total r.rows
  refine ⟨hm, nofun, fun _ => rfl, ?_, ?_⟩
  · intro path hpath hdelivers
    rw [htotal]
    exact hordered path hpath hdelivers
  · rw [htotal]
    exact sort_total_le hleast (le_refl _)

/-- The better one of the cheapest path in the order and the cheapest path with a
sort is best. -/
theorem isBest_cheaper {presorted : Path Rat} (hm : m ∈ r.paths)
    (hleast : ∀ path ∈ r.paths, m.total ≤ path.total) (hpresorted : presorted ∈ r.paths)
    (hdelivers : @Pathkeys.satisfies Rat (Number.rational log2).decEq presorted.pathkeys
      required = true)
    (hordered : ∀ path ∈ r.paths,
      @Pathkeys.satisfies Rat (Number.rational log2).decEq path.pathkeys required = true →
        presorted.total ≤ path.total) :
    letI := Number.rational log2
    IsBest p.settings.cost required r
      (if presorted.total ≤ (sort p r m).total then ordered presorted else sort p r m) := by
  let _ := Number.rational log2
  have hsort : (sort p r m).total = m.total + sortCharge log2 p.settings.cost r.rows :=
    sortCost_total_rational log2 p.settings.cost m.total r.rows
  split
  · rename_i hle
    rw [hsort] at hle
    exact isBest_ordered hpresorted hdelivers hordered hleast hle
  · rename_i hlt
    rw [hsort] at hlt
    refine isBest_sort hm hleast ?_
    intro path hpath hpath'
    exact (not_le.mp hlt).le.trans (hordered path hpath hpath')

end Choice

/-- **The chosen path is the best way to the order of the query.**  In exact
numbers, with any logarithm that is not negative from 2 on and a cost of
operators that is not negative, some path is chosen for every relation that has
any.  It is one of them, in the order or with a sort at its price, and costs no
more than any path in the order does and any other way to sort a path. -/
theorem choose_isBest (log2 : Rat → Rat) (hlog : ∀ x, 2 ≤ x → 0 ≤ log2 x) {p : Planner Rat}
    {id : Nat} {r : Relation Rat} (hr : p.relation id = .ok r) (hpaths : r.paths ≠ [])
    (hcost : 0 ≤ p.settings.cost.cpuOperator) :
    letI := Number.rational log2
    ∃ best, choose p id = .ok best ∧ IsBest p.settings.cost p.queryPathkeys r best := by
  let _ := Number.rational log2
  have hline := Number.ordered_rational log2
  have hcosted : ∀ path ∈ r.paths, path.IsCosted := fun path _ => Path.isCosted_rational log2 path
  have hcharge := sortCharge_nonneg log2 hlog hcost r.rows
  cases hcheapest : Path.cheapest? .total r.paths with
  | none => exact absurd (firstMin?_eq_none.mp hcheapest) hpaths
  | some cheapest =>
      obtain ⟨hmem, hlex⟩ := Path.cheapest?_eq_some hcosted hcheapest
      have hleast : ∀ path ∈ r.paths, cheapest.total ≤ path.total := fun path hpath =>
        Path.total_le_of_lexLe (hlex path hpath)
      rw [choose, hr]
      simp only [bind, Except.bind, hcheapest]
      split
      · rename_i hshortcut
        have hdelivers := Pathkeys.satisfies_of_isEmpty_or hshortcut
        exact ⟨_, rfl, isBest_cheapest hmem hleast hdelivers hcharge⟩
      · have hfor := Path.isCheapest_cheapestFor? hcosted .total p.queryPathkeys
        cases hpresorted : Path.cheapestFor? .total p.queryPathkeys r.paths with
        | none =>
            rw [hpresorted] at hfor
            refine ⟨_, rfl, isBest_sort hmem hleast ?_⟩
            intro path hpath hdelivers
            exact absurd hdelivers (hfor path hpath)
        | some presorted =>
            rw [hpresorted] at hfor
            obtain ⟨hpresorted, hdelivers, hlex⟩ := hfor
            have hordered := fun path hpath hdelivers =>
              Path.total_le_of_lexLe (hlex path hpath hdelivers)
            exact ⟨_, rfl, isBest_cheaper hmem hleast hpresorted hdelivers hordered⟩

section Example

/-- The order by the first column. -/
def firstColumnOrder : Pathkeys Rat := [[⟨.var ⟨1, 1, .int4, -1⟩, 1014⟩]]

/-- A hundred rows with a cheap scan, one that is dearer and sorted, and one
that is sorted and dearer still. -/
def scannedRows : Relation Rat :=
  letI := Number.rational id
  { Relation.blank 0 .base (RelSet.singleton 1) with
    rows := 100
    paths := [⟨0, .seqScan 1, 100, 0, 10, []⟩, ⟨0, .seqScan 1, 100, 0, 70, firstColumnOrder⟩,
      ⟨0, .seqScan 1, 100, 5, 60, firstColumnOrder⟩] }

/-- A query for these rows in order. -/
def orderedQuery : Planner Rat :=
  letI := Number.rational id
  { (Planner.start .standard (.builtin Regex.engine) Catalog.empty.source
      ⟨fun _ _ => none, fun _ _ => none⟩
      [.stored 7]).addRelation scannedRows with
    queryPathkeys := firstColumnOrder }

/-- The cheap scan would cost 60.25 with a sort, so a sorted one is taken. -/
theorem choose_isBest_orderedQuery :
    letI := Number.rational id
    0 ≤ orderedQuery.settings.cost.cpuOperator ∧
      ∃ best, choose orderedQuery 0 = .ok best ∧ (best.sorted, best.total) = (false, 60) ∧
        IsBest orderedQuery.settings.cost firstColumnOrder scannedRows best := by
  let _ := Number.rational id
  have hcost : 0 ≤ orderedQuery.settings.cost.cpuOperator := by decide +kernel
  obtain ⟨best, hbest, hisBest⟩ := choose_isBest id (fun _ hx => zero_le_two.trans hx)
    (rfl : orderedQuery.relation 0 = .ok scannedRows) (by decide) hcost
  have hrun : (choose orderedQuery 0).toOption.map (fun b => (b.sorted, b.total)) =
      some (false, 60) := by decide +kernel
  rw [hbest] at hrun
  exact ⟨hcost, best, hbest, Option.some.inj hrun, hisBest⟩

end Example

end BestPath

end QueryPlanner
