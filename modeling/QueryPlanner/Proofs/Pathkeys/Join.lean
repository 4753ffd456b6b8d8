/-
  QueryPlanner.Proofs.Pathkeys.Join

  The ordering that a join claims for its rows.

  Each position has the items of the outer position that the join shows, and
  what the merge clauses equate with their expressions.  The claim is right
  for an outer ordering that sorts the operands of the clauses by the sort
  operators of the clauses.  Behind an ordering that is read backwards it is
  not: the equated expression is claimed in the direction of the clause,
  whatever the direction of the outer rows.
-/

import QueryPlanner.Pattern.Regex.Engine
import QueryPlanner.Proofs.Pathkeys.Sides

namespace QueryPlanner.Pathkeys

variable {α : Type} [DecidableEq α] {target : TargetList α} {clauses : List (Clause α)}
  {x item : SortItem α}

/-! ## One position -/

theorem mem_addVisible {p : SortPosition α} :
    x ∈ addVisible target p item ↔ x ∈ p ∨ target.provides item.key = true ∧ x = item := by
  rw [addVisible]
  split
  · rename_i h
    rw [SortPosition.mem_add]
    exact or_congr_right (and_iff_right h).symm
  · rename_i h
    exact (or_iff_left fun hx => h hx.1).symm

theorem mem_foldl_addVisible {items : List (SortItem α)} {p : SortPosition α} :
    x ∈ items.foldl (addVisible target) p ↔
      x ∈ p ∨ target.provides x.key = true ∧ x ∈ items := by
  induction items generalizing p with
  | nil => simp
  | cons item rest ih =>
      rw [List.foldl_cons, ih, mem_addVisible, List.mem_cons, or_assoc]
      refine or_congr_right ?_
      constructor
      · rintro (⟨hitem, rfl⟩ | ⟨hx, hrest⟩)
        · exact ⟨hitem, .inl rfl⟩
        · exact ⟨hx, .inr hrest⟩
      · rintro ⟨hx, rfl | hrest⟩
        · exact .inl ⟨hx, rfl⟩
        · exact .inr ⟨hx, hrest⟩

/-- What an outer item comes to: itself, and what the clauses equate with its
expression, all as far as the join shows it. -/
def Yields (target : TargetList α) (clauses : List (Clause α)) (item x : SortItem α) : Prop :=
  target.provides item.key = true ∧
    (x = item ∨ target.provides x.key = true ∧ ∃ c ∈ clauses, equated? c item.key = some x)

/-- The position of a join has just what the outer items come to. -/
theorem mem_joinPosition_iff {outer : SortPosition α} :
    x ∈ joinPosition target clauses outer ↔ ∃ item ∈ outer, Yields target clauses item x := by
  -- Item by item, from what the earlier ones have added.
  have hfold (items : SortPosition α) (p : SortPosition α) :
      x ∈ items.foldl (fun p item =>
        if target.provides item.key then
          (clauses.filterMap (equated? · item.key)).foldl (addVisible target) (p.add item)
        else p) p ↔ x ∈ p ∨ ∃ item ∈ items, Yields target clauses item x := by
    induction items generalizing p with
    | nil => simp
    | cons item rest ih =>
        rw [List.foldl_cons, ih]
        simp only [List.mem_cons, or_and_right, exists_or, exists_eq_left]
        split
        · rename_i h
          rw [mem_foldl_addVisible, SortPosition.mem_add, List.mem_filterMap, or_assoc, or_assoc]
          have hyields : Yields target clauses item x ↔ x = item ∨
              target.provides x.key = true ∧ ∃ c ∈ clauses, equated? c item.key = some x :=
            and_iff_right h
          rw [hyields, or_assoc]
        · rename_i h
          have hyields : ¬ Yields target clauses item x := fun hx => h hx.1
          rw [or_iff_right hyields]
  rw [joinPosition, hfold]
  exact or_iff_right List.not_mem_nil

/-- A join claims no order of expressions that it does not show. -/
theorem provides_of_mem_joinPosition {outer : SortPosition α}
    (h : x ∈ joinPosition target clauses outer) : target.provides x.key = true := by
  obtain ⟨item, -, hitem, hx⟩ := mem_joinPosition_iff.mp h
  rcases hx with rfl | ⟨hx, -⟩
  · exact hitem
  · exact hx

/-! ## All positions -/

theorem length_ofJoin_le (outer : Pathkeys α) (target : TargetList α)
    (clauses : List (Clause α)) : (ofJoin outer target clauses).length ≤ outer.length := by
  have h := (List.takeWhile_prefix (fun p : SortPosition α => !p.isEmpty)
    (l := outer.map (joinPosition target clauses))).length_le
  rw [List.length_map] at h
  exact h

/-- A position of the join is made of the outer position at its place. -/
theorem ofJoin_getElem? {outer : Pathkeys α} {i : Nat} {p : SortPosition α}
    (h : (ofJoin outer target clauses)[i]? = some p) :
    ∃ q, outer[i]? = some q ∧ p = joinPosition target clauses q := by
  have hprefix := List.takeWhile_prefix (fun p : SortPosition α => !p.isEmpty)
    (l := outer.map (joinPosition target clauses))
  obtain ⟨rest, hrest⟩ := hprefix
  obtain ⟨hlt, -⟩ := List.getElem?_eq_some_iff.mp h
  have hmap : (outer.map (joinPosition target clauses))[i]? = some p := by
    rw [← hrest]
    exact (List.getElem?_append_left hlt).trans h
  rw [List.getElem?_map, Option.map_eq_some_iff] at hmap
  obtain ⟨q, hq, hp⟩ := hmap
  exact ⟨q, hq, hp.symm⟩

theorem provides_of_mem_ofJoin {outer : Pathkeys α} {p : SortPosition α}
    (hp : p ∈ ofJoin outer target clauses) (hx : x ∈ p) : target.provides x.key = true := by
  obtain ⟨i, hi⟩ := List.mem_iff_getElem?.mp hp
  obtain ⟨q, -, rfl⟩ := ofJoin_getElem? hi
  exact provides_of_mem_joinPosition hx

/-! ## Direction -/

/-- Where an ordering sorts an operand of a merge clause, it does so by the
sort operator of the clause. -/
def Agrees (ps : Pathkeys α) (clauses : List (Clause α)) : Prop :=
  ∀ p ∈ ps, ∀ item ∈ p, ∀ c ∈ clauses, ∀ a b, c.Equates a b → a.key = item.key → a = item

/-- Behind an outer ordering that agrees with the merge clauses, a join claims
only what the clauses bear out: each of its items is one of the outer
position, or across a clause from one. -/
theorem ofJoin_keeps_direction (target : TargetList α) {outer : Pathkeys α}
    (hagree : Agrees outer clauses) :
    (ofJoin outer target clauses).length ≤ outer.length ∧
    ∀ (i : Nat) (p : SortPosition α), (ofJoin outer target clauses)[i]? = some p →
      ∃ q, outer[i]? = some q ∧
        ∀ x ∈ p, ∃ item ∈ q, target.provides item.key = true ∧
          (x = item ∨ ∃ c ∈ clauses, c.Equates item x) := by
  refine ⟨length_ofJoin_le outer target clauses, fun i p hp => ?_⟩
  obtain ⟨q, hq, rfl⟩ := ofJoin_getElem? hp
  refine ⟨q, hq, fun x hx => ?_⟩
  obtain ⟨item, hitem, hshown, hx⟩ := mem_joinPosition_iff.mp hx
  refine ⟨item, hitem, hshown, ?_⟩
  rcases hx with rfl | ⟨-, c, hc, hequated⟩
  · exact .inl rfl
  · -- The clause sorts the expression as the outer ordering does.
    obtain ⟨a, ha, hax⟩ := equated?_eq_some hequated
    have hsame : a = item := hagree q (List.mem_of_getElem? hq) item hitem c hc a x hax ha
    exact .inr ⟨c, hc, hsame ▸ hax⟩

/-- The first columns of two relations. -/
def firstColumn (r : RtIndex) : Expr Float := .var ⟨r, 1, .int4, -1⟩

/-- The clause that both are equal. -/
def columnsEqual : Clause Float :=
  .analyze (.builtin Regex.engine) 0 (.op 1012 [firstColumn 1, firstColumn 2])

/-- Both columns. -/
def bothColumns : TargetList Float := [⟨1, firstColumn 1⟩, ⟨2, firstColumn 2⟩]

theorem columnsEqual_mergeSides? :
    columnsEqual.mergeSides? = some (⟨firstColumn 1, 1014⟩, ⟨firstColumn 2, 1014⟩) := by
  decide +kernel

/-- Behind ascending rows both columns ascend. -/
theorem ofJoin_keeps_direction_ascending :
    Agrees [[⟨firstColumn 1, 1014⟩]] [columnsEqual] ∧
    ofJoin [[⟨firstColumn 1, 1014⟩]] bothColumns [columnsEqual] =
      [[⟨firstColumn 1, 1014⟩, ⟨firstColumn 2, 1014⟩]] ∧
    ∃ item ∈ [(⟨firstColumn 1, 1014⟩ : SortItem Float)],
      bothColumns.provides item.key = true ∧ (⟨firstColumn 2, 1014⟩ = item ∨
        ∃ c ∈ [columnsEqual], c.Equates item ⟨firstColumn 2, 1014⟩) := by
  have hagree : Agrees [[⟨firstColumn 1, 1014⟩]] [columnsEqual] := by
    intro p hp item hitem c hc a b hab hkey
    obtain rfl := List.mem_singleton.mp hp
    obtain rfl := List.mem_singleton.mp hitem
    obtain rfl := List.mem_singleton.mp hc
    rw [Clause.Equates, columnsEqual_mergeSides?] at hab
    rcases hab with hab | hab
    · cases hab
      rfl
    · cases hab
      exact absurd hkey (by decide +kernel)
  have hjoin : ofJoin [[⟨firstColumn 1, 1014⟩]] bothColumns [columnsEqual] =
      [[⟨firstColumn 1, 1014⟩, ⟨firstColumn 2, 1014⟩]] := by
    decide +kernel
  refine ⟨hagree, hjoin, ?_⟩
  have hsound := (ofJoin_keeps_direction bothColumns hagree).2 0
    [⟨firstColumn 1, 1014⟩, ⟨firstColumn 2, 1014⟩] (by rw [hjoin]; rfl)
  obtain ⟨q, hq, hitems⟩ := hsound
  cases hq
  exact hitems _ (List.mem_cons_of_mem _ (List.mem_singleton_self _))

/-- Behind descending rows the second column is claimed to ascend, which
neither the outer rows nor the clause bear out. -/
theorem ofJoin_reverses_direction :
    (⟨firstColumn 2, 1014⟩ : SortItem Float) ∈
      (ofJoin [[⟨firstColumn 1, 1016⟩]] bothColumns [columnsEqual]).flatten ∧
    ¬ ∃ item ∈ [(⟨firstColumn 1, 1016⟩ : SortItem Float)],
      bothColumns.provides item.key = true ∧ (⟨firstColumn 2, 1014⟩ = item ∨
        ∃ c ∈ [columnsEqual], c.Equates item ⟨firstColumn 2, 1014⟩) := by
  decide +kernel

end QueryPlanner.Pathkeys
