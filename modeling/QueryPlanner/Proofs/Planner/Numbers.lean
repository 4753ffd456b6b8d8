/-
  QueryPlanner.Proofs.Planner.Numbers

  Relations found by the numbers that a session keeps.

  The numbers of base relations and of joins are kept beside the relations and
  in step with them.  So what is found by its number is what a search through
  all relations finds, and the relations listed by number are those of the
  kind, in order.
-/

import QueryPlanner.Planner

namespace QueryPlanner

variable {α : Type} {p : Planner α} {r : Relation α} {rs : List (Relation α)} {relid : RtIndex}
  {id : Nat}

/-! ## Relations numbered by place -/

namespace Relation

/-- What numbers lead back to is what was numbered. -/
theorem filterMap_numbers (c : Relation α → Bool) (before rs : List (Relation α)) :
    ((rs.zipIdx before.length).filterMap fun (r, id) => if c r then some id else none).filterMap
        ((before ++ rs)[·]?) = rs.filter c := by
  induction rs generalizing before with
  | nil => rfl
  | cons r rest ih =>
      -- The rest is numbered from behind this relation.
      have hrest := ih (before ++ [r])
      rw [List.length_append, List.length_singleton, List.append_assoc, List.singleton_append]
        at hrest
      rw [List.zipIdx_cons, List.filterMap_cons]
      by_cases h : c r = true
      · simp [h, ← hrest]
      · simp [h, ← hrest]

theorem filterMap_joinIds (rs : List (Relation α)) :
    (joinIds rs).filterMap (rs[·]?) = rs.filter fun r => r.kind = .join := by
  have h := filterMap_numbers (fun r => r.kind = .join) [] rs
  simpa [joinIds] using h

theorem filterMap_baseIds (rs : List (Relation α)) :
    ((baseIds rs).filterMap fun (_, id) => rs[id]?) = rs.filter fun r => r.relid?.isSome := by
  have h := filterMap_numbers (fun r => r.relid?.isSome) [] rs
  rw [← h, baseIds, List.filterMap_filterMap, List.filterMap_filterMap]
  refine congrArg (List.filterMap · _) (funext fun x => ?_)
  cases hrelid : x.1.relid? with
  | none => simp [hrelid]
  | some a => simp [hrelid]

/-- Looking a position up leads to the first relation that has it. -/
theorem lookup_baseIds (before rs : List (Relation α)) :
    (((rs.zipIdx before.length).filterMap fun (r, id) =>
        r.relid?.map (·, id)).lookup relid).bind ((before ++ rs)[·]?) =
      rs.find? fun r => r.relid? == some relid := by
  induction rs generalizing before with
  | nil => rfl
  | cons r rest ih =>
      have hrest := ih (before ++ [r])
      rw [List.length_append, List.length_singleton, List.append_assoc, List.singleton_append]
        at hrest
      rw [List.zipIdx_cons, List.filterMap_cons, List.find?_cons]
      cases hr : r.relid? with
      | none => simpa [hr] using hrest
      | some a =>
          by_cases ha : relid = a
          · simp [hr, ha]
          · have hne : (a == relid) = false := beq_false_of_ne (Ne.symm ha)
            simpa [hr, List.lookup_cons, beq_false_of_ne ha, hne] using hrest

theorem mem_joinIds_iff : id ∈ joinIds rs ↔ ∃ r, rs[id]? = some r ∧ r.kind = .join := by
  simp only [joinIds, List.mem_filterMap, Prod.exists, List.mem_zipIdx_iff_getElem?,
    Option.ite_none_right_eq_some, Option.some.injEq]
  constructor
  · rintro ⟨r, _, hr, hk, rfl⟩
    exact ⟨r, hr, hk⟩
  · rintro ⟨r, hr, hk⟩
    exact ⟨r, id, hr, hk, rfl⟩

theorem mem_baseIds_iff :
    (relid, id) ∈ baseIds rs ↔ ∃ r, rs[id]? = some r ∧ r.relid? = some relid := by
  simp only [baseIds, List.mem_filterMap, Prod.exists, List.mem_zipIdx_iff_getElem?,
    Option.map_eq_some_iff, Prod.mk.injEq]
  constructor
  · rintro ⟨r, _, hr, _, hrelid, rfl, rfl⟩
    exact ⟨r, hr, hrelid⟩
  · rintro ⟨r, hr, hrelid⟩
    exact ⟨r, id, hr, relid, hrelid, rfl, rfl⟩

/-- Joins are listed in the order they were built. -/
theorem joinIds_ascending (rs : List (Relation α)) : (joinIds rs).Pairwise (· < ·) := by
  refine List.pairwise_filterMap.mpr ?_
  have hnumbers : (rs.zipIdx.map Prod.snd).Pairwise (· < ·) := by
    rw [List.zipIdx_map_snd]
    exact List.pairwise_lt_range'
  refine (List.pairwise_map.mp hnumbers).imp fun {x y} hlt id hid id' hid' => ?_
  obtain ⟨-, hid⟩ := Option.ite_none_right_eq_some.mp hid
  obtain ⟨-, hid'⟩ := Option.ite_none_right_eq_some.mp hid'
  exact Option.some.inj hid ▸ Option.some.inj hid' ▸ hlt

/-- The positions are those of the base relations, in order. -/
theorem map_fst_baseIds (rs : List (Relation α)) :
    (baseIds rs).map Prod.fst = rs.filterMap (·.relid?) := by
  have hfst (x : Relation α × Nat) :
      (x.1.relid?.map (·, x.2)).map Prod.fst = x.1.relid? := by
    rw [Option.map_map]
    exact Option.map_id'
  rw [baseIds, List.map_filterMap, funext hfst]
  have hzip := List.filterMap_map (f := Prod.fst) (g := Relation.relid?) (l := rs.zipIdx)
  rw [List.zipIdx_map_fst] at hzip
  exact hzip.symm

end Relation

/-! ## Look-ups in a session -/

namespace Planner

theorem baseRelation?_eq_find (p : Planner α) (relid : RtIndex) :
    p.baseRelation? relid = p.relations.find? fun r => r.relid? == some relid := by
  rw [baseRelation?, p.baseIds_eq]
  exact Relation.lookup_baseIds [] p.relations

theorem joinRelation?_eq_find (p : Planner α) (relids : RelSet) :
    p.joinRelation? relids = p.relations.find? fun r => r.kind = .join ∧ r.relids = relids := by
  rw [joinRelation?, p.joinIds_eq, Relation.filterMap_joinIds, List.find?_filter]
  simp only [Bool.decide_and, Bool.decide_eq_true]

theorem mem_of_baseRelation? (h : p.baseRelation? relid = some r) : r ∈ p.relations := by
  rw [baseRelation?_eq_find] at h
  exact List.mem_of_find?_eq_some h

theorem mem_of_joinRelation? {relids : RelSet} (h : p.joinRelation? relids = some r) :
    r ∈ p.relations := by
  rw [joinRelation?_eq_find] at h
  exact List.mem_of_find?_eq_some h

theorem baseRelations_eq_filter (p : Planner α) :
    p.baseRelations = p.relations.filter fun r => r.relid?.isSome := by
  rw [baseRelations, p.baseIds_eq, Relation.filterMap_baseIds]

theorem joinRelations_eq_filter (p : Planner α) :
    p.joinRelations = p.relations.filter fun r => r.kind = .join := by
  rw [joinRelations, p.joinIds_eq, Relation.filterMap_joinIds]

theorem mem_baseRelations_iff : r ∈ p.baseRelations ↔ r ∈ p.relations ∧ ∃ a, r.relid? = some a := by
  rw [baseRelations_eq_filter, List.mem_filter, Option.isSome_iff_exists]

theorem mem_joinRelations_iff : r ∈ p.joinRelations ↔ r ∈ p.relations ∧ r.kind = .join := by
  rw [joinRelations_eq_filter, List.mem_filter, decide_eq_true_eq]

theorem map_fst_baseIds (p : Planner α) :
    p.baseIds.map Prod.fst = p.baseRelations.filterMap (·.relid?) := by
  have hnone : (fun r : Relation α => if r.relid?.isSome = true then r.relid? else none) =
      fun r => r.relid? := by
    funext r
    cases r.relid? with
    | none => rfl
    | some a => rfl
  rw [p.baseIds_eq, Relation.map_fst_baseIds, baseRelations_eq_filter, List.filterMap_filter, hnone]

/-- The base relation of a position is found by its number. -/
theorem lookup_eq_some (h : p.baseIds.lookup relid = some id) :
    ∃ r, p.relations[id]? = some r ∧ r.relid? = some relid ∧ p.baseRelation? relid = some r := by
  obtain ⟨before, after, heq, -⟩ := List.lookup_eq_some_iff.mp h
  have hmem : (relid, id) ∈ p.baseIds := by
    rw [heq]
    exact List.mem_append_right _ List.mem_cons_self
  rw [p.baseIds_eq, Relation.mem_baseIds_iff] at hmem
  obtain ⟨r, hr, hrelid⟩ := hmem
  refine ⟨r, hr, hrelid, ?_⟩
  rw [baseRelation?, h, Option.bind_some, hr]

theorem lookup_eq_none_iff : p.baseIds.lookup relid = none ↔ p.baseRelation? relid = none := by
  constructor
  · intro h
    rw [baseRelation?, h, Option.bind_none]
  · intro h
    cases hid : p.baseIds.lookup relid with
    | none => rfl
    | some id =>
        obtain ⟨r, -, -, hr⟩ := lookup_eq_some hid
        exact nomatch h.symm.trans hr

/-! ## Other relations -/

/-- The session with other relations. -/
def withRelations (rs : List (Relation α)) (p : Planner α) : Planner α :=
  { p with
    relations := rs
    baseIds := Relation.baseIds rs
    joinIds := Relation.joinIds rs
    baseIds_eq := rfl
    joinIds_eq := rfl }

@[simp] theorem withRelations_relations (rs : List (Relation α)) (p : Planner α) :
    (p.withRelations rs).relations = rs := rfl

/-- The numbers kept beside the relations say nothing of their own. -/
theorem withRelations_self (p : Planner α) : p.withRelations p.relations = p := by
  obtain ⟨settings, operators, catalog, statistics, rangeTable, relations, baseIds, joinIds, hbase,
    hjoin, constants, order, next⟩ := p
  subst hbase hjoin
  rfl

theorem addRelation_eq (r : Relation α) (p : Planner α) :
    p.addRelation r = p.withRelations (p.relations ++ [r]) :=
  (withRelations_self (p.addRelation r)).symm

theorem modifyRelation_eq [Number α] (id : Nat) (f : Relation.Edit α) (p : Planner α) :
    p.modifyRelation id f = p.withRelations (p.relations.modify id f) :=
  (withRelations_self (p.modifyRelation id f)).symm

end Planner

end QueryPlanner
