/-
  QueryPlanner.Proofs.JoinSearch.Complete

  The join search is complete.

  Whatever the clauses of a query are, every level has a level behind it until
  all base relations are joined, so nothing but the calls of a search can
  fail.  Where none of them does, each level joins one base relation more than
  the level before, and all of its relations have paths.
-/

import QueryPlanner.Proofs.JoinSearch.Levels
import QueryPlanner.Proofs.JoinSearch.Planned
import QueryPlanner.Proofs.Planner.Changes

namespace QueryPlanner.JoinSearch

open Planner PlanM

variable {α : Type} [Number α] {p q : Planner α} {level level' ids : List Nat}
  {bases : Finset RtIndex} {size id : Nat}

/-! ## Failures -/

/-- A pair is joined unless one of the calls for it fails. -/
theorem pairScript_ends (a b : Nat) (level : List Nat) (p : Planner α) :
    (pairScript a b level).Ends p (fun _ _ => True) fun _ _ => True :=
  .bind (.any _) fun (_, _) _ _ _ => .bind (.any _) fun _ _ _ _ =>
    .bind (.any _) fun (_, _) _ _ _ => .bind (.any _) fun _ _ _ _ => .pure trivial

/-- In a consistent session nothing but a call fails where a pair is joined. -/
theorem progress_consistent :
    Progress (fun p : Planner α => Outline.Consistent p.outlines) fun _ _ => True where
  consistent _ hp := hp
  joinPair p a b level _ _ hp _ _ _ _ := by
    refine (pairScript_ends a b level p).imp_of_ok fun level' q hrun _ => ?_
    exact hp.grows ((moves_joinPair a b level).of_ok hrun).1

/-- Nor does anything else before the first level. -/
theorem startScript_ends (hp : Outline.Consistent p.outlines) (hne : p.baseRelations ≠ []) :
    startScript.Ends p (fun _ q => Outline.Consistent q.outlines) fun _ _ => True := by
  have hids : ¬(p.baseRelations.map (·.id)).isEmpty = true := by
    rwa [List.isEmpty_iff, List.map_eq_nil_iff]
  have hends : startScript.Ends p (fun _ _ => True) fun _ _ => True := by
    refine Script.Ends.bind (Q := fun r r' => r = p ∧ p = r') (.of_ok rfl ⟨rfl, rfl⟩) ?_
    rintro _ _ - ⟨rfl, rfl⟩
    refine .ite (fun hempty => absurd hempty hids) fun _ => ?_
    exact .bind (.forM (fun _ _ _ _ => .any _) trivial) fun _ _ _ _ => .pure trivial
  exact hends.imp_of_ok fun ids q hrun _ => (sameOutlines_start hrun).1 ▸ hp

/-- A search that succeeds has joined all base relations. -/
theorem relids_of_search (hp : Outline.Consistent p.outlines) (hrun : search p = .ok id q) :
    ∃ r, q.relation id = .ok r ∧ r.relids.toFinset = positions p := by
  obtain ⟨p₁, -, hne, -⟩ := search_eq_ok hrun
  have hends := progress_consistent.search hp (startScript_ends hp hne)
  exact (PlanM.Ends.result hends hrun).2

/-! ## Levels on the way -/

/-- The level that a search has reached behind so many others. -/
def levelAt (steps : Nat) : PlanM α (List Nat) := do
  let bases ← start
  climb (graph (← get)) bases steps bases

/-- A level of relations that are planned, each of them joining so many base
relations. -/
structure PlannedLevel (bases : Finset RtIndex) (size : Nat) (level : List Nat)
    (p : Planner α) : Prop where
  nodup : level.Nodup
  nonempty : level ≠ []
  joins : ∀ id ∈ level, ∃ r, p.relation id = .ok r ∧ r.relids.toFinset ⊆ bases ∧
    r.relids.toFinset.card = size ∧ r.paths ≠ []

omit [Number α] in
theorem Level.planned (h : Level bases size level p.outlines) (hne : level ≠ [])
    (hplanned : ∀ id ∈ level, p.Planned id) : PlannedLevel bases size level p where
  nodup := h.nodup
  nonempty := hne
  joins id hid := by
    obtain ⟨o, ho, hsize⟩ := h.parts id hid
    obtain ⟨r, hr, hpaths⟩ := hplanned id hid
    obtain rfl := Option.some.inj (ho.symm.trans (outlines_getElem? hr))
    exact ⟨r, hr, hsize.subset, hsize.card_eq, hpaths⟩

/-- Climbing on leaves the levels below as they are. -/
theorem PlannedLevel.climb {g : JoinGraph} {steps : Nat} (h : PlannedLevel bases size level p)
    (hids : ∀ id ∈ ids, p.Planned id)
    (hrun : JoinSearch.climb g ids steps level p = .ok level' q) :
    PlannedLevel bases size level q where
  nodup := h.nodup
  nonempty := h.nonempty
  joins id hid := by
    obtain ⟨r, hr, hsub, hcard, hpaths⟩ := h.joins id hid
    have hlevel : ∀ id ∈ level, p.Planned id := fun id hid => by
      obtain ⟨r, hr, -, -, hpaths⟩ := h.joins id hid
      exact ⟨r, hr, hpaths⟩
    obtain ⟨s, hs, hspaths⟩ := (planned_climb hids hlevel hrun).1 id ⟨r, hr, hpaths⟩
    have hgrows := ((climb_moves moves_joinPair g ids steps level).of_ok hrun).1
    have ho := hgrows.getElem? (outlines_getElem? hr)
    have hrelids : s.relids = r.relids :=
      congrArg Outline.relids (Option.some.inj ((outlines_getElem? hs).symm.trans ho))
    exact ⟨s, hs, hrelids ▸ hsub, hrelids ▸ hcard, hspaths⟩

/-- A climb passes through all levels in between. -/
theorem climb_split {g : JoinGraph} {i k : Nat} (h : climb g ids (i + k) level p = .ok level' q) :
    ∃ middle r, climb g ids i level p = .ok middle r ∧ climb g ids k middle r = .ok level' q := by
  induction i generalizing level p with
  | zero => exact ⟨level, p, rfl, Nat.zero_add k ▸ h⟩
  | succ i ih =>
      rw [Nat.add_right_comm] at h
      obtain ⟨next, p', hnext, h⟩ := bind_eq_ok.mp h
      split at h
      · exact absurd h throw_ne_ok
      · rename_i hne
        obtain ⟨middle, r, hmiddle, hrest⟩ := ih h
        refine ⟨middle, r, bind_eq_ok.mpr ⟨next, p', hnext, ?_⟩, hrest⟩
        rw [if_neg hne]
        exact hmiddle

/-- A search that succeeds has reached a level of planned relations with each of
its steps. -/
theorem plannedLevel_of_search (hp : Outline.Consistent p.outlines) (hrun : search p = .ok id q)
    {i : Nat} (hi : i < p.baseRelations.length) :
    ∃ level r, levelAt i p = .ok level r ∧ PlannedLevel (positions p) (i + 1) level r ∧
      PlannedLevel (positions p) (i + 1) level q := by
  obtain ⟨p₁, hstart, hne, hclimb⟩ := search_eq_ok hrun
  have hsame := sameOutlines_start hstart
  have hids := planned_start hstart
  have hfirst : Bases (positions p) (p.baseRelations.map (·.id)) p₁.outlines :=
    hsame.1 ▸ bases_baseRelations hp
  have hlength := length_baseRelations hp
  rw [show p.baseRelations.length - 1 = i + (p.baseRelations.length - 1 - i) by omega] at hclimb
  obtain ⟨level, r, hlower, hupper⟩ := climb_split hclimb
  obtain ⟨-, hlevel, hlevelne⟩ := PlanM.Ends.result (progress_consistent.climb (hsame.1 ▸ hp)
    le_rfl (by omega) hfirst hfirst.toLevel (mt List.map_eq_nil_iff.mp hne)) hlower
  obtain ⟨hkeeps, hplanned⟩ := planned_climb hids hids hlower
  rw [Nat.add_comm] at hlevel
  have hat := hlevel.planned hlevelne hplanned
  refine ⟨level, r, ?_, hat, hat.climb (fun id hid => hkeeps id (hids id hid)) hupper⟩
  exact bind_eq_ok.mpr ⟨_, p₁, hstart, hlower⟩

/-! ## Every session -/

/-- Whatever clauses have been distributed, a search over some base relations
fails only if one of its calls does: no level is left empty, and the last one
has a single relation.  Otherwise it returns the relation that joins all of
them, and each of its levels lists distinct relations with paths, of one base
relation more than those of the level before. -/
theorem search_complete {settings : Settings α} {operators : OperatorCatalog α}
    {catalog : RelationSource α} {statistics : StatisticsProvider α}
    {rangeTable : List RangeTableEntry} {requests : List (Request α)} {log : List (Event α)}
    (hsession :
      session requests (.start settings operators catalog statistics rangeTable) = (log, p))
    (hne : p.baseRelations ≠ []) :
    (∀ e q, search p = .error e q → ∃ call ∈ calls p, call.1.error? call.2 = some e) ∧
    ((∀ call ∈ calls p, call.1.error? call.2 = none) →
      ∃ id q r, search p = .ok id q ∧ q.relation id = .ok r ∧ r.relids.toFinset = positions p ∧
        levelAt (p.baseRelations.length - 1) p = .ok [id] q ∧
        ∀ i < p.baseRelations.length, ∃ level pᵢ, levelAt i p = .ok level pᵢ ∧
          PlannedLevel (positions p) (i + 1) level pᵢ ∧
          PlannedLevel (positions p) (i + 1) level q) := by
  have hp : Outline.Consistent p.outlines := by
    obtain rfl : (session requests
        (.start settings operators catalog statistics rangeTable)).2 = p :=
      congrArg Prod.snd hsession
    exact session_keeps (I := fun p => Outline.Consistent p.outlines)
      (fun _ _ _ h hp => h.consistent hp) requests Outline.consistent_nil
  have hends := progress_consistent.search hp (startScript_ends hp hne)
  refine ⟨fun e q hrun => ?_, fun hcalls => ?_⟩
  · obtain ⟨call, hmem, -, he⟩ := hends.of_error hrun
    exact ⟨call, hmem, he⟩
  · obtain ⟨id, q, hrun, -, r, hr, hrelids⟩ := hends.exists_ok fun call hmem _ => hcalls call hmem
    obtain ⟨p₁, hstart, -, hclimb⟩ := search_eq_ok hrun
    have hlast : levelAt (p.baseRelations.length - 1) p = .ok [id] q :=
      bind_eq_ok.mpr ⟨_, p₁, hstart, hclimb⟩
    exact ⟨id, q, r, hrun, hr, hrelids, hlast, fun i hi => plannedLevel_of_search hp hrun hi⟩

/-- Two relations with a condition on them, and a third without any. -/
def linkedAndApart : List (Request Float) := [.baseRelation 3, .distribute (conditionOn [1, 2])]

/-- The relation without conditions is joined with the others all the same. -/
theorem search_complete_linkedAndApart :
    ∃ log p, session linkedAndApart threeRelations = (log, p) ∧ positions p = {1, 2, 3} ∧
      (∀ call ∈ calls p, call.1.error? call.2 = none) ∧
      ∃ id q r, search p = .ok id q ∧ q.relation id = .ok r ∧ r.relids.toFinset = {1, 2, 3} ∧
        ∀ i < 3, ∃ level pᵢ, levelAt i p = .ok level pᵢ ∧ PlannedLevel {1, 2, 3} (i + 1) level pᵢ := by
  obtain ⟨⟨log, p⟩, hsession⟩ : ∃ x, session linkedAndApart threeRelations = x := ⟨_, rfl⟩
  have hp : p = (session linkedAndApart threeRelations).2 := by rw [hsession]
  have hpositions : positions p = {1, 2, 3} := by
    rw [hp]
    decide +kernel
  have hlength : p.baseRelations.length = 3 := by
    rw [hp]
    decide +kernel
  have hne : p.baseRelations ≠ [] := List.ne_nil_of_length_eq_add_one hlength
  obtain ⟨id, q, hrun⟩ : ∃ id q, search p = .ok id q := by
    refine exists_ok_of_succeeds ?_
    rw [hp]
    decide +kernel
  have hcalls : ∀ call ∈ calls p, call.1.error? call.2 = none := script.calls_of_ok hrun
  obtain ⟨id, q, r, hrun, hr, hrelids, -, hlevels⟩ := (search_complete hsession hne).2 hcalls
  rw [hlength] at hlevels
  rw [hpositions] at hrelids hlevels
  refine ⟨log, p, hsession, hpositions, hcalls, id, q, r, hrun, hr, hrelids, fun i hi => ?_⟩
  obtain ⟨level, pᵢ, hat, hlevel, -⟩ := hlevels i hi
  exact ⟨level, pᵢ, hat, hlevel⟩

-- Three scans, and four calls for each of seven pairs.
example : (calls (session linkedAndApart threeRelations).2).length = 31 := by decide +kernel

end QueryPlanner.JoinSearch
