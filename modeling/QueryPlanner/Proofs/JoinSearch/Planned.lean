/-
  QueryPlanner.Proofs.JoinSearch.Planned

  Relations with paths, and how a search comes by them.

  No path is dropped but for another one, so a relation that has paths keeps
  some.  A base relation gets a scan at least, and a join of two relations
  with paths at least a nested loop: every relation that a search lists in a
  level has paths from then on.
-/

import QueryPlanner.Proofs.JoinSearch.Connected
import QueryPlanner.Proofs.Planner.Keeps

namespace QueryPlanner

open Planner

variable {α : Type} [Number α] {p q : Planner α} {r : Relation α} {a b id : Nat}
  {level level' previous ids : List Nat} {wanted : RelSet → RelSet → Bool}

namespace Planner

/-- The relation with a number has paths. -/
def Planned (p : Planner α) (id : Nat) : Prop := ∃ r, p.relation id = .ok r ∧ r.paths ≠ []

omit [Number α] in
theorem Planned.exists_relation (h : p.Planned id) : ∃ r, p.relation id = .ok r := by
  obtain ⟨r, hr, -⟩ := h
  exact ⟨r, hr⟩

/-- Relations with paths still have some. -/
def KeepsPlanned (p q : Planner α) : Prop := ∀ id, p.Planned id → q.Planned id

instance : IsPreorder (Planner α) KeepsPlanned where
  refl _ _ h := h
  trans _ _ _ h h' id hid := h' id (h id hid)

omit [Number α] in
theorem keepsPlanned_addRelation (r : Relation α) (p : Planner α) :
    KeepsPlanned p (p.addRelation r) := by
  rintro id ⟨s, hs, hpaths⟩
  exact ⟨s, relation_addRelation hs, hpaths⟩

theorem keepsPlanned_offer (id : Nat) (paths : List (Path α)) (p : Planner α) :
    KeepsPlanned p (modifyRelation id (.offer paths) p) := by
  rintro k ⟨s, hs, hpaths⟩
  refine ⟨_, relation_modifyRelation hs, ?_⟩
  split
  · exact Path.addAll_ne_nil (.inr hpaths)
  · exact hpaths

theorem planned_offer {paths : List (Path α)} (hr : p.relation id = .ok r) (h : paths ≠ []) :
    (modifyRelation id (.offer paths) p).Planned id := by
  refine ⟨_, relation_modifyRelation hr, ?_⟩
  rw [if_pos rfl]
  exact Path.addAll_ne_nil (.inl h)

end Planner

namespace PlanM

theorem keepsPlanned_joinRelation (outer inner : Nat) :
    (joinRelation outer inner : PlanM α (Nat × List (Clause α))).Moves KeepsPlanned :=
  joinRelation_moves fun p _ _ _ _ _ _ _ _ _ => keepsPlanned_addRelation _ p

theorem keepsPlanned_addScans (id : Nat) : (addScans id : PlanM α Unit).Moves KeepsPlanned :=
  addScans_moves keepsPlanned_offer id

theorem keepsPlanned_addJoins (join outer inner : Nat) (restrictions : List (Clause α))
    (type : JoinType) :
    (addJoins join outer inner restrictions type : PlanM α Unit).Moves KeepsPlanned :=
  addJoins_moves keepsPlanned_offer join outer inner restrictions type

theorem planned_of_addScans {u : Unit} (h : addScans id p = .ok u q) : q.Planned id := by
  rcases addScans_cases id p with ⟨_, hrun⟩ | ⟨r, paths, hr, hpaths, hrun⟩
  · exact nomatch h.symm.trans hrun
  · cases h.symm.trans hrun
    exact planned_offer hr (Path.scans_ne_nil hpaths)

/-- Inputs with paths make a join with paths. -/
theorem planned_of_addJoins {join : Nat} {restrictions : List (Clause α)} {type : JoinType}
    {u : Unit} (ha : p.Planned a) (hb : p.Planned b)
    (h : addJoins join a b restrictions type p = .ok u q) : q.Planned join := by
  rcases addJoins_cases join a b restrictions type p with
    ⟨_, hrun⟩ | ⟨j, o, i, paths, hj, ho, hi, hpaths, hrun⟩
  · exact nomatch h.symm.trans hrun
  · cases h.symm.trans hrun
    obtain ⟨o', ho', hopaths⟩ := ha
    obtain rfl := Except.ok.inj (ho.symm.trans ho')
    obtain ⟨i', hi', hipaths⟩ := hb
    obtain rfl := Except.ok.inj (hi.symm.trans hi')
    exact planned_offer hj (Pairing.paths_eq_ok hpaths hopaths hipaths).1

/-- The same, from before the join. -/
theorem planned_of_joinRelation {join : Nat} {restrictions : List (Clause α)} {type : JoinType}
    {p₁ : Planner α} {u : Unit} (ha : p.Planned a) (hb : p.Planned b)
    (hjoin : joinRelation a b p = .ok (join, restrictions) p₁)
    (hpaths : addJoins join a b restrictions type p₁ = .ok u q) : q.Planned join := by
  have hkeeps := (keepsPlanned_joinRelation a b).of_ok hjoin
  exact planned_of_addJoins (hkeeps a ha) (hkeeps b hb) hpaths

end PlanM

namespace JoinSearch

theorem keepsPlanned_joinPair (a b : Nat) (level : List Nat) :
    (joinPair a b level : PlanM α (List Nat)).Moves KeepsPlanned :=
  joinPair_moves PlanM.keepsPlanned_joinRelation PlanM.keepsPlanned_addJoins a b level

/-- All base relations are planned first. -/
theorem planned_start (h : start p = .ok ids q) : ∀ id ∈ ids, q.Planned id := by
  obtain ⟨-, -, hscans⟩ := start_eq_ok h
  exact (PlanM.forM_reaches (I := fun _ => True) (Q := fun id q => q.Planned id)
    (fun id p p' _ hrun => ⟨trivial, PlanM.planned_of_addScans hrun,
      (PlanM.keepsPlanned_addScans id).of_ok hrun⟩) trivial hscans).1

/-- The join of a pair is planned when it is listed. -/
theorem planned_joinPair (ha : p.Planned a) (hb : p.Planned b) (hlevel : ∀ id ∈ level, p.Planned id)
    (hrun : joinPair a b level p = .ok level' q) : ∀ id ∈ level', q.Planned id := by
  have hkeeps := (keepsPlanned_joinPair a b level).of_ok hrun
  obtain ⟨⟨join, forward⟩, p₁, hjoin, hrun⟩ := PlanM.bind_eq_ok.mp hrun
  obtain ⟨_, p₂, hpaths, hrun⟩ := PlanM.bind_eq_ok.mp hrun
  obtain ⟨⟨_, backward⟩, p₃, hjoin', hrun⟩ := PlanM.bind_eq_ok.mp hrun
  obtain ⟨_, p₄, hpaths', hrun⟩ := PlanM.bind_eq_ok.mp hrun
  obtain ⟨rfl, rfl⟩ := PlanM.pure_eq_ok.mp hrun
  -- It has paths from the first order of its inputs, and keeps some in the second.
  have hplanned : p₂.Planned join := PlanM.planned_of_joinRelation ha hb hjoin hpaths
  have hlast : p₄.Planned join := (PlanM.keepsPlanned_addJoins join b a backward .inner).of_ok
    hpaths' join ((PlanM.keepsPlanned_joinRelation b a).of_ok hjoin' join hplanned)
  intro id hid
  rcases mem_listed.mp hid with hid | rfl
  · exact hkeeps id (hlevel id hid)
  · exact hlast

theorem planned_tryPair (ha : p.Planned a) (hb : p.Planned b) (hlevel : ∀ id ∈ level, p.Planned id)
    (hrun : tryPair wanted a level b p = .ok level' q) :
    KeepsPlanned p q ∧ ∀ id ∈ level', q.Planned id := by
  obtain ⟨o, ho⟩ := ha.exists_relation
  obtain ⟨i, hi⟩ := hb.exists_relation
  rw [tryPair_eq wanted level (outlines_getElem? ho) (outlines_getElem? hi)] at hrun
  split at hrun
  · obtain ⟨rfl, rfl⟩ := PlanM.pure_eq_ok.mp hrun
    exact ⟨refl_of KeepsPlanned p, hlevel⟩
  · exact ⟨(keepsPlanned_joinPair a b level).of_ok hrun, planned_joinPair ha hb hlevel hrun⟩

theorem planned_joinAll (hprevious : ∀ id ∈ previous, p.Planned id) (hids : ∀ id ∈ ids, p.Planned id)
    (hrun : joinAll wanted previous ids [] p = .ok level q) :
    KeepsPlanned p q ∧ ∀ id ∈ level, q.Planned id := by
  refine joinAll_keeps (I := fun level r => KeepsPlanned p r ∧ ∀ id ∈ level, r.Planned id)
    (fun a ha b hb level r hr level' r' hrun => ?_) ⟨refl_of KeepsPlanned p, fun _ h => absurd h List.not_mem_nil⟩ hrun
  obtain ⟨hkeeps, hlevel⟩ := hr
  obtain ⟨hkeeps', hlevel'⟩ := planned_tryPair (hkeeps a (hprevious a ha)) (hkeeps b (hids b hb))
    hlevel hrun
  exact ⟨trans_of KeepsPlanned hkeeps hkeeps', hlevel'⟩

theorem planned_nextLevel {g : JoinGraph} (hprevious : ∀ id ∈ previous, p.Planned id)
    (hids : ∀ id ∈ ids, p.Planned id) (hrun : nextLevel g ids previous p = .ok level q) :
    KeepsPlanned p q ∧ ∀ id ∈ level, q.Planned id := by
  obtain ⟨linked, p', hjoin, hrun⟩ := PlanM.bind_eq_ok.mp hrun
  obtain ⟨hkeeps, hlinked⟩ := planned_joinAll hprevious hids hjoin
  split at hrun
  · obtain ⟨hkeeps', hlevel⟩ := planned_joinAll (fun id hid => hkeeps id (hprevious id hid))
      (fun id hid => hkeeps id (hids id hid)) hrun
    exact ⟨trans_of KeepsPlanned hkeeps hkeeps', hlevel⟩
  · obtain ⟨rfl, rfl⟩ := PlanM.pure_eq_ok.mp hrun
    exact ⟨hkeeps, hlinked⟩

/-- A level of planned relations has nothing but planned relations in the levels
behind it. -/
theorem planned_climb {g : JoinGraph} {steps : Nat} (hids : ∀ id ∈ ids, p.Planned id)
    (hlevel : ∀ id ∈ level, p.Planned id) (hrun : climb g ids steps level p = .ok level' q) :
    KeepsPlanned p q ∧ ∀ id ∈ level', q.Planned id := by
  induction steps generalizing level p with
  | zero =>
      obtain ⟨rfl, rfl⟩ := PlanM.pure_eq_ok.mp hrun
      exact ⟨refl_of KeepsPlanned p, hlevel⟩
  | succ steps ih =>
      obtain ⟨next, p', hnext, hrun⟩ := PlanM.bind_eq_ok.mp hrun
      obtain ⟨hkeeps, hplanned⟩ := planned_nextLevel hlevel hids hnext
      split at hrun
      · exact absurd hrun PlanM.throw_ne_ok
      · obtain ⟨hkeeps', hlast⟩ := ih (fun id hid => hkeeps id (hids id hid)) hplanned hrun
        exact ⟨trans_of KeepsPlanned hkeeps hkeeps', hlast⟩

end JoinSearch

end QueryPlanner
