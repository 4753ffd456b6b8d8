/-
  QueryPlanner.Proofs.Planner.Columns

  The columns of clauses in the output of their relations.

  Distributing a clause over several relations adds the columns that it reads
  to what their relations show, and nothing is taken out later.  So at the end
  of a session every such clause finds its columns.
-/

import QueryPlanner.Proofs.Planner.JoinPaths

namespace QueryPlanner

open Outline Planner

variable {α : Type} [Number α] {p q : Planner α} {c : Clause α} {e : Expr α}

/-! ## What relations show -/

/-- Some relation shows an expression. -/
def Planner.Provides (p : Planner α) (e : Expr α) : Prop :=
  ∃ r ∈ p.relations, r.target.provides e = true

theorem Planner.Provides.keeps (h : p.Provides e) (hk : Keeps p q) : q.Provides e := by
  obtain ⟨r, hr, he⟩ := h
  obtain ⟨id, hid⟩ := List.mem_iff_getElem?.mp hr
  obtain ⟨s, hs, hrs⟩ := hk id r (relation_eq_ok_iff.mpr hid)
  exact ⟨s, mem_of_relation hs, TargetList.provides_iff.mpr
    (hrs.shows (TargetList.provides_iff.mp he))⟩

namespace PlanM

/-- What is added to an output is there. -/
theorem provides_of_addTarget {relid : RtIndex} {u : Unit} (h : addTarget relid e p = .ok u q) :
    q.Provides e := by
  obtain ⟨id, p', hbase, h⟩ := bind_eq_ok.mp h
  obtain ⟨-, o, ho, -⟩ := baseRelation_eq_ok hbase
  obtain ⟨r, hr, -⟩ := exists_relation ho
  obtain rfl := modify_eq_ok.mp h
  have hmodified := relation_modifyRelation (k := id) (f := .target e) hr
  rw [if_pos rfl] at hmodified
  exact ⟨_, mem_of_relation hmodified, TargetList.provides_add⟩

theorem provides_of_forM_addTarget {vars : List Var} {u : Unit} (hp : p.Sound)
    (h : (vars.forM fun v => addTarget v.relation (.var v)) p = .ok u q) :
    ∀ v ∈ vars, q.Provides (.var v) := by
  refine (forM_reaches (Q := fun v q => q.Provides (.var v)) (fun v p p' hp hv => ?_) hp h).1
  obtain ⟨hk, hp'⟩ := (steps_addTarget (Expr.over_singleton_var v)).of_ok hv hp
  exact ⟨hp', provides_of_addTarget hv, fun _ hw => hw.keeps hk⟩

/-- A clause over several relations is distributed with its columns. -/
theorem columns_of_distribute (hp : p.Sound) (h : distribute e p = .ok c q)
    (hle : 2 ≤ e.relations.size) : ∀ v ∈ e.vars, q.Provides (.var v) := by
  obtain ⟨d, p', hnew, h⟩ := bind_eq_ok.mp h
  have hd := analyzed_newClause hnew
  have hp' : p'.Sound := ((steps_newClause e).of_ok hnew hp).2
  have hrequired : d.required = e.relations := by
    cases hnew.symm.trans (newClause_eq e p)
    exact required_analyze ..
  have hsize := RelSet.size_of_membership e.relations
  dsimp only at h
  rw [hrequired] at h
  cases hm : e.relations.membership with
  | empty =>
      rw [hm] at hsize
      omega
  | single relid =>
      rw [hm] at hsize
      omega
  | multiple =>
      rw [hm] at h
      obtain ⟨_, p₁, hawait, h⟩ := bind_eq_ok.mp h
      obtain ⟨_, p₂, htargets, h⟩ := bind_eq_ok.mp h
      obtain ⟨-, rfl⟩ := pure_eq_ok.mp h
      have hp₁ := ((Moves.forM (steps_awaitOthers hd) _).of_ok hawait hp').2
      exact provides_of_forM_addTarget hp₁ htargets

end PlanM

/-! ## Sessions -/

/-- A clause distributed by some request, with its columns where they can be
joined. -/
structure Placed (requests : List (Request α)) (p : Planner α) (c : Clause α) : Prop where
  analyzed : c.Analyzed
  requested : .distribute c.expr ∈ requests
  columns : 2 ≤ c.expr.relations.size → ∀ v ∈ c.expr.vars, p.Provides (.var v)

theorem Placed.keeps {requests after : List (Request α)} (h : Placed requests p c)
    (hk : Keeps p q) : Placed (requests ++ after) q c where
  analyzed := h.analyzed
  requested := List.mem_append_left after h.requested
  columns hsize v hv := (h.columns hsize v hv).keeps hk

/-- Every clause of a regular session is placed. -/
theorem placed_session {requests : List (Request α)} (hp : p.Sound) (hr : Regular requests p) :
    ∀ c ∈ clausesOf (session requests p).1, Placed requests (session requests p).2 c := by
  induction requests using List.reverseRecOn with
  | nil => exact nofun
  | append_singleton before r ih =>
      obtain ⟨hsound, hlog⟩ := sound_session hp hr.of_append
      have hsteps := Request.steps_run (hr before r [] rfl) hlog
      rw [← Request.serve_snd] at hsteps
      rw [session_append]
      intro c hc
      rw [clausesOf, List.filterMap_append] at hc
      rcases List.mem_append.mp hc with hc | hc
      · exact (ih hr.of_append c hc).keeps (hsteps hsound).1
      · obtain ⟨event, hevent, hclause⟩ := List.mem_filterMap.mp hc
        obtain rfl := List.mem_singleton.mp hevent
        obtain ⟨e, rfl, hrun⟩ := Request.distribute_of_run (Request.run_of_clause? hclause)
        have hclause := PlanM.clause_of_distribute hrun
        obtain rfl : c.expr = e := by rw [hclause, PlanM.expr_analyze]
        exact ⟨⟨_, _, _, hclause⟩, List.mem_append_right before List.mem_cons_self,
          PlanM.columns_of_distribute hsound hrun⟩

end QueryPlanner
