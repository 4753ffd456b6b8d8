/-
  QueryPlanner.Proofs.Planner.Sources

  What a session without restrictions is planned from.

  The operators and the range table stay as they are for a whole session, and
  a base relation is built only for an entry that the range table has.  As
  long as every clause reads several relations, no relation is restricted
  either.
-/

import QueryPlanner.Proofs.Planner.Keeps
import QueryPlanner.Proofs.Planner.Session

namespace QueryPlanner

open Planner

variable {α : Type} {p q : Planner α} {r : Relation α}

namespace Planner

/-- A relation without restrictions, and with an entry if it is a base
relation. -/
structure Lists (p : Planner α) (r : Relation α) : Prop where
  unrestricted : r.restrictions = []
  entry : ∀ relid, r.relid? = some relid → ∃ e, p.entry relid = .ok e

/-- The same operators and range table, and all relations listed there if they
were before. -/
structure Sources (p q : Planner α) : Prop where
  operators_eq : q.operators = p.operators
  rangeTable_eq : q.rangeTable = p.rangeTable
  lists : (∀ r ∈ p.relations, p.Lists r) → ∀ r ∈ q.relations, q.Lists r

instance : IsPreorder (Planner α) Sources where
  refl _ := ⟨rfl, rfl, fun h => h⟩
  trans _ _ _ h h' := ⟨h'.operators_eq.trans h.operators_eq, h'.rangeTable_eq.trans h.rangeTable_eq,
    fun hp => h'.lists (h.lists hp)⟩

theorem sources_of_relations_eq (h : q.relations = p.relations)
    (hoperators : q.operators = p.operators) (htable : q.rangeTable = p.rangeTable) :
    Sources p q where
  operators_eq := hoperators
  rangeTable_eq := htable
  lists hp r hr := by
    refine ⟨(hp r (h ▸ hr)).unrestricted, fun relid hrelid => ?_⟩
    rw [entry, htable]
    exact (hp r (h ▸ hr)).entry relid hrelid

theorem sources_addRelation (hr : p.Lists r) : Sources p (p.addRelation r) where
  operators_eq := rfl
  rangeTable_eq := rfl
  lists hp := List.forall_mem_append.mpr
    ⟨fun s hs => ⟨(hp s hs).unrestricted, (hp s hs).entry⟩,
      List.forall_mem_singleton.mpr ⟨hr.unrestricted, hr.entry⟩⟩

theorem sources_modifyRelation [Number α] {f : Relation.Edit α}
    (hrestrictions : ∀ r, (f r).restrictions = r.restrictions) (id : Nat) (p : Planner α) :
    Sources p (modifyRelation id f p) where
  operators_eq := rfl
  rangeTable_eq := rfl
  lists hp s hs := by
    rcases mem_modifyRelation hs with hs | ⟨r, hr, rfl⟩
    · exact ⟨(hp s hs).unrestricted, (hp s hs).entry⟩
    · have hlist := hp r (mem_of_relation hr)
      exact ⟨(hrestrictions r).trans hlist.unrestricted,
        fun relid h => hlist.entry relid ((f.apply_relid? r).symm.trans h)⟩

end Planner

/-! ## Builders -/

namespace PlanM

variable [Number α]

theorem sources_baseRelation (relid : RtIndex) :
    (baseRelation relid : PlanM α Nat).Moves Sources := by
  refine baseRelation_moves fun p r _ hr => ?_
  obtain ⟨houtline, -, -, hrestrictions, -⟩ := ofEntry_eq_ok hr
  refine sources_addRelation ⟨hrestrictions, fun x hx => ?_⟩
  -- The relation built is the one of the entry that was asked for.
  have hrelid : r.outline.relid? = some relid := houtline ▸ Outline.relid?_ofBase _ relid
  obtain rfl := Option.some.inj (hrelid.symm.trans hx)
  exact entry_of_ofEntry hr

theorem sources_addTarget (relid : RtIndex) (e : Expr α) :
    (addTarget relid e : PlanM α Unit).Moves Sources :=
  (sources_baseRelation relid).bind fun id =>
    .modify fun p => sources_modifyRelation (fun _ => by rfl) id p

theorem sources_estimateSize (relid : RtIndex) :
    (estimateSize relid : PlanM α Unit).Moves Sources :=
  .bind .get fun p => .bind (.ofExcept _) fun r => .bind (.ofExcept _) fun _ =>
    .bind (.ofExcept _) fun _ => .modify fun p =>
      sources_modifyRelation (fun _ => by rfl) r.id p

/-- Distributing a clause over several relations restricts none of them. -/
theorem sources_distribute {e : Expr α} (he : 2 ≤ e.relations.size) :
    (distribute e : PlanM α (Clause α)).Moves Sources := by
  intro p
  refine Moves.rel_bind (sources_of_relations_eq rfl rfl rfl) fun c q hnew => ?_
  have hrequired : c.required = e.relations := by
    cases hnew.symm.trans (newClause_eq e p)
    exact required_analyze ..
  have hsize := RelSet.size_of_membership c.required
  rw [hrequired] at hsize ⊢
  cases hm : e.relations.membership with
  | empty =>
      rw [hm] at hsize
      omega
  | single relid =>
      rw [hm] at hsize
      omega
  | multiple =>
      refine Moves.bind (.forM (fun relid => ?_) _) (fun _ =>
        .bind (.forM (fun v => sources_addTarget _ _) _) fun _ => .pure c) q
      exact (sources_baseRelation relid).bind fun id => .modify fun p =>
        sources_modifyRelation (fun _ => by rfl) id p

theorem sources_joinRelation (outer inner : Nat) :
    (joinRelation outer inner : PlanM α (Nat × List (Clause α))).Moves Sources :=
  joinRelation_moves fun _ _ _ _ _ _ _ _ _ _ => sources_addRelation ⟨rfl, nofun⟩

theorem sources_offer (id : Nat) (paths : List (Path α)) (p : Planner α) :
    Sources p (modifyRelation id (.offer paths) p) :=
  sources_modifyRelation (fun _ => by rfl) id p

theorem sources_addScans (id : Nat) : (addScans id : PlanM α Unit).Moves Sources :=
  addScans_moves sources_offer id

theorem sources_addJoins (join outer inner : Nat) (restrictions : List (Clause α))
    (type : JoinType) :
    (addJoins join outer inner restrictions type : PlanM α Unit).Moves Sources :=
  addJoins_moves sources_offer join outer inner restrictions type

end PlanM

variable [Number α]

theorem JoinSearch.sources_joinPair (a b : Nat) (level : List Nat) :
    (joinPair a b level : PlanM α (List Nat)).Moves Sources :=
  joinPair_moves PlanM.sources_joinRelation PlanM.sources_addJoins a b level

/-- A request is one step of the session, if it distributes no clause over a
single relation. -/
theorem Request.sources_run {r : Request α}
    (hr : ∀ e, r = .distribute e → 2 ≤ e.relations.size) : r.run.Moves Sources := by
  cases r with
  | baseRelation relid => exact .bind (PlanM.sources_baseRelation relid) fun _ => .pure _
  | addTarget relid e => exact .bind (PlanM.sources_addTarget relid e) fun _ => .pure _
  | estimateSize relid => exact .bind (PlanM.sources_estimateSize relid) fun _ => .pure _
  | distribute e => exact .bind (PlanM.sources_distribute (hr e rfl)) fun _ => .pure _
  | joinRelation outer inner =>
      exact .bind (PlanM.sources_joinRelation outer inner) fun _ => .pure _
  | addScans id => exact .bind (PlanM.sources_addScans id) fun _ => .pure _
  | addJoins join outer inner restrictions type =>
      exact .bind (PlanM.sources_addJoins join outer inner restrictions type) fun _ => .pure _
  | offer id paths =>
      exact .bind .get fun p => .bind (.ofExcept _) fun r =>
        .bind (.modify (PlanM.sources_offer r.id paths)) fun _ => .pure _
  | requestOrder order =>
      exact .bind (.modify fun p => sources_of_relations_eq rfl rfl rfl) fun _ => .pure _
  | search =>
      exact .bind (JoinSearch.search_moves PlanM.sources_addScans JoinSearch.sources_joinPair)
        fun _ => .pure _

/-- A session that distributes only clauses over several relations is planned
from what it started with. -/
theorem sources_session {requests : List (Request α)}
    (h : ∀ e, .distribute e ∈ requests → 2 ≤ e.relations.size) (p : Planner α) :
    Sources p (session requests p).2 := by
  induction requests generalizing p with
  | nil => exact refl_of Sources p
  | cons r rest ih =>
      have hserve : Sources p (r.serve p).2 := by
        rw [r.serve_snd]
        exact Request.sources_run (fun e he => h e (he ▸ List.mem_cons_self)) p
      exact trans_of Sources hserve (ih (fun e he => h e (List.mem_cons_of_mem r he)) _)

/-- Its clauses are analyzed with the operators that it started with. -/
theorem analyze_session {requests : List (Request α)} {operators : OperatorCatalog α} {c : Clause α}
    (hp : p.operators = operators) (h : ∀ e, .distribute e ∈ requests → 2 ≤ e.relations.size)
    (hc : c ∈ clausesOf (session requests p).1) : ∃ id, c = .analyze operators id c.expr := by
  obtain ⟨before, e, after, q, rfl, hrun⟩ := exists_distribute_of_mem hc
  have hsources : Sources p (session before p).2 :=
    sources_session (fun e he => h e (List.mem_append_left _ he)) p
  have hanalyze := PlanM.clause_of_distribute hrun
  rw [hsources.operators_eq, hp] at hanalyze
  refine ⟨(session before p).2.nextClause, ?_⟩
  rw [hanalyze, PlanM.expr_analyze]

end QueryPlanner
