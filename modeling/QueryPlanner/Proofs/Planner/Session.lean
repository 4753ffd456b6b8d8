/-
  QueryPlanner.Proofs.Planner.Session

  Sessions as their clients see them: requests, and what came of each.

  A request that fails is part of the session, and the session goes on from
  the state it has left.  The log of a session has the clauses distributed and
  the joins made; it is what statements about whole sessions refer to.
-/

import QueryPlanner.Proofs.JoinSearch
import QueryPlanner.Proofs.Planner.Distribution

namespace QueryPlanner

open Planner

/-- What a planner can be asked for. -/
inductive Request (α : Type) where
  | baseRelation (relid : RtIndex)
  | addTarget (relid : RtIndex) (e : Expr α)
  | estimateSize (relid : RtIndex)
  | distribute (e : Expr α)
  | joinRelation (outer inner : Nat)
  | addScans (id : Nat)
  | addJoins (join outer inner : Nat) (restrictions : List (Clause α)) (type : JoinType)
  | offer (id : Nat) (paths : List (Path α))
  | requestOrder (order : Pathkeys α)
  | search

/-- What came of a request: the number of a relation, a clause, a join with
the clauses applied at it, or a failure. -/
inductive Event (α : Type) where
  | done
  | found (id : Nat)
  | distributed (c : Clause α)
  | joined (outer inner id : Nat) (restrictions : List (Clause α))
  | refused (r : Request α) (e : PlanError α)

variable {α : Type}

/-- A request has failed. -/
def Event.isRefused : Event α → Bool
  | .refused .. => true
  | _ => false

theorem not_mem_of_isRefused {log : List (Event α)} {r : Request α} {e : PlanError α}
    (h : log.any Event.isRefused = false) : .refused r e ∉ log :=
  fun hmem => List.any_eq_false.mp h _ hmem rfl

/-- The clause that a request has distributed. -/
def Event.clause? : Event α → Option (Clause α)
  | .distributed c => some c
  | _ => none

/-- The clauses distributed, in their order. -/
def clausesOf (log : List (Event α)) : List (Clause α) := log.filterMap Event.clause?

theorem clausesOf_cons (event : Event α) (log : List (Event α)) :
    clausesOf (event :: log) = event.clause?.toList ++ clausesOf log := by
  rw [clausesOf, List.filterMap_cons]
  cases event.clause? with
  | none => rfl
  | some c => rfl

section Serving

variable [Number α]

/-- The program behind a request. -/
def Request.run : Request α → PlanM α (Event α)
  | .baseRelation relid => return .found (← PlanM.baseRelation relid)
  | .addTarget relid e => do
    PlanM.addTarget relid e
    return .done
  | .estimateSize relid => do
    PlanM.estimateSize relid
    return .done
  | .distribute e => return .distributed (← PlanM.distribute e)
  | .joinRelation outer inner => do
    let (id, restrictions) ← PlanM.joinRelation outer inner
    return .joined outer inner id restrictions
  | .addScans id => do
    PlanM.addScans id
    return .done
  | .addJoins join outer inner restrictions type => do
    PlanM.addJoins join outer inner restrictions type
    return .done
  | .offer id paths => do
    let r ← PlanM.ofExcept ((← get).relation id)
    modify (modifyRelation r.id (.offer paths))
    return .done
  | .requestOrder order => do
    modify fun p => { p with queryPathkeys := order }
    return .done
  | .search => return .found (← JoinSearch.search)

/-- A request and the state behind it. -/
def Request.serve (r : Request α) (p : Planner α) : Event α × Planner α :=
  match r.run p with
  | .ok event q => (event, q)
  | .error e q => (.refused r e, q)

/-- The log of a session and the state at its end. -/
def session : List (Request α) → Planner α → List (Event α) × Planner α
  | [], p => ([], p)
  | r :: rest, p =>
    let (event, q) := r.serve p
    let (log, end') := session rest q
    (event :: log, end')

/-- A session goes on from where it was. -/
theorem session_append (before after : List (Request α)) (p : Planner α) :
    session (before ++ after) p =
      ((session before p).1 ++ (session after (session before p).2).1,
        (session after (session before p).2).2) := by
  induction before generalizing p with
  | nil => rfl
  | cons r rest ih =>
      have hrest := ih (r.serve p).2
      show ((r.serve p).1 :: (session (rest ++ after) (r.serve p).2).1,
        (session (rest ++ after) (r.serve p).2).2) = _
      rw [hrest]
      rfl

/-! ## Requests and preorders -/

/-- A request goes wherever the builders do. -/
theorem Request.run_moves {R : Planner α → Planner α → Prop} [IsPreorder (Planner α) R]
    (r : Request α)
    (hbase : ∀ relid, (PlanM.baseRelation relid : PlanM α Nat).Moves R)
    (htarget : ∀ relid e, (PlanM.addTarget relid e : PlanM α Unit).Moves R)
    (hsize : ∀ relid, (PlanM.estimateSize relid : PlanM α Unit).Moves R)
    (hdistribute : ∀ e, r = .distribute e → (PlanM.distribute e : PlanM α (Clause α)).Moves R)
    (hjoin : ∀ outer inner,
      (PlanM.joinRelation outer inner : PlanM α (Nat × List (Clause α))).Moves R)
    (hscans : ∀ id, (PlanM.addScans id : PlanM α Unit).Moves R)
    (hjoins : ∀ join outer inner restrictions type,
      (PlanM.addJoins join outer inner restrictions type : PlanM α Unit).Moves R)
    (hoffer : ∀ id paths, r = .offer id paths →
      ∀ k p, R p (modifyRelation k (.offer paths) p))
    (horder : ∀ order p, R p { p with queryPathkeys := order }) : r.run.Moves R := by
  cases r with
  | baseRelation relid => exact .bind (hbase relid) fun _ => .pure _
  | addTarget relid e => exact .bind (htarget relid e) fun _ => .pure _
  | estimateSize relid => exact .bind (hsize relid) fun _ => .pure _
  | distribute e => exact .bind (hdistribute e rfl) fun _ => .pure _
  | joinRelation outer inner => exact .bind (hjoin outer inner) fun _ => .pure _
  | addScans id => exact .bind (hscans id) fun _ => .pure _
  | addJoins join outer inner restrictions type =>
      exact .bind (hjoins join outer inner restrictions type) fun _ => .pure _
  | offer id paths =>
      exact .bind .get fun _ => .bind (.ofExcept _) fun r =>
        .bind (.modify (hoffer id paths rfl r.id)) fun _ => .pure _
  | requestOrder order => exact .bind (.modify (horder order)) fun _ => .pure _
  | search =>
      exact .bind (JoinSearch.search_moves hscans (JoinSearch.joinPair_moves hjoin hjoins))
        fun _ => .pure _

/-- Only the distribution of a clause changes relations that are built. -/
theorem Request.moves_run {r : Request α} (hr : ∀ e, r ≠ .distribute e) :
    r.run.Moves Extends :=
  r.run_moves PlanM.moves_baseRelation PlanM.moves_addTarget
    (fun relid => (PlanM.moves_estimateSize relid).mono fun _ _ => SameOutlines.extends)
    (fun e he => absurd he (hr e)) PlanM.moves_joinRelation
    (fun id => (PlanM.moves_addScans id).mono fun _ _ => SameOutlines.extends)
    (fun join outer inner restrictions type =>
      (PlanM.moves_addJoins join outer inner restrictions type).mono
        fun _ _ => SameOutlines.extends)
    (fun _ paths _ id p => (PlanM.sameOutlines_offer id paths p).extends) (fun _ _ => ⟨.refl, rfl⟩)

/-! ## Clauses of a session -/

variable {p : Planner α} {all : List (Clause α)}

theorem Request.serve_snd (r : Request α) (p : Planner α) : (r.serve p).2 = r.run.final p := by
  rw [serve, PlanM.final]
  cases r.run p with
  | ok event q => rfl
  | error e q => rfl

/-- A clause in the log has been distributed. -/
theorem Request.run_of_clause? {r : Request α} {c : Clause α}
    (h : (r.serve p).1.clause? = some c) : r.run p = .ok (.distributed c) (r.serve p).2 := by
  rw [serve] at h ⊢
  cases hrun : r.run p with
  | error e q =>
      rw [hrun] at h
      exact nomatch h
  | ok event q =>
      rw [hrun] at h
      cases event with
      | distributed d =>
          cases h
          rfl
      | _ => exact nomatch h

theorem Request.distribute_of_run {r : Request α} {c : Clause α}
    {q : Planner α} (h : r.run p = .ok (.distributed c) q) :
    ∃ e, r = .distribute e ∧ PlanM.distribute e p = .ok c q := by
  cases r with
  | distribute e =>
      obtain ⟨d, q', hd, h⟩ := PlanM.bind_eq_ok.mp h
      obtain ⟨h, rfl⟩ := PlanM.pure_eq_ok.mp h
      cases h
      exact ⟨e, rfl, hd⟩
  | requestOrder order => exact nomatch h
  | offer id paths =>
      obtain ⟨_, _, _, h⟩ := PlanM.bind_eq_ok.mp h
      obtain ⟨_, _, _, h⟩ := PlanM.bind_eq_ok.mp h
      exact nomatch h
  | _ =>
      obtain ⟨_, _, _, h⟩ := PlanM.bind_eq_ok.mp h
      exact nomatch h

theorem Request.extends_serve {r : Request α} (hr : ∀ e, r ≠ .distribute e) (p : Planner α) :
    Extends p (r.serve p).2 := by
  rw [serve_snd]
  exact moves_run hr p

theorem Request.clause?_of_run {r : Request α} {q : Planner α} {event : Event α}
    (hr : ∀ e, r ≠ .distribute e) (h : r.run p = .ok event q) : event.clause? = none := by
  cases r with
  | distribute e => exact absurd rfl (hr e)
  | requestOrder order =>
      cases h
      rfl
  | offer id paths =>
      obtain ⟨_, _, _, h⟩ := PlanM.bind_eq_ok.mp h
      obtain ⟨_, _, _, h⟩ := PlanM.bind_eq_ok.mp h
      cases h
      rfl
  | _ =>
      obtain ⟨_, _, _, h⟩ := PlanM.bind_eq_ok.mp h
      cases h
      rfl

/-- A distribution leaves its clause in the log, or its failure. -/
theorem Request.serve_distribute (e : Expr α) (p : Planner α) :
    (∃ c q, PlanM.distribute e p = .ok c q ∧ serve (.distribute e) p = (.distributed c, q)) ∨
      ∃ err q, serve (.distribute e) p = (.refused (.distribute e) err, q) := by
  cases h : PlanM.distribute e p with
  | ok c q =>
      have hrun : run (.distribute e) p = .ok (.distributed c) q :=
        PlanM.bind_eq_ok.mpr ⟨c, q, h, rfl⟩
      exact .inl ⟨c, q, rfl, by rw [serve, hrun]⟩
  | error err q =>
      have hrun : run (.distribute e) p = .error err q := PlanM.bind_of_error h
      exact .inr ⟨err, q, by rw [serve, hrun]⟩

/-- A request that is not a failed distribution leaves the clauses where they
belong. -/
theorem Request.hasClauses_serve {r : Request α} (hp : HasClauses all p)
    (hok : ∀ e err, (r.serve p).1 ≠ .refused (.distribute e) err) :
    HasClauses (all ++ (r.serve p).1.clause?.toList) (r.serve p).2 := by
  by_cases hr : ∀ e, r ≠ .distribute e
  · have hnone : (r.serve p).1.clause? = none := by
      rw [serve]
      cases h : r.run p with
      | ok event q => exact clause?_of_run hr h
      | error e q => rfl
    rw [hnone, Option.toList_none, List.append_nil]
    exact hp.of_extends (extends_serve hr p)
  · obtain ⟨e, rfl⟩ : ∃ e, r = .distribute e := by
      simpa only [not_forall, not_not] using hr
    rcases serve_distribute e p with ⟨c, q, h, hserve⟩ | ⟨err, q, hserve⟩
    · rw [hserve]
      exact PlanM.hasClauses_of_distribute hp h
    · exact absurd (congrArg Prod.fst hserve) (hok e err)

/-- At every point of a session whose distributions succeed the clauses are
where they belong. -/
theorem hasClauses_session {requests : List (Request α)} (hp : HasClauses all p)
    (hok : ∀ e err, .refused (.distribute e) err ∉ (session requests p).1) :
    HasClauses (all ++ clausesOf (session requests p).1) (session requests p).2 := by
  induction requests generalizing all p with
  | nil =>
      rw [session, clausesOf, List.filterMap_nil, List.append_nil]
      exact hp
  | cons r rest ih =>
      have hserve := r.hasClauses_serve hp fun e err h => hok e err (h ▸ List.mem_cons_self)
      have hrest := ih hserve fun e err h => hok e err (List.mem_cons_of_mem _ h)
      rw [List.append_assoc, ← clausesOf_cons] at hrest
      exact hrest

/-- A clause in the log came with a distribution. -/
theorem exists_distribute_of_mem {requests : List (Request α)} {c : Clause α}
    (hc : c ∈ clausesOf (session requests p).1) :
    ∃ before e after q, requests = before ++ .distribute e :: after ∧
      PlanM.distribute e (session before p).2 = .ok c q := by
  induction requests generalizing p with
  | nil => exact nomatch hc
  | cons r rest ih =>
      have hc' : c ∈ clausesOf ((r.serve p).1 :: (session rest (r.serve p).2).1) := hc
      rw [clausesOf_cons, List.mem_append, Option.mem_toList] at hc'
      rcases hc' with hc | hc
      · obtain ⟨e, rfl, hrun⟩ := Request.distribute_of_run (Request.run_of_clause? hc)
        exact ⟨[], e, rest, _, rfl, hrun⟩
      · obtain ⟨before, e, after, q, rfl, hrun⟩ := ih hc
        exact ⟨r :: before, e, after, q, rfl, hrun⟩

/-- Every distribution that does not fail leaves its clause in the log. -/
theorem exists_clause_session {requests : List (Request α)} {e : Expr α}
    (hok : ∀ e err, .refused (.distribute e) err ∉ (session requests p).1)
    (he : .distribute e ∈ requests) : ∃ c ∈ clausesOf (session requests p).1, c.expr = e := by
  induction requests generalizing p with
  | nil => exact absurd he List.not_mem_nil
  | cons r rest ih =>
      show ∃ c ∈ clausesOf ((r.serve p).1 :: (session rest (r.serve p).2).1), c.expr = e
      rw [clausesOf_cons]
      rcases List.mem_cons.mp he with rfl | he
      · rcases Request.serve_distribute e p with ⟨c, q, h, hserve⟩ | ⟨err, q, hserve⟩
        · rw [hserve]
          refine ⟨c, List.mem_cons_self, ?_⟩
          rw [PlanM.clause_of_distribute h, PlanM.expr_analyze]
        · exact absurd (List.mem_cons.mpr (.inl (congrArg Prod.fst hserve).symm)) (hok e err)
      · obtain ⟨c, hc, hce⟩ := ih (fun e err h => hok e err (List.mem_cons_of_mem _ h)) he
        exact ⟨c, List.mem_append_right _ hc, hce⟩

/-- A session without distributions leaves the relations as they are. -/
theorem extends_session {requests : List (Request α)} (hr : ∀ e, .distribute e ∉ requests)
    (p : Planner α) : Extends p (session requests p).2 := by
  induction requests generalizing p with
  | nil => exact refl_of Extends p
  | cons r rest ih =>
      have hserve := r.extends_serve (fun e he => hr e (he ▸ List.mem_cons_self)) p
      exact trans_of Extends hserve (ih (fun e he => hr e (List.mem_cons_of_mem r he)) _)

end Serving

/-! ## Sessions over subqueries -/

/-- A session over three relations that are not stored. -/
def threeRelations : Planner Float :=
  .start .standard .empty Catalog.empty.source (StatisticsStore.provider ⟨[]⟩)
    [.subquery, .subquery, .subquery]

/-- A condition that reads some relations. -/
def conditionOn (relids : List RtIndex) : Expr Float :=
  .func 1 .bool (relids.map fun r => .var ⟨r, 1, .int4, -1⟩) false

end QueryPlanner
