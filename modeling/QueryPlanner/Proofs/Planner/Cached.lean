/-
  QueryPlanner.Proofs.Planner.Cached

  Sessions that borrow their statistics through a cache.

  A session needs no more of its statistics than answers to single requests.
  Over a cache these are the answers of one provider, whatever the cache was
  used for before and however often the provider behind it changes.  So every
  statement about sessions over a provider is one about sessions over a cache.
-/

import QueryPlanner.Proofs.Planner.Session
import QueryPlanner.Proofs.Statistics.Estimates

namespace QueryPlanner

open Planner Borrowing

variable {α β γ : Type}

/-! ## Programs -/

/-- What a program came to, with the statistics of its session in place. -/
def PlanM.settle (s : StatisticsProvider α) :
    EStateM.Result (PlanError α) (Planner α) β → EStateM.Result (PlanError α) (Planner α) β
  | .ok b q => .ok b (q.given s)
  | .error e q => .error e (q.given s)

/-- What comes behind a program that was successful. -/
def PlanM.andThen (next : β → Planner α → StatisticsProvider α →
      EStateM.Result (PlanError α) (Planner α) γ)
    (out : EStateM.Result (PlanError α) (Planner α) β) (s : StatisticsProvider α) :
    EStateM.Result (PlanError α) (Planner α) γ :=
  match out with
  | .ok b q => next b q s
  | .error e q => .error e q

/-- A program that finds by asking what it comes to in a session.  Part of it
may have looked at the statistics already. -/
def PlanM.Asks (m : StatisticsProvider α → PlanM α β) (p : Planner α) : Prop :=
  ∃ g, Consults g ∧ ∀ s, m s (p.given s) = settle s (g s)

namespace PlanM.Asks

variable {p : Planner α}

/-- A program that treats all statistics alike asks for none. -/
theorem of_same {m : StatisticsProvider α → PlanM α β}
    (out : EStateM.Result (PlanError α) (Planner α) β) (h : ∀ s, m s (p.given s) = settle s out) :
    Asks m p :=
  ⟨fun _ => out, .const out, h⟩

protected theorem pure (b : β) : Asks (fun _ => (pure b : PlanM α β)) p :=
  of_same (.ok b p) fun _ => rfl

protected theorem throw (e : PlanError α) : Asks (fun _ => (throw e : PlanM α β)) p :=
  of_same (.error e p) fun _ => rfl

/-- Nothing is asked behind a failure. -/
theorem throw_bind (e : PlanError α) {f : StatisticsProvider α → β → PlanM α γ} :
    Asks (fun s => (throw e : PlanM α β) >>= f s) p :=
  of_same (.error e p) fun _ => rfl

/-- What a step does to relations or clauses does not depend on statistics. -/
theorem modify {f : Planner α → Planner α} (h : ∀ s, f (p.given s) = (f p).given s) :
    Asks (fun _ => (modify f : PlanM α PUnit)) p :=
  of_same (.ok ⟨⟩ (f p)) fun s => congrArg (EStateM.Result.ok PUnit.unit) (h s)

theorem ofExcept {x : StatisticsProvider α → Except (PlanError α) β} (hx : Consults x) :
    Asks (fun s => ofExcept (x s)) p := by
  refine ⟨fun s => PlanM.ofExcept (x s) p, hx.map fun y => PlanM.ofExcept y p, fun s => ?_⟩
  show PlanM.ofExcept (x s) (p.given s) = settle s (PlanM.ofExcept (x s) p)
  cases x s with
  | ok b => rfl
  | error e => rfl

theorem bind {x : StatisticsProvider α → PlanM α β} {f : StatisticsProvider α → β → PlanM α γ}
    (hx : Asks x p) (hf : ∀ b q, Asks (fun s => f s b) q) : Asks (fun s => x s >>= f s) p := by
  obtain ⟨g, hg, hrun⟩ := hx
  choose next hnext hrest using hf
  refine ⟨fun s => andThen next (g s) s, hg.bind fun out => ?_, fun s => ?_⟩
  · cases out with
    | ok b q => exact hnext b q
    | error e q => exact .const (EStateM.Result.error e q)
  · show EStateM.bind (x s) (f s) (p.given s) = settle s (andThen next (g s) s)
    rw [EStateM.bind, hrun]
    cases g s with
    | ok b q => exact hrest b q s
    | error e q => rfl

/-- The session is at hand behind `get`, its statistics with it. -/
theorem get_bind {f : StatisticsProvider α → Planner α → PlanM α β}
    (h : Asks (fun s => f s (p.given s)) p) : Asks (fun s => get >>= f s) p := h

theorem foldlM {f : β → γ → PlanM α β} (hf : ∀ b c p, Asks (fun _ => f b c) p) (l : List γ)
    (b : β) : Asks (fun _ => l.foldlM f b) p := by
  induction l generalizing b p with
  | nil => exact .pure b
  | cons c rest ih =>
      simp only [List.foldlM_cons]
      exact (hf b c p).bind fun b' q => ih b'

theorem forM {f : γ → PlanM α PUnit} (hf : ∀ c p, Asks (fun _ => f c) p) (l : List γ) :
    Asks (fun _ => l.forM f) p := by
  induction l generalizing p with
  | nil => exact .pure _
  | cons c rest ih => exact (hf c p).bind fun _ q => ih

end PlanM.Asks

/-! ## Builders -/

namespace PlanM

variable [Number α]

theorem asks_baseRelation (relid : RtIndex) (p : Planner α) :
    Asks (fun _ => (baseRelation relid : PlanM α Nat)) p := by
  simp only [baseRelation]
  refine .get_bind ?_
  have hids (s : StatisticsProvider α) : (p.given s).baseIds = p.baseIds := rfl
  have hentry (s : StatisticsProvider α) :
      Relation.ofEntry (p.given s) relid = Relation.ofEntry p relid := rfl
  simp only [hids, hentry]
  split
  · exact .pure _
  · refine (Asks.ofExcept (.const _)).bind fun r q => ?_
    exact (Asks.modify fun s => rfl).bind fun _ q => .pure _

theorem asks_addTarget (relid : RtIndex) (e : Expr α) (p : Planner α) :
    Asks (fun _ => addTarget relid e) p := by
  simp only [addTarget]
  exact (asks_baseRelation relid p).bind fun id q => .modify fun s => rfl

omit [Number α] in
theorem asks_newClause (e : Expr α) (p : Planner α) :
    Asks (fun _ => (newClause e : PlanM α (Clause α))) p :=
  .of_same (.ok (Clause.analyze p.operators p.nextClause e)
    { p with nextClause := p.nextClause + 1 }) fun _ => rfl

theorem asks_distribute (e : Expr α) (p : Planner α) : Asks (fun _ => distribute e) p := by
  simp only [distribute]
  refine (asks_newClause e p).bind fun c q => ?_
  -- A constant condition is put aside, one on a single relation kept there, and one on
  -- several filed with each of them together with the columns it needs.
  split
  · exact (Asks.modify fun _ => rfl).bind fun _ q => .pure c
  · refine (asks_baseRelation _ q).bind fun id q => ?_
    exact (Asks.modify fun _ => rfl).bind fun _ q => .pure c
  · refine (Asks.forM (fun relid p => ?_) _).bind fun _ q => ?_
    · simp only [awaitOthers]
      exact (asks_baseRelation relid p).bind fun id q => .modify fun _ => rfl
    · exact (Asks.forM (fun v p => asks_addTarget v.relation (.var v) p) _).bind fun _ q => .pure c

theorem asks_estimateSize (relid : RtIndex) (p : Planner α) :
    Asks (fun _ => (estimateSize relid : PlanM α Unit)) p := by
  simp only [estimateSize]
  refine .get_bind ?_
  refine (Asks.ofExcept (.of_same fun _ _ => rfl)).bind fun r q => ?_
  refine (Asks.ofExcept (Selectivity.consults_clauseList _ _ _)).bind fun fraction q => ?_
  refine (Asks.ofExcept (consults_rowWidth r)).bind fun width q => ?_
  exact .modify fun _ => rfl

theorem asks_joinRelation (outer inner : Nat) (p : Planner α) :
    Asks (fun _ => (joinRelation outer inner : PlanM α (Nat × List (Clause α)))) p := by
  simp only [joinRelation]
  refine .get_bind ?_
  refine (Asks.ofExcept (.of_same fun _ _ => rfl)).bind fun o q => ?_
  refine (Asks.ofExcept (.of_same fun _ _ => rfl)).bind fun i q => ?_
  have hfound (s : StatisticsProvider α) (relids : RelSet) :
      (p.given s).joinRelation? relids = p.joinRelation? relids := rfl
  have hcount (s : StatisticsProvider α) : (p.given s).relations = p.relations := rfl
  simp only [hfound, hcount]
  -- Only a join that is not there yet is estimated.
  split
  · exact .throw_bind _
  · split
    · exact .pure _
    · refine (Asks.ofExcept (Selectivity.consults_clauseList _ _ _)).bind fun fraction q => ?_
      refine (Asks.ofExcept (.const _)).bind fun width q => ?_
      exact (Asks.modify fun _ => rfl).bind fun _ q => .pure _

theorem asks_addScans (id : Nat) (p : Planner α) :
    Asks (fun _ => (addScans id : PlanM α Unit)) p := by
  simp only [addScans]
  refine .get_bind ?_
  refine (Asks.ofExcept (.of_same fun _ _ => rfl)).bind fun r q => ?_
  refine (Asks.ofExcept (Path.consults_scans r)).bind fun paths q => ?_
  exact .modify fun _ => rfl

theorem asks_addJoins (join outer inner : Nat) (restrictions : List (Clause α)) (type : JoinType)
    (p : Planner α) :
    Asks (fun _ => (addJoins join outer inner restrictions type : PlanM α Unit)) p := by
  simp only [addJoins]
  refine .get_bind ?_
  refine (Asks.ofExcept (.of_same fun _ _ => rfl)).bind fun r q => ?_
  refine (Asks.ofExcept (.of_same fun _ _ => rfl)).bind fun o q => ?_
  refine (Asks.ofExcept (.of_same fun _ _ => rfl)).bind fun i q => ?_
  refine (Asks.ofExcept (Pairing.consults_paths _)).bind fun paths q => ?_
  exact .modify fun _ => rfl

end PlanM

/-! ## The search -/

namespace JoinSearch

open PlanM

theorem asks_relids (id : Nat) (p : Planner α) :
    Asks (fun _ => (relids id : PlanM α RelSet)) p := by
  simp only [relids]
  refine .get_bind ?_
  exact (Asks.ofExcept (.of_same fun _ _ => rfl)).bind fun r q => .pure _

variable [Number α]

theorem asks_joinPair (a b : Nat) (level : List Nat) (p : Planner α) :
    Asks (fun _ => (joinPair a b level : PlanM α (List Nat))) p := by
  simp only [joinPair]
  refine (asks_joinRelation a b p).bind fun forward q => ?_
  refine (asks_addJoins _ _ _ _ _ q).bind fun _ q => ?_
  refine (asks_joinRelation b a q).bind fun backward q => ?_
  exact (asks_addJoins _ _ _ _ _ q).bind fun _ q => .pure _

theorem asks_joinAll (wanted : RelSet → RelSet → Bool) (previous bases level : List Nat)
    (p : Planner α) :
    Asks (fun _ => (joinAll wanted previous bases level : PlanM α (List Nat))) p := by
  refine .foldlM (fun level outer p => ?_) previous level
  refine .foldlM (fun level inner p => ?_) bases level
  refine (asks_relids outer p).bind fun o q => ?_
  refine (asks_relids inner q).bind fun i q => ?_
  split
  · exact .pure level
  · exact asks_joinPair outer inner level q

theorem asks_climb (g : JoinGraph) (bases : List Nat) (steps : Nat) (level : List Nat)
    (p : Planner α) : Asks (fun _ => (climb g bases steps level : PlanM α (List Nat))) p := by
  induction steps generalizing level p with
  | zero => exact .pure level
  | succ steps ih =>
      have hnext : Asks (fun _ => (nextLevel g bases level : PlanM α (List Nat))) p := by
        simp only [nextLevel]
        refine (asks_joinAll _ _ _ _ p).bind fun linked q => ?_
        split
        · exact asks_joinAll _ _ _ _ q
        · exact .pure linked
      simp only [climb]
      refine hnext.bind fun next q => ?_
      split
      · exact .throw_bind _
      · exact ih next q

theorem asks_start (p : Planner α) : Asks (fun _ => (start : PlanM α (List Nat))) p := by
  simp only [start]
  refine .get_bind ?_
  have hbases (s : StatisticsProvider α) : (p.given s).baseRelations = p.baseRelations := rfl
  simp only [hbases]
  split
  · exact .throw_bind _
  · exact (Asks.forM (fun id p => asks_addScans id p) _).bind fun _ q => .pure _

theorem asks_search (p : Planner α) : Asks (fun _ => (search : PlanM α Nat)) p := by
  simp only [search]
  refine (asks_start p).bind fun bases q => .get_bind ?_
  have hgraph (s : StatisticsProvider α) : graph (q.given s) = graph q := rfl
  simp only [hgraph]
  refine (asks_climb _ _ _ _ q).bind fun level q => ?_
  split
  · exact .pure _
  · exact .throw _

end JoinSearch

/-! ## Sessions -/

variable [Number α]

open PlanM in
/-- A request finds by asking what comes of it. -/
theorem Request.asks_run (r : Request α) (p : Planner α) : Asks (fun _ => r.run) p := by
  cases r with
  | baseRelation relid => exact (asks_baseRelation relid p).bind fun _ _ => .pure _
  | addTarget relid e => exact (asks_addTarget relid e p).bind fun _ _ => .pure _
  | estimateSize relid => exact (asks_estimateSize relid p).bind fun _ _ => .pure _
  | distribute e => exact (asks_distribute e p).bind fun _ _ => .pure _
  | joinRelation outer inner => exact (asks_joinRelation outer inner p).bind fun _ _ => .pure _
  | addScans id => exact (asks_addScans id p).bind fun _ _ => .pure _
  | addJoins join outer inner restrictions type =>
      exact (asks_addJoins join outer inner restrictions type p).bind fun _ _ => .pure _
  | offer id paths =>
      refine .get_bind ?_
      refine (Asks.ofExcept (.of_same fun _ _ => rfl)).bind fun r q => ?_
      exact (Asks.modify fun _ => rfl).bind fun _ _ => .pure _
  | requestOrder order => exact (Asks.modify fun _ => rfl).bind fun _ _ => .pure _
  | search => exact (JoinSearch.asks_search p).bind fun _ _ => .pure _

theorem Request.consults_serve (r : Request α) (p : Planner α) :
    ∃ g : StatisticsProvider α → Event α × Planner α, Consults g ∧
      ∀ s, r.serve (p.given s) = ((g s).1, (g s).2.given s) := by
  have houtcome (out : EStateM.Result (PlanError α) (Planner α) (Event α)) :
      ∃ answer : Event α × Planner α, ∀ s, r.run (p.given s) = PlanM.settle s out →
        r.serve (p.given s) = (answer.1, answer.2.given s) := by
    cases out with
    | ok event q => exact ⟨(event, q), fun s hs => by rw [serve, hs]; rfl⟩
    | error e q => exact ⟨(.refused r e, q), fun s hs => by rw [serve, hs]; rfl⟩
  choose answer hanswer using houtcome
  obtain ⟨g, hg, hrun⟩ := r.asks_run p
  exact ⟨fun s => answer (g s), hg.map answer, fun s => hanswer (g s) s (hrun s)⟩

/-- A computation that comes to what a session comes to, its log and the state
at its end, whatever provider answers. -/
def Inquiry.Serves (r : Inquiry α (List (Event α) × Planner α)) (requests : List (Request α))
    (p : Planner α) : Prop :=
  ∀ s, session requests (p.given s) = ((r.outcome s).1, (r.outcome s).2.given s)

/-- Every session is such a computation. -/
theorem exists_serves (requests : List (Request α)) (p : Planner α) :
    ∃ r : Inquiry α (List (Event α) × Planner α), r.Serves requests p := by
  induction requests generalizing p with
  | nil => exact ⟨.done ([], p), fun _ => rfl⟩
  | cons request rest ih =>
      obtain ⟨g, ⟨first, hfirst⟩, hserve⟩ := request.consults_serve p
      choose next hnext using ih
      -- The rest of the session goes on from the state that the answers led to.
      refine ⟨first.bind fun served => (next served.2).bind fun ended =>
        .done (served.1 :: ended.1, ended.2), fun s => ?_⟩
      simp only [session, hserve, Inquiry.outcome_bind, Inquiry.outcome, hfirst, hnext (g s).2 s]

/-- **A session over a cache is one over a fixed provider.**  However a session
asks for its statistics, over a cache it comes to what it comes to over the
view of the history at its end. -/
theorem session_through_cache {r : Inquiry α (List (Event α) × Planner α)}
    {requests : List (Request α)} {p : Planner α} (h : r.Serves requests p)
    (now : List (Use α) → StatisticsProvider α) (uses : List (Use α))
    (rest : StatisticsProvider α) :
    let s := view (r.through now uses).2 rest
    session requests (p.given s) =
      ((r.through now uses).1.1, (r.through now uses).1.2.given s) := by
  intro s
  rw [h s, r.through_eq_outcome_view now uses rest]

/-- Over stored statistics a session does not notice the cache. -/
theorem session_through_store {r : Inquiry α (List (Event α) × Planner α)}
    {requests : List (Request α)} {p : Planner α} (h : r.Serves requests p)
    (store : StatisticsStore α) {uses : List (Use α)} (hsteady : Steady store.provider uses) :
    session requests (p.given store.provider) =
      ((r.through (fun _ => store.provider) uses).1.1,
        (r.through (fun _ => store.provider) uses).1.2.given store.provider) := by
  rw [h store.provider, r.through_eq_outcome (fun _ _ => rfl) hsteady]

end QueryPlanner
