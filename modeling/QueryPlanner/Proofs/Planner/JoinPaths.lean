/-
  QueryPlanner.Proofs.Planner.JoinPaths

  The join paths of a session fit their inputs.

  Paths collect at a relation over many requests: scans, and joins for one
  split of it after another.  As long as clients offer joins only to what
  they have joined, and expressions only to the relation that these read,
  every path that is there at any point of a session is one that fits.
-/

import QueryPlanner.Pattern.Regex.Engine
import QueryPlanner.Proofs.Planner.Session
import QueryPlanner.Proofs.Planner.Sound

namespace QueryPlanner

open Planner

variable {α : Type} {p : Planner α} {log : List (Event α)} {r : Request α}

/-! ## Regular requests -/

/-- A request behind a log that adds expressions to the relation they read,
and offers a join the paths from two inputs with what joining these has
returned.  Paths made by the client are not allowed. -/
def Request.Regular (log : List (Event α)) : Request α → Prop
  | .addTarget relid e => e.Over (.singleton relid)
  | .addJoins join outer inner restrictions _ =>
    .joined outer inner join restrictions ∈ log ∨ .joined inner outer join restrictions ∈ log
  | .offer _ _ => False
  | .baseRelation _ | .estimateSize _ | .distribute _ | .joinRelation _ _ | .addScans _
  | .requestOrder _ | .search => True

/-- What was joined can still be joined. -/
def JoinsHold (log : List (Event α)) (p : Planner α) : Prop :=
  ∀ outer inner join restrictions, .joined outer inner join restrictions ∈ log →
    Joinable p outer inner restrictions

theorem JoinsHold.nil : JoinsHold [] p := fun _ _ _ _ h => absurd h List.not_mem_nil

variable [Number α]

/-- Every request of a session is regular behind the log of those before
it. -/
def Regular (requests : List (Request α)) (p : Planner α) : Prop :=
  ∀ before r after, requests = before ++ r :: after → r.Regular (session before p).1

theorem Regular.of_append {before after : List (Request α)} (h : Regular (before ++ after) p) :
    Regular before p :=
  fun first r rest hfirst => h first r (rest ++ after) (by rw [hfirst, List.append_assoc]; rfl)

/-! ## One request -/

/-- A regular request is a step from a sound session to a sound one. -/
theorem Request.steps_run (hr : r.Regular log) (hlog : JoinsHold log p) :
    Steps p (r.run.final p) := by
  cases r with
  | baseRelation relid => exact PlanM.Moves.bind (PlanM.steps_baseRelation relid) (fun _ => .pure _) p
  | addTarget relid e => exact PlanM.Moves.bind (PlanM.steps_addTarget hr) (fun _ => .pure _) p
  | estimateSize relid =>
      exact PlanM.Moves.bind (PlanM.steps_estimateSize relid) (fun _ => .pure _) p
  | distribute e => exact PlanM.Moves.bind (PlanM.steps_distribute e) (fun _ => .pure _) p
  | joinRelation outer inner =>
      exact PlanM.Moves.bind (PlanM.steps_joinRelation outer inner) (fun _ => .pure _) p
  | addScans id => exact PlanM.Moves.bind (PlanM.steps_addScans id) (fun _ => .pure _) p
  | addJoins join outer inner restrictions type =>
      have hj : Joinable p outer inner restrictions := by
        rcases hr with hr | hr
        · exact hlog outer inner join restrictions hr
        · exact (hlog inner outer join restrictions hr).symm
      exact PlanM.Moves.rel_bind (PlanM.steps_addJoins join type hj) fun _ q _ => PlanM.Moves.pure _ q
  | offer id paths => exact hr.elim
  | requestOrder order =>
      refine PlanM.Moves.bind (.modify fun p => ?_) (fun _ => .pure _) p
      exact steps_of_relations_eq rfl
  | search => exact PlanM.Moves.bind JoinSearch.steps_search (fun _ => .pure _) p

theorem Request.joinable_of_run {q : Planner α} {outer inner join : Nat}
    {restrictions : List (Clause α)} (hp : p.Sound)
    (h : r.run p = .ok (.joined outer inner join restrictions) q) :
    Joinable q outer inner restrictions := by
  cases r with
  | joinRelation a b =>
      obtain ⟨⟨id, cs⟩, q', hjoin, h⟩ := PlanM.bind_eq_ok.mp h
      obtain ⟨h, rfl⟩ := PlanM.pure_eq_ok.mp h
      cases h
      exact PlanM.joinable_of_joinRelation hp hjoin
  | requestOrder order => exact nomatch h
  | offer id paths =>
      obtain ⟨_, _, _, h⟩ := PlanM.bind_eq_ok.mp h
      obtain ⟨_, _, _, h⟩ := PlanM.bind_eq_ok.mp h
      exact nomatch h
  | _ =>
      obtain ⟨_, _, _, h⟩ := PlanM.bind_eq_ok.mp h
      exact nomatch h

/-- What a regular request leaves, and the log behind it. -/
theorem Request.sound_serve (hp : p.Sound) (hlog : JoinsHold log p) (hr : r.Regular log) :
    (r.serve p).2.Sound ∧ JoinsHold (log ++ [(r.serve p).1]) (r.serve p).2 := by
  obtain ⟨hk, hq⟩ := steps_run hr hlog hp
  rw [← serve_snd] at hk hq
  refine ⟨hq, fun outer inner join restrictions hmem => ?_⟩
  rcases List.mem_append.mp hmem with hmem | hmem
  · exact (hlog outer inner join restrictions hmem).keeps hk
  · have hevent := (List.mem_singleton.mp hmem).symm
    rw [serve] at hevent ⊢
    cases hrun : r.run p with
    | error e q =>
        rw [hrun] at hevent
        cases hevent
    | ok event q =>
        rw [hrun] at hevent
        exact joinable_of_run hp (hrun.trans (by rw [show event = _ from hevent]))

/-! ## Sessions -/

theorem sound_start (settings : Settings α) (operators : OperatorCatalog α)
    (catalog : RelationSource α) (statistics : StatisticsProvider α)
    (rangeTable : List RangeTableEntry) :
    (Planner.start settings operators catalog statistics rangeTable).Sound where
  consistent := Outline.consistent_nil
  relations := nofun

/-- A regular session is sound at its end, and what it has joined can be
joined there. -/
theorem sound_session {requests : List (Request α)} (hp : p.Sound) (hr : Regular requests p) :
    (session requests p).2.Sound ∧ JoinsHold (session requests p).1 (session requests p).2 := by
  induction requests using List.reverseRecOn with
  | nil => exact ⟨hp, .nil⟩
  | append_singleton before r ih =>
      obtain ⟨hsound, hlog⟩ := ih hr.of_append
      rw [session_append]
      exact r.sound_serve hsound hlog (hr before r [] rfl)

/-- Whatever path a regular session has left at a relation, a merge or hash
join among them fits the inputs that it is made of. -/
theorem fits_of_session {settings : Settings α} {operators : OperatorCatalog α}
    {catalog : RelationSource α} {statistics : StatisticsProvider α}
    {rangeTable : List RangeTableEntry} {requests : List (Request α)} {log : List (Event α)}
    {p : Planner α}
    (hsession :
      session requests (.start settings operators catalog statistics rangeTable) = (log, p))
    (hregular : Regular requests (.start settings operators catalog statistics rangeTable)) :
    ∀ r ∈ p.relations, ∀ path ∈ r.paths, path.operator.Fits p := by
  obtain ⟨rfl, rfl⟩ := Prod.ext_iff.mp hsession.symm
  have hsound := (sound_session
    (sound_start settings operators catalog statistics rangeTable) hregular).1
  exact fun r hr => (hsound.relations r hr).fits

section Example

/-- Costs in exact arithmetic; the logarithm does not matter. -/
local instance exactNumbers : Number Rat := .rational id

/-- A session over two relations that are not stored. -/
def twoRelations : Planner Rat :=
  .start .standard (.builtin Regex.engine) Catalog.empty.source (StatisticsStore.provider ⟨[]⟩)
    [.subquery, .subquery]

/-- A join on the first columns of both relations. -/
def firstColumnsJoined : List (Request Rat) :=
  [.distribute (.op 1012 [.var ⟨1, 1, .int4, -1⟩, .var ⟨2, 1, .int4, -1⟩]), .search]

/-- The path is a merge. -/
def Path.isMerge (path : Path Rat) : Bool :=
  match path.operator with
  | .mergeJoin .. => true
  | _ => false

/-- The join is left with a merge of its inputs, and the merge fits them. -/
theorem fits_of_session_firstColumnsJoined :
    ∃ log p, session firstColumnsJoined twoRelations = (log, p) ∧
      Regular firstColumnsJoined twoRelations ∧ ∃ r ∈ p.relations, ∃ path ∈ r.paths,
        ∃ join clauses outerSort innerSort,
          path.operator = .mergeJoin join clauses outerSort innerSort ∧
          ∃ o i, join.Inputs p o i ∧ join.MergeFits o i clauses outerSort innerSort := by
  obtain ⟨⟨log, p⟩, hsession⟩ : ∃ x, session firstColumnsJoined twoRelations = x := ⟨_, rfl⟩
  have hp : p = (session firstColumnsJoined twoRelations).2 := by rw [hsession]
  have hregular : Regular firstColumnsJoined twoRelations := by
    intro before r after h
    have hmem : r ∈ firstColumnsJoined :=
      h ▸ List.mem_append_right before List.mem_cons_self
    rcases List.mem_cons.mp hmem with rfl | hmem
    · trivial
    · obtain rfl := List.mem_singleton.mp hmem
      trivial
  have hany : p.relations.any (fun r => r.paths.any Path.isMerge) = true := by
    rw [hp]
    decide +kernel
  obtain ⟨r, hr, hpaths⟩ := List.any_eq_true.mp hany
  obtain ⟨path, hpath, hmerge⟩ := List.any_eq_true.mp hpaths
  have hfits := fits_of_session hsession hregular r hr path hpath
  refine ⟨log, p, hsession, hregular, r, hr, path, hpath, ?_⟩
  rw [Path.isMerge] at hmerge
  split at hmerge
  · rename_i join clauses outerSort innerSort hoperator
    rw [hoperator] at hfits
    exact ⟨join, clauses, outerSort, innerSort, hoperator, hfits⟩
  · exact nomatch hmerge

end Example

end QueryPlanner
