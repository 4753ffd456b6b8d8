/-
  QueryPlanner.Proofs.Planner.Changes

  What requests do to a session, one change after the other.

  A `Change` builds a relation, revises one or gives away a clause identity,
  and knows of no other effect.  Every request is some changes in a row,
  whether it succeeds or not, so an invariant of a session is one case for
  each kind of change.  A base relation is built only if the request asks for
  it.
-/

import Mathlib.Logic.Relation
import QueryPlanner.Proofs.Planner.Keeps
import QueryPlanner.Proofs.Planner.Session

namespace QueryPlanner

open Outline Planner

variable {α : Type} [Number α] {p q : Planner α} {asked asked' : List RtIndex} {relid : RtIndex}
  {f : Relation.Edit α}

/-! ## Changes of a relation -/

namespace Relation.Edit

/-- Only the join info of an outline changes. -/
theorem exists_outline (f : Relation.Edit α) :
    ∃ g : Outline α → Outline α, (∀ r, (f r).outline = g r.outline) ∧
      ∀ o, (g o).id = o.id ∧ (g o).kind = o.kind ∧ (g o).relids = o.relids := by
  cases f with
  | filing c others =>
      exact ⟨fun o => { o with joinInfo := JoinInfo.update others (· ++ [c]) o.joinInfo },
        fun _ => rfl, fun _ => ⟨rfl, rfl, rfl⟩⟩
  | target | size | restriction | offer =>
      exact ⟨fun o => o, fun _ => rfl, fun _ => ⟨rfl, rfl, rfl⟩⟩

/-- The output only gets columns of its own. -/
theorem target_cases (f : Relation.Edit α) (r : Relation α) :
    (f r).target = r.target ∨ ∃ e, (f r).target = r.target.add e := by
  cases f with
  | target e => exact .inr ⟨e, rfl⟩
  | size | restriction | filing | offer => exact .inl rfl

/-- A width that is given to a relation is that of a row. -/
def Estimated (p : Planner α) : Relation.Edit α → Prop
  | .size _ width => ∃ r, p.rowWidth r = .ok width
  | _ => True

end Relation.Edit

/-! ## Changes of a session -/

/-- One change of a session by a request that asks for some base relations. -/
inductive Planner.Change (asked : List RtIndex) : Planner α → Planner α → Prop where
  | base {p : Planner α} {relid : RtIndex} {r : Relation α} (hasked : relid ∈ asked)
      (hnew : ¬ Built p.outlines relid) (hr : Relation.ofEntry p relid = .ok r) :
      Change asked p (p.addRelation r)
  | join {p : Planner α} {outer inner : Nat} {o i : Relation α} (fraction : α) (width : Int32)
      (ho : p.relation outer = .ok o) (hi : p.relation inner = .ok i)
      (hd : o.relids.overlaps i.relids = false)
      (hnew : ∀ o' ∈ p.outlines, o'.kind = .join → o'.relids ≠ o.relids.union i.relids)
      (hwidth : o.pairWidth i = .ok width) :
      Change asked p (p.addRelation (Relation.ofJoin p.relations.length o i fraction width))
  | revise (p : Planner α) (id : Nat) {f : Relation.Edit α} (hf : f.Estimated p) :
      Change asked p (modifyRelation id f p)
  | identity (p : Planner α) : Change asked p { p with nextClause := p.nextClause + 1 }
  | constant (p : Planner α) (c : Clause α) :
      Change asked p { p with constantClauses := p.constantClauses ++ [c] }
  | order (p : Planner α) (order : Pathkeys α) : Change asked p { p with queryPathkeys := order }

/-- Relations stay consistent. -/
theorem Planner.Change.consistent (h : Change asked p q) (hp : Consistent p.outlines) :
    Consistent q.outlines := by
  cases h with
  | base _ hnew hr => exact hp.grows (PlanM.extends_ofEntry hnew hr).1
  | join _ _ ho hi hd hnew => exact hp.grows (PlanM.extends_ofJoin ho hi hd hnew).1
  | @revise id f _ =>
      obtain ⟨g, houtline, hg⟩ := f.exists_outline
      rw [outlines_modifyRelation houtline]
      exact hp.modify (fun o => (hg o).1) (fun o => (hg o).2.1) (fun o => (hg o).2.2) id
  | identity | constant | order => exact hp

/-- Some changes in a row. -/
def Planner.Changes (asked : List RtIndex) : Planner α → Planner α → Prop :=
  Relation.ReflTransGen (Change asked)

instance : IsPreorder (Planner α) (Changes asked) :=
  inferInstanceAs (IsPreorder _ (Relation.ReflTransGen _))

namespace Planner

theorem Change.mono (h : Change asked p q) (hsub : asked ⊆ asked') : Change asked' p q := by
  cases h with
  | base hasked hnew hr => exact .base (hsub hasked) hnew hr
  | join fraction width ho hi hd hnew hwidth => exact .join fraction width ho hi hd hnew hwidth
  | revise id hf => exact .revise p id hf
  | identity => exact .identity p
  | constant c => exact .constant p c
  | order order => exact .order p order

theorem Changes.mono (h : Changes asked p q) (hsub : asked ⊆ asked') : Changes asked' p q := by
  induction h with
  | refl => exact .refl
  | tail _ hchange ih => exact ih.tail (hchange.mono hsub)

/-- What every change keeps, any number of them does. -/
theorem Changes.keeps {I : Planner α → Prop} (hI : ∀ p q, Change asked p q → I p → I q)
    (h : Changes asked p q) (hp : I p) : I q := by
  induction h with
  | refl => exact hp
  | tail _ hchange ih => exact hI _ _ hchange ih

theorem changes_revise (id : Nat) (f : Relation.Edit α) (hf : f.Estimated p) :
    Changes asked p (modifyRelation id f p) := .single (.revise p id hf)

end Planner

/-! ## Builders -/

namespace PlanM

theorem changes_baseRelation (hasked : relid ∈ asked) :
    (baseRelation relid : PlanM α Nat).Moves (Changes asked) :=
  baseRelation_moves fun _ _ hnew hr => .single (.base hasked hnew hr)

theorem changes_addTarget (hasked : relid ∈ asked) (e : Expr α) :
    (addTarget relid e : PlanM α Unit).Moves (Changes asked) :=
  (changes_baseRelation hasked).bind fun id =>
    .modify fun _ => changes_revise id (.target e) trivial

theorem changes_estimateSize (relid : RtIndex) :
    (estimateSize relid : PlanM α Unit).Moves (Changes asked) := by
  intro p
  rcases estimateSize_cases relid p with ⟨e, h⟩ | ⟨r, rows, width, _, hwidth, h⟩
  · rw [final_of_error h]
    exact refl_of (Changes asked) p
  · rw [final_of_ok h]
    exact changes_revise r.id (.size rows width) ⟨r, hwidth⟩

theorem changes_awaitOthers (hasked : relid ∈ asked) (c : Clause α) :
    (awaitOthers c relid : PlanM α Unit).Moves (Changes asked) :=
  (changes_baseRelation hasked).bind fun id =>
    .modify fun _ => changes_revise id (.filing c _) trivial

theorem changes_newClause (e : Expr α) :
    (newClause e : PlanM α (Clause α)).Moves (Changes asked) := fun p => .single (.identity p)

/-- A distribution asks for the relations that the clause reads. -/
theorem changes_distribute (e : Expr α) :
    (distribute e : PlanM α (Clause α)).Moves (Changes e.relations.members) := by
  intro p
  refine Moves.rel_bind (changes_newClause e p) fun c q hnew => ?_
  have hrequired : c.required = e.relations := by
    cases hnew.symm.trans (newClause_eq e p)
    exact required_analyze ..
  rw [hrequired]
  dsimp only
  cases hm : e.relations.membership with
  | empty => exact Moves.bind (.modify fun p => .single (.constant p c)) (fun _ => .pure c) q
  | single relid =>
      have hasked : relid ∈ e.relations.members :=
        RelSet.mem_toFinset.mp (RelSet.mem_of_membership hm)
      exact Moves.bind (changes_baseRelation hasked) (fun id =>
        .bind (.modify fun _ => changes_revise id (.restriction c) trivial) fun _ => .pure c) q
  | multiple =>
      -- Its columns are columns of these relations.
      have hcolumns : ∀ v ∈ e.vars, v.relation ∈ e.relations.members := fun v hv =>
        RelSet.mem_toFinset.mp (Expr.mem_relations_iff.mpr ⟨v, hv, rfl⟩)
      exact Moves.bind (.forM_mem fun relid hr => changes_awaitOthers (hrequired ▸ hr) c) (fun _ =>
        .bind (.forM_mem fun v hv => changes_addTarget (hcolumns v hv) (.var v)) fun _ =>
          .pure c) q

theorem changes_joinRelation (outer inner : Nat) :
    (joinRelation outer inner : PlanM α (Nat × List (Clause α))).Moves (Changes asked) :=
  joinRelation_moves fun _ _ _ fraction width ho hi hd hnew hwidth =>
    .single (.join fraction width ho hi hd hnew hwidth)

theorem changes_addScans (id : Nat) : (addScans id : PlanM α Unit).Moves (Changes asked) :=
  addScans_moves (fun id paths _ => changes_revise id (.offer paths) trivial) id

theorem changes_addJoins (join outer inner : Nat) (restrictions : List (Clause α))
    (type : JoinType) :
    (addJoins join outer inner restrictions type : PlanM α Unit).Moves (Changes asked) :=
  addJoins_moves (fun id paths _ => changes_revise id (.offer paths) trivial) join outer inner
    restrictions type

theorem changes_search : (JoinSearch.search : PlanM α Nat).Moves (Changes asked) :=
  JoinSearch.search_moves changes_addScans
    (JoinSearch.joinPair_moves changes_joinRelation changes_addJoins)

end PlanM

/-! ## Requests -/

/-- The base relations that a request asks for, in the order it needs them. -/
def Request.asks : Request α → List RtIndex
  | .baseRelation relid => [relid]
  | .addTarget relid _ => [relid]
  | .distribute e => e.relations.members
  | _ => []

theorem Request.changes_run (r : Request α) : r.run.Moves (Changes r.asks) := by
  cases r with
  | baseRelation relid =>
      exact .bind (PlanM.changes_baseRelation (List.mem_singleton_self relid)) fun _ => .pure _
  | addTarget relid e =>
      exact .bind (PlanM.changes_addTarget (List.mem_singleton_self relid) e) fun _ => .pure _
  | estimateSize relid => exact .bind (PlanM.changes_estimateSize relid) fun _ => .pure _
  | distribute e => exact .bind (PlanM.changes_distribute e) fun _ => .pure _
  | joinRelation outer inner =>
      exact .bind (PlanM.changes_joinRelation outer inner) fun _ => .pure _
  | addScans id => exact .bind (PlanM.changes_addScans id) fun _ => .pure _
  | addJoins join outer inner restrictions type =>
      exact .bind (PlanM.changes_addJoins join outer inner restrictions type) fun _ => .pure _
  | offer id paths =>
      exact .bind .get fun _ => .bind (.ofExcept _) fun r =>
        .bind (.modify fun _ => changes_revise r.id (.offer paths) trivial) fun _ => .pure _
  | requestOrder order =>
      exact .bind (.modify fun p => .single (.order p order)) fun _ => .pure _
  | search => exact .bind PlanM.changes_search fun _ => .pure _

theorem Request.changes_serve (r : Request α) (p : Planner α) :
    Changes r.asks p (r.serve p).2 := by
  rw [serve_snd]
  exact r.changes_run p

/-- A session is some changes, which ask for what its requests ask for. -/
theorem changes_session (requests : List (Request α)) (p : Planner α) :
    Changes (requests.flatMap Request.asks) p (session requests p).2 := by
  induction requests generalizing p with
  | nil => exact .refl
  | cons r rest ih =>
      have hserve := (r.changes_serve p).mono
        (List.subset_append_left r.asks (rest.flatMap Request.asks))
      have hrest := (ih (r.serve p).2).mono
        (List.subset_append_right r.asks (rest.flatMap Request.asks))
      exact hserve.trans hrest

/-- What every change keeps holds all through a session. -/
theorem session_keeps {I : Planner α → Prop} (hI : ∀ asked p q, Change asked p q → I p → I q)
    (requests : List (Request α)) (hp : I p) : I (session requests p).2 :=
  (changes_session requests p).keeps (hI _) hp

end QueryPlanner
