/-
  QueryPlanner.Proofs.Planner.Later

  What planning leaves behind it.

  While larger joins are planned, relations with fewer members stay as they
  are, and what has been offered to a relation once stays covered by its paths.
  `Later` says this of two states of a session.  So a later state has the same
  view of what was planned before, and a relation that is offered the same
  paths again keeps its list.
-/

import QueryPlanner.Proofs.Path.Frontier
import QueryPlanner.Proofs.Planner.Filing
import QueryPlanner.Proofs.Planner.Sound
import QueryPlanner.Proofs.Selectivity.View

namespace QueryPlanner

open Outline Planner PlanM

variable {α : Type} {p q : Planner α} {r o i : Relation α} {id n : Nat} {s : RelSet}

/-! ## Clauses that wait -/

/-- Every clause that waits somewhere is what is known of its expression. -/
def Planner.WaitAnalyzed (p : Planner α) : Prop :=
  ∀ o ∈ p.outlines, ∀ c, JoinInfo.Keeps o.joinInfo c → c.Analyzed

theorem Planner.WaitAnalyzed.of_extends (h : p.WaitAnalyzed) (he : Extends p q) :
    q.WaitAnalyzed := by
  -- By induction on the relations that have come, which are the last ones.
  obtain ⟨hgrows, -⟩ := he
  rw [WaitAnalyzed] at h ⊢
  generalize q.outlines = os at hgrows
  induction hgrows with
  | refl => exact h
  | add _ ha ih =>
      refine List.forall_mem_append.mpr ⟨ih, List.forall_mem_singleton.mpr fun c hc => ?_⟩
      cases ha with
      | base relid => exact absurd hc not_keeps_ofBase
      | join outer inner ho hi =>
          -- A join carries on what waits at its inputs.
          rcases keeps_of_keeps_ofJoin hc with hc | hc
          · exact ih _ ho c hc
          · exact ih _ hi c hc

/-- From clauses that are analyzed to clauses that are. -/
def Planner.KeepsAnalyzed (p q : Planner α) : Prop := p.WaitAnalyzed → q.WaitAnalyzed

instance : IsPreorder (Planner α) KeepsAnalyzed where
  refl _ h := h
  trans _ _ _ h h' hp := h' (h hp)

theorem Planner.keepsAnalyzed_of_extends (p q : Planner α) (h : Extends p q) :
    KeepsAnalyzed p q :=
  fun hp => hp.of_extends h

section Distribution

variable [Number α]

theorem PlanM.analyzed_awaitOthers {c : Clause α} (hc : c.Analyzed) (relid : RtIndex) :
    (awaitOthers c relid : PlanM α Unit).Moves KeepsAnalyzed := by
  refine .bind ((moves_baseRelation relid).mono keepsAnalyzed_of_extends) fun id =>
    .modify fun p hp => ?_
  intro o ho d hd
  obtain ⟨s, hs, rfl⟩ := List.mem_map.mp ho
  rcases mem_modifyRelation hs with hs | ⟨r, hr, rfl⟩
  · exact hp _ (List.mem_map_of_mem hs) d hd
  · -- At the relation itself the clause waits behind those before it.
    rcases (JoinInfo.keeps_update fun _ _ => List.mem_append).mp hd with hd | hd
    · exact hp _ (outline_mem hr) d hd
    · exact List.mem_singleton.mp hd ▸ hc

theorem PlanM.analyzed_distribute (e : Expr α) :
    (distribute e : PlanM α (Clause α)).Moves KeepsAnalyzed := by
  intro p
  refine Moves.rel_bind (fun hp => hp) fun c q hnew => ?_
  have hc := analyzed_newClause hnew
  show KeepsAnalyzed q (final _ q)
  split
  · exact Moves.bind (.modify fun p hp => hp) (fun _ => .pure c) q
  · rename_i relid _
    refine Moves.bind ((moves_baseRelation relid).mono keepsAnalyzed_of_extends)
      (fun id => .bind (.modify fun p => ?_) fun _ => .pure c) q
    refine keepsAnalyzed_of_extends _ _ (SameOutlines.extends ?_)
    exact sameOutlines_modifyRelation (fun _ => by rfl) id p
  · refine Moves.bind (.forM (fun relid => analyzed_awaitOthers hc relid) _) (fun _ =>
      .bind (.forM (fun v => ?_) _) fun _ => .pure c) q
    exact (moves_addTarget v.relation (.var v)).mono keepsAnalyzed_of_extends

/-- At every point of a session the clauses that wait are analyzed. -/
theorem waitAnalyzed_session (hp : p.WaitAnalyzed) (requests : List (Request α)) :
    (session requests p).2.WaitAnalyzed := by
  induction requests generalizing p with
  | nil => exact hp
  | cons r rest ih =>
      refine ih (?_ : (r.serve p).2.WaitAnalyzed)
      rw [r.serve_snd]
      -- Only a request that brings a clause files anything.
      by_cases hr : ∀ e, r ≠ .distribute e
      · exact hp.of_extends (Request.moves_run hr p)
      · obtain ⟨e, rfl⟩ : ∃ e, r = .distribute e := by
          simpa only [not_forall, not_not] using hr
        rw [Request.run, final_bind_pure]
        exact analyzed_distribute e p hp

end Distribution

/-! ## What planning keeps -/

/-- The paths kept for a relation are its own, are costed, and are all needed. -/
structure Relation.Tidy [Number α] (r : Relation α) : Prop where
  parent : ∀ path ∈ r.paths, path.parent = r.id
  costed : ∀ path ∈ r.paths, path.IsCosted
  antichain : Path.Antichain r.paths

/-- Clauses wait where they belong, and every relation is tidy. -/
structure Planner.Tidy [Number α] (p : Planner α) : Prop where
  filed : p.Filed
  analyzed : p.WaitAnalyzed
  relations : ∀ r ∈ p.relations, r.Tidy

theorem Relation.tidy_of_no_paths [Number α] (h : r.paths = []) : r.Tidy where
  parent := by
    rw [h]
    exact nofun
  costed := by
    rw [h]
    exact nofun
  antichain := by
    rw [h]
    exact .nil

section Tidy

variable [Number α] {paths : List (Path α)}

theorem Planner.Tidy.consistent (h : p.Tidy) : Consistent p.outlines := h.filed.consistent

theorem Planner.Tidy.of_extends (h : p.Tidy) (he : Extends p q)
    (hq : ∀ r ∈ q.relations, r.Tidy) : q.Tidy :=
  ⟨h.filed.of_extends he, h.analyzed.of_extends he, hq⟩

theorem Planner.Tidy.relation (h : p.Tidy) (hr : p.relation id = .ok r) : r.Tidy :=
  h.relations r (mem_of_relation hr)

/-- Every relation has a member. -/
theorem Planner.Tidy.card_pos (h : p.Tidy) (hr : p.relation id = .ok r) :
    0 < r.relids.toFinset.card :=
  (h.consistent.nonempty _ (outline_mem hr)).card_pos

/-- Some kept path makes a path superfluous. -/
def Relation.Covers (r : Relation α) (path : Path α) : Prop :=
  ∃ kept ∈ r.paths, kept.Dominates path

variable [Number.Ordered α]

/-- What is offered to a tidy relation, and what was covered before, is covered
then. -/
theorem Relation.Tidy.frontier_offer (h : r.Tidy) (hcosted : ∀ path ∈ paths, path.IsCosted) :
    Path.Frontier (r.paths ++ paths) (r.offer paths).paths := by
  have hself : Path.Frontier r.paths r.paths :=
    ⟨fun _ hp => hp, h.antichain, fun path hp => ⟨path, hp, .refl (h.costed path hp)⟩⟩
  exact hself.addAll h.costed hcosted

/-- Costed paths of its own leave a relation tidy. -/
theorem Relation.Tidy.offer (h : r.Tidy) (hparent : ∀ path ∈ paths, path.parent = r.id)
    (hcosted : ∀ path ∈ paths, path.IsCosted) : (r.offer paths).Tidy where
  parent path hp := (Sound.mem_offer hp).elim (h.parent path) (hparent path)
  costed path hp := (Sound.mem_offer hp).elim (h.costed path) (hcosted path)
  antichain := (h.frontier_offer hcosted).antichain

/-- Covered paths are offered in vain. -/
theorem Relation.Tidy.offer_eq_self (h : r.Tidy) (hcosted : ∀ path ∈ paths, path.IsCosted)
    (hcovers : ∀ path ∈ paths, r.Covers path) : r.offer paths = r := by
  rw [Relation.offer, Path.addAll_eq_self h.costed h.antichain hcosted hcovers]

theorem Planner.Tidy.modifyRelation_offer (h : p.Tidy) (hr : p.relation id = .ok r)
    (hparent : ∀ path ∈ paths, path.parent = r.id) (hcosted : ∀ path ∈ paths, path.IsCosted) :
    (modifyRelation id (.offer paths) p).Tidy := by
  refine h.of_extends (sameOutlines_offer id paths p).extends fun s hs => ?_
  rcases mem_modifyRelation hs with hs | ⟨r', hr', rfl⟩
  · exact h.relations s hs
  · cases hr.symm.trans hr'
    exact (h.relation hr).offer hparent hcosted

end Tidy

/-! ## Later states -/

/-- A state behind the planning of joins of at least so many members. -/
structure Planner.Later [Number α] (n : Nat) (p q : Planner α) : Prop where
  /-- Nothing but relations has changed. -/
  rest : p.withRelations q.relations = q
  /-- Relations differ in their paths, and joins have come. -/
  bare : ∃ joins, q.relations.map Relation.bare = p.relations.map Relation.bare ++ joins ∧
    ∀ r ∈ joins, r.kind = .join ∧ n ≤ r.relids.toFinset.card
  small : ∀ id r, p.relation id = .ok r → r.relids.toFinset.card < n → q.relation id = .ok r
  covers : ∀ id r s, p.relation id = .ok r → q.relation id = .ok s →
    ∀ path, r.Covers path → s.Covers path

namespace Planner

theorem outline_eq_of_bare (h : r.bare = o.bare) : r.outline = o.outline := by
  have houtline : r.bare.outline = o.bare.outline := congrArg Relation.outline h
  exact houtline

theorem map_outline_bare (rs : List (Relation α)) :
    (rs.map Relation.bare).map Relation.outline = rs.map Relation.outline := by
  rw [List.map_map]
  rfl

/-- What is known of the base relations but for their paths. -/
theorem map_bare_baseRelations (p : Planner α) :
    p.baseRelations.map Relation.bare =
      (p.relations.map Relation.bare).filter fun r => r.relid?.isSome := by
  rw [baseRelations_eq_filter, List.filter_map]
  rfl

theorem modifyRelation_eq_self [Number α] {f : Relation.Edit α} (hr : p.relation id = .ok r)
    (h : f r = r) : modifyRelation id f p = p := by
  have hsame : p.relations.modify id f = p.relations := by
    refine List.ext_getElem? fun k => ?_
    rw [List.getElem?_modify]
    by_cases hk : id = k
    · rw [← hk, relation_eq_ok_iff.mp hr]
      simp [h]
    · simp [hk]
  rw [modifyRelation_eq, hsame, withRelations_self]

namespace Later

variable [Number α]

/-! ### Relations later -/

/-- A relation that is there is there later, up to its paths. -/
theorem exists_relation (h : Later n p q) (hr : p.relation id = .ok r) :
    ∃ s, q.relation id = .ok s ∧ s.bare = r.bare := by
  obtain ⟨joins, hbare, -⟩ := h.bare
  have hr' : (p.relations.map Relation.bare)[id]? = some r.bare := by
    rw [List.getElem?_map, relation_eq_ok_iff.mp hr]
    rfl
  obtain ⟨hlt, -⟩ := List.getElem?_eq_some_iff.mp hr'
  have hs : (q.relations.map Relation.bare)[id]? = some r.bare := by
    rw [hbare, List.getElem?_append_left hlt, hr']
  rw [List.getElem?_map, Option.map_eq_some_iff] at hs
  obtain ⟨s, hs, hsr⟩ := hs
  exact ⟨s, relation_eq_ok_iff.mpr hs, hsr⟩

theorem outlines_getElem? {o : Outline α} (h : Later n p q) (ho : p.outlines[id]? = some o) :
    q.outlines[id]? = some o := by
  obtain ⟨r, hr, rfl⟩ := Planner.exists_relation ho
  obtain ⟨s, hs, hsr⟩ := h.exists_relation hr
  rw [Planner.outlines_getElem? hs, outline_eq_of_bare hsr]

theorem refl (n : Nat) (p : Planner α) : Later n p p where
  rest := p.withRelations_self
  bare := ⟨[], (List.append_nil _).symm, nofun⟩
  small _ _ hr _ := hr
  covers id r s hr hs _ hpath := by
    cases hr.symm.trans hs
    exact hpath

theorem trans {p' : Planner α} (h : Later n p q) (h' : Later n q p') : Later n p p' where
  rest := by
    rw [← h'.rest, ← h.rest]
    rfl
  bare := by
    obtain ⟨joins, hbare, hjoins⟩ := h.bare
    obtain ⟨joins', hbare', hjoins'⟩ := h'.bare
    refine ⟨joins ++ joins', ?_, List.forall_mem_append.mpr ⟨hjoins, hjoins'⟩⟩
    rw [hbare', hbare, List.append_assoc]
  small id r hr hsmall := h'.small id r (h.small id r hr hsmall) hsmall
  covers id r t hr ht path hpath := by
    obtain ⟨s, hs, -⟩ := h.exists_relation hr
    exact h'.covers id s t hs ht path (h.covers id r s hr hs path hpath)

/-- Planning only larger joins leaves no less as it is. -/
theorem mono {m : Nat} (h : Later n p q) (hm : m ≤ n) : Later m p q where
  rest := h.rest
  bare := by
    obtain ⟨joins, hbare, hjoins⟩ := h.bare
    exact ⟨joins, hbare, fun r hr => ⟨(hjoins r hr).1, hm.trans (hjoins r hr).2⟩⟩
  small id r hr hsmall := h.small id r hr (hsmall.trans_le hm)
  covers := h.covers

/-- Base relations only change their paths. -/
theorem map_bare_baseRelations (h : Later n p q) :
    q.baseRelations.map Relation.bare = p.baseRelations.map Relation.bare := by
  obtain ⟨joins, hbare, hjoins⟩ := h.bare
  have hnone : joins.filter (fun r => r.relid?.isSome) = [] := by
    refine List.filter_eq_nil_iff.mpr fun r hr => ?_
    rw [Relation.relid?, (hjoins r hr).1]
    exact Bool.false_ne_true
  rw [Planner.map_bare_baseRelations, Planner.map_bare_baseRelations, hbare, List.filter_append,
    hnone, List.append_nil]

/-- Estimates for a set of members look the same later, if the joins that came
are larger, or if the join of these members was there already. -/
theorem view_eq (h : Later n p q) (hq : Consistent q.outlines)
    (hs : s.toFinset.card < n ∨
      s.toFinset.card = n ∧ ∃ j ∈ p.outlines, j.kind = .join ∧ j.relids = s) :
    p.view s = q.view s := by
  obtain ⟨joins, hbare, hjoins⟩ := h.bare
  have houtlines : q.outlines = p.outlines ++ joins.map Relation.outline := by
    rw [outlines, outlines, ← map_outline_bare, hbare, List.map_append, map_outline_bare]
  -- None of the joins that came is in the view.
  have hnone : joins.filter (fun r => r.kind = .base ∨ r.relids.isSubset s) = [] := by
    refine List.filter_eq_nil_iff.mpr fun r hr hin => ?_
    obtain ⟨hk, hn⟩ := hjoins r hr
    have hsub : r.relids.toFinset ⊆ s.toFinset := by
      rw [decide_eq_true_eq, hk] at hin
      exact RelSet.isSubset_iff.mp (hin.resolve_left (by decide))
    have hle := Finset.card_le_card hsub
    rcases hs with hlt | ⟨heq, j, hj, hjk, hjs⟩
    · omega
    · -- A second join of the same members cannot have come.
      have hset : r.relids.toFinset = s.toFinset := Finset.eq_of_subset_of_card_le hsub (by omega)
      have hr' : r.outline ∈ joins.map Relation.outline := List.mem_map_of_mem hr
      have hdistinct := hq.distinct
      have hasc := hq.ascending
      rw [houtlines] at hdistinct hasc
      refine (List.pairwise_append.mp hdistinct).2.2 j hj r.outline hr' (hjk.trans hk.symm) ?_
      refine (hasc j (List.mem_append_left _ hj)).ext (hasc _ (List.mem_append_right _ hr')) ?_
      rw [hjs]
      exact hset.symm
  rw [view, view, hbare, List.filter_append, hnone, List.append_nil, ← h.rest]
  rfl

/-! ### What planning does -/

/-- A join is added. -/
theorem of_addRelation (hk : r.kind = .join) (hn : n ≤ r.relids.toFinset.card) :
    Later n p (p.addRelation r) where
  rest := (p.addRelation_eq r).symm
  bare := ⟨[r.bare], List.map_append, List.forall_mem_singleton.mpr ⟨hk, hn⟩⟩
  small _ _ hr _ := relation_addRelation hr
  covers id r s hr hs _ hpath := by
    cases (relation_addRelation hr).symm.trans hs
    exact hpath

/-- Paths are offered to a relation. -/
theorem of_offer [Number.Ordered α] {paths : List (Path α)} (hr : p.relation id = .ok r)
    (hn : n ≤ r.relids.toFinset.card) (htidy : r.Tidy)
    (hcosted : ∀ path ∈ paths, path.IsCosted) :
    Later n p (modifyRelation id (.offer paths) p) where
  rest := (p.modifyRelation_eq id (.offer paths)).symm
  bare := by
    refine ⟨[], ?_, nofun⟩
    rw [List.append_nil]
    refine List.ext_getElem? fun k => ?_
    rw [modifyRelation, List.getElem?_map, List.getElem?_modify, List.getElem?_map]
    cases p.relations[k]? with
    | none => rfl
    | some s =>
        by_cases hk : id = k
        · simp [hk, Relation.Edit.apply, Relation.offer, Relation.bare]
        · simp [hk]
  small k s hs hsmall := by
    rw [relation_modifyRelation hs]
    by_cases hk : id = k
    · cases hr.symm.trans (hk ▸ hs)
      omega
    · rw [if_neg hk]
  covers k s t hs ht path hpath := by
    cases (relation_modifyRelation hs).symm.trans ht
    by_cases hk : id = k
    · cases hr.symm.trans (hk ▸ hs)
      rw [if_pos hk]
      -- The path that covered it is kept, or is covered itself.
      obtain ⟨kept, hkept, hdominates⟩ := hpath
      obtain ⟨kept', hkept', hdominates'⟩ :=
        (htidy.frontier_offer hcosted).covers kept (List.mem_append_left _ hkept)
      exact ⟨kept', hkept', hdominates'.trans hdominates⟩
    · rw [if_neg hk]
      exact hpath

end Later

end Planner

end QueryPlanner
