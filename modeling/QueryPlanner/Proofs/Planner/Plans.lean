/-
  QueryPlanner.Proofs.Planner.Plans

  Sessions in which any two relations can be joined.

  All clauses are equations whose sides are shown by the relations that they
  come from.  A join shows what its inputs show, so what a session can follow
  it can still follow behind every step of a search: with `Plans` as the
  invariant no step fails.
-/

import QueryPlanner.Proofs.JoinSearch.Levels
import QueryPlanner.Proofs.Path.Total
import QueryPlanner.Proofs.Planner.Columns
import QueryPlanner.Proofs.Planner.Room
import QueryPlanner.Proofs.Planner.Sources

namespace QueryPlanner

open Outline Planner

variable {α : Type} [Number α] {p q : Planner α} {all : List (Clause α)} {c : Clause α}
  {e : Expr α} {r o i : Relation α} {a b id : Nat}

/-! ## What joins show -/

namespace Planner

/-- Whatever is shown stays so, and nothing else is shown. -/
structure ShowsSame (p q : Planner α) : Prop where
  shows : ∀ e, p.Shows e → q.Shows e
  provides : ∀ e, q.Provides e → p.Provides e

instance : IsPreorder (Planner α) ShowsSame where
  refl _ := ⟨fun _ h => h, fun _ h => h⟩
  trans _ _ _ h h' := ⟨fun e he => h'.shows e (h.shows e he),
    fun e he => h.provides e (h'.provides e he)⟩

/-- A join shows what either input shows. -/
theorem provides_ofJoin_iff {fraction : α} {width : Int32} :
    (Relation.ofJoin id o i fraction width).target.provides e = true ↔
      o.target.provides e = true ∨ i.target.provides e = true := by
  simp only [TargetList.provides_iff]
  show e ∈ TargetList.exprs (TargetList.join o.target i.target) ↔ _
  rw [TargetList.exprs_join, List.mem_append]

theorem showsSame_addRelation (ho : o ∈ p.relations) (hi : i ∈ p.relations) (fraction : α)
    (width : Int32) : ShowsSame p (p.addRelation (Relation.ofJoin id o i fraction width)) where
  shows := by
    rintro e ⟨relid, hrelid, h⟩
    refine ⟨relid, hrelid,
      List.forall_mem_append.mpr ⟨h, List.forall_mem_singleton.mpr fun hr => ?_⟩⟩
    have hmem : relid ∈ (o.relids.union i.relids).toFinset := hr
    rw [RelSet.toFinset_union, Finset.mem_union] at hmem
    exact provides_ofJoin_iff.mpr (hmem.imp (h o ho) (h i hi))
  provides := by
    rintro e ⟨r, hr, he⟩
    rcases List.mem_append.mp hr with hr | hr
    · exact ⟨r, hr, he⟩
    · obtain rfl := List.mem_singleton.mp hr
      rcases provides_ofJoin_iff.mp he with he | he
      · exact ⟨o, ho, he⟩
      · exact ⟨i, hi, he⟩

theorem showsSame_offer (id : Nat) (paths : List (Path α)) (p : Planner α) :
    ShowsSame p (modifyRelation id (.offer paths) p) where
  shows := by
    rintro e ⟨relid, hrelid, h⟩
    refine ⟨relid, hrelid, fun s hs hr => ?_⟩
    rcases mem_modifyRelation hs with hs | ⟨r, hr', rfl⟩
    · exact h s hs hr
    · exact h r (mem_of_relation hr') hr
  provides := by
    rintro e ⟨s, hs, he⟩
    rcases mem_modifyRelation hs with hs | ⟨r, hr, rfl⟩
    · exact ⟨s, hs, he⟩
    · exact ⟨r, mem_of_relation hr, he⟩

end Planner

namespace PlanM

theorem showsSame_joinRelation (outer inner : Nat) :
    (joinRelation outer inner : PlanM α (Nat × List (Clause α))).Moves ShowsSame :=
  joinRelation_moves fun _ _ _ fraction width ho hi _ _ _ =>
    showsSame_addRelation (mem_of_relation ho) (mem_of_relation hi) fraction width

theorem showsSame_addScans (id : Nat) : (addScans id : PlanM α Unit).Moves ShowsSame :=
  addScans_moves showsSame_offer id

theorem showsSame_addJoins (join outer inner : Nat) (restrictions : List (Clause α))
    (type : JoinType) :
    (addJoins join outer inner restrictions type : PlanM α Unit).Moves ShowsSame :=
  addJoins_moves showsSame_offer join outer inner restrictions type

end PlanM

theorem JoinSearch.showsSame_joinPair (a b : Nat) (level : List Nat) :
    (joinPair a b level : PlanM α (List Nat)).Moves ShowsSame :=
  joinPair_moves PlanM.showsSame_joinRelation PlanM.showsSame_addJoins a b level

/-! ## Sessions that can be planned -/

/-- The relation with a number has a single member. -/
def Planner.HasSingle (p : Planner α) (id : Nat) : Prop :=
  ∃ r, p.relation id = .ok r ∧ r.relids.toFinset.card = 1

omit [Number α] in
theorem Planner.HasSingle.card_eq (h : p.HasSingle id) (hr : p.relation id = .ok r) :
    r.relids.toFinset.card = 1 := by
  obtain ⟨s, hs, hcard⟩ := h
  obtain rfl := Except.ok.inj (hs.symm.trans hr)
  exact hcard

omit [Number α] in
theorem Planner.HasSingle.keeps (h : p.HasSingle id) (hk : Keeps p q) : q.HasSingle id := by
  obtain ⟨r, hr, hcard⟩ := h
  obtain ⟨s, hs, hrs⟩ := hk id r hr
  exact ⟨s, hs, hrs.relids_eq ▸ hcard⟩

/-- A clause that could be followed still can. -/
theorem Planner.Follows.mono (h : p.Follows c) (hext : Extends p q) (hs : Sources p q)
    (hshows : ShowsSame p q) : q.Follows c where
  analyzed := h.analyzed
  equates := by
    obtain ⟨⟨l, r, he⟩, hb⟩ := h.equates
    refine ⟨⟨l, r, hs.operators_eq ▸ he⟩, fun x hx => ⟨?_, ?_⟩⟩
    · exact exists_baseRelation_iff.mpr
        (hext.1.built (exists_baseRelation_iff.mp (hb x hx).relation))
    · rw [entry, hs.rangeTable_eq]
      exact (hb x hx).entry
  shows a b hab hone := (h.shows a b hab hone).imp (hshows.shows a) (hshows.shows b)

/-- All clauses have come, each of them can be followed, and any relations joined
have room. -/
structure Planner.Plans (all : List (Clause α)) (p : Planner α) : Prop where
  settled : Settled all p
  sound : p.Sound
  operators : p.operators.Closed
  room : ∃ width, HasRoom width ∧ AddsUp width p
  follows : ∀ c ∈ all, p.Follows c

namespace Planner.Plans

theorem moves (h : Plans all p) (hext : Extends p q) (hsteps : Steps p q) (hs : Sources p q)
    (hshows : ShowsSame p q) (hwidths : KeepsWidths p q) : Plans all q where
  settled := h.settled.of_extends hext
  sound := (hsteps h.sound).2
  operators := hs.operators_eq ▸ h.operators
  room := h.room.imp fun width hroom => ⟨hroom.1, hwidths width hroom.2⟩
  follows c hc := (h.follows c hc).mono hext hs hshows

/-- The clauses at a join are clauses of the query. -/
theorem mem_of_restrictionsOfJoin {relids : RelSet} (h : Plans all p) (ho : p.relation a = .ok o)
    (hi : p.relation b = .ok i) (hc : c ∈ Relation.restrictionsOfJoin relids o i) : c ∈ all := by
  have hexact {r : Relation α} {id : Nat} (hr : p.relation id = .ok r) :
      JoinInfo.Exact all r.relids r.joinInfo :=
    h.settled.exact _ (outline_mem hr)
  rcases Relation.keeps_of_mem_restrictionsOfJoin hc with hc | hc
  · exact (((hexact ho).keeps_iff c).mp hc).1
  · exact (((hexact hi).keeps_iff c).mp hc).1

variable {E : PlanError α → Planner α → Prop}

/-- Disjoint relations can be joined. -/
theorem joinRelation (h : Plans all p) (ho : p.relation a = .ok o) (hi : p.relation b = .ok i)
    (hd : Disjoint o.relids.toFinset i.relids.toFinset) :
    (PlanM.joinRelation a b).Ends p (fun x q => (Plans all q ∧ Keeps p q) ∧
      (∃ j, q.relation x.1 = .ok j) ∧ Joinable q a b x.2 ∧ ∀ c ∈ x.2, c ∈ all) E := by
  have hoverlaps := RelSet.overlaps_eq_false_iff.mpr hd
  obtain ⟨width, hroom, hwidths⟩ := h.room
  obtain ⟨⟨join, restrictions⟩, q, hrun⟩ := PlanM.joinRelation_total ho hi hoverlaps
    (Selectivity.clauseList_total (List.forall_mem_map.mpr fun c hc =>
      (h.follows c (h.mem_of_restrictionsOfJoin ho hi hc)).equates))
    (hwidths.exists_pairWidth hroom ho hi hoverlaps)
  have hsteps := (PlanM.steps_joinRelation a b).of_ok hrun
  obtain ⟨hext, o', i', j, ho', hi', -, rfl, hj, -⟩ :=
    PlanM.joinRelation_eq_ok h.sound.consistent hrun
  obtain ⟨r, hr, -⟩ := exists_relation hj
  refine .of_ok hrun ⟨⟨h.moves hext hsteps ((PlanM.sources_joinRelation a b).of_ok hrun)
    ((PlanM.showsSame_joinRelation a b).of_ok hrun)
    ((PlanM.keepsWidths_joinRelation a b).of_ok hrun), (hsteps h.sound).1⟩, ⟨r, hr⟩,
    PlanM.joinable_of_joinRelation h.sound hrun, fun c hc => ?_⟩
  exact h.mem_of_restrictionsOfJoin ho' hi' hc

/-- What has been joined can be offered its paths, if one of the inputs has a
single member. -/
theorem addJoins {join : Nat} {restrictions : List (Clause α)} (h : Plans all p)
    (hr : ∃ j, p.relation join = .ok j) (hj : Joinable p a b restrictions)
    (hc : ∀ c ∈ restrictions, c ∈ all) (hone : p.HasSingle a ∨ p.HasSingle b) :
    (PlanM.addJoins join a b restrictions .inner).Ends p (fun _ q => Plans all q ∧ Keeps p q) E := by
  obtain ⟨j, hr⟩ := hr
  obtain ⟨o, i, ho, hi, -⟩ := hj.inputs
  have hplannable : Pairing.Plannable p ⟨j, o, i, .inner, restrictions⟩ := {
    operators := h.operators
    outer_mem := mem_of_relation ho
    inner_mem := mem_of_relation hi
    single := hone.imp (·.card_eq ho) (·.card_eq hi)
    outer_parent := fun path hpath => ⟨o, h.sound.relation_parent ho hpath⟩
    inner_parent := fun path hpath => ⟨i, h.sound.relation_parent hi hpath⟩
    follows := fun c hmem => h.follows c (hc c hmem) }
  obtain ⟨q, hrun⟩ := PlanM.addJoins_total hr ho hi hplannable.paths_total
  have hsteps : Steps p q := PlanM.final_of_ok hrun ▸ PlanM.steps_addJoins join .inner hj
  have hsame := (PlanM.moves_addJoins join a b restrictions .inner).of_ok hrun
  exact .of_ok hrun ⟨h.moves hsame.extends hsteps
    ((PlanM.sources_addJoins join a b restrictions .inner).of_ok hrun)
    ((PlanM.showsSame_addJoins join a b restrictions .inner).of_ok hrun)
    ((PlanM.keepsWidths_addJoins join a b restrictions .inner).of_ok hrun), (hsteps h.sound).1⟩

/-- A pair can be joined both ways round. -/
theorem joinPair {level : List Nat} (h : Plans all p) (ho : p.relation a = .ok o)
    (hi : p.relation b = .ok i) (hd : Disjoint o.relids.toFinset i.relids.toFinset)
    (hone : i.relids.toFinset.card = 1) :
    (JoinSearch.joinPair a b level).Ends p (fun _ q => Plans all q) E := by
  have hsingle : p.HasSingle b := ⟨i, hi, hone⟩
  refine (h.joinRelation ho hi hd).bind fun x p₁ _ hx => ?_
  obtain ⟨⟨h₁, hk₁⟩, hjoin, hj, hc⟩ := hx
  refine (h₁.addJoins hjoin hj hc (.inr (hsingle.keeps hk₁))).bind fun _ p₂ _ hp₂ => ?_
  obtain ⟨h₂, hk₂⟩ := hp₂
  obtain ⟨o₂, i₂, ho₂, hi₂, hd₂⟩ := (hj.keeps hk₂).inputs
  refine (h₂.joinRelation hi₂ ho₂ hd₂.symm).bind fun y p₃ _ hy => ?_
  obtain ⟨⟨h₃, hk₃⟩, -, hj', hc'⟩ := hy
  -- The join is still there for the paths the other way round.
  have hjoin₃ : ∃ j, p₃.relation x.1 = .ok j := by
    obtain ⟨j, hj⟩ := hjoin
    obtain ⟨j, hj, -⟩ := (hk₂.trans hk₃) x.1 j hj
    exact ⟨j, hj⟩
  have hsingle₃ := hsingle.keeps (hk₁.trans (hk₂.trans hk₃))
  exact (h₃.addJoins hjoin₃ hj' hc' (.inl hsingle₃)).bind fun _ p₄ _ hp₄ => .pure hp₄.1

/-- Behind the scans of its base relations a session can be planned. -/
theorem start {ids : List Nat} (h : Plans all p) (hrun : JoinSearch.start p = .ok ids q) :
    Plans all q :=
  h.moves (JoinSearch.sameOutlines_start hrun).extends
    ((JoinSearch.start_moves PlanM.steps_addScans).of_ok hrun)
    ((JoinSearch.start_moves PlanM.sources_addScans).of_ok hrun)
    ((JoinSearch.start_moves PlanM.showsSame_addScans).of_ok hrun)
    ((JoinSearch.start_moves PlanM.keepsWidths_addScans).of_ok hrun)

theorem progress (all : List (Clause α)) : JoinSearch.Progress (Plans all) fun _ _ => False where
  consistent _ h := h.sound.consistent
  joinPair _ _ _ _ _ _ h ho hi hd hone := .of_total (h.joinPair ho hi hd hone)

end Planner.Plans

end QueryPlanner
