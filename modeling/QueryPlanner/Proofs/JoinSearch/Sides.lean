/-
  QueryPlanner.Proofs.JoinSearch.Sides

  What a search has found out about the sides of equations.

  Where the search joins the relations of one side of an equation with the
  only relation of the other side, the equation is one that a merge can
  follow.  Both inputs have paths by then, so the merge has been planned, and
  both sides have been found behind the scans.  The relations of an equation
  are all linked to each other, so a search that succeeds has been there.
-/

import QueryPlanner.Proofs.JoinSearch.Cliques
import QueryPlanner.Proofs.JoinSearch.Planned
import QueryPlanner.Proofs.Planner.Plans

namespace QueryPlanner

open Outline Planner

variable {α : Type} [Number α] {p q : Planner α} {all : List (Clause α)} {c : Clause α}
  {e l r : Expr α} {o i : Relation α} {s : Finset RtIndex} {y : RtIndex} {a b id : Nat}

omit [Number α] in
/-- A clause that splits over two inputs is applied at their join. -/
theorem Relation.mem_restrictionsOfJoin_of_splits {s t : RelSet} (hall : (all.map (·.id)).Nodup)
    (ho : JoinInfo.Exact all s o.joinInfo) (hi : JoinInfo.Exact all t i.joinInfo)
    (hd : Disjoint s.toFinset t.toFinset) (hc : c ∈ all) (h : c.Analyzed) (hsplits : c.Splits s t) :
    c ∈ restrictionsOfJoin (s.union t) o i := by
  obtain ⟨l, r, hlr, hl, hr⟩ := hsplits
  refine (mem_restrictionsOfJoin hall ho hi hd).mpr ⟨hc, ?_, ?_, ?_⟩
  · rw [h.toFinset_required hlr]
    exact Finset.union_subset_union hl.subset hr.subset
  · rw [h.toFinset_required hlr, Finset.union_subset_iff]
    exact fun hsub => hr.not_over hd hsub.2
  · rw [h.toFinset_required hlr, Finset.union_subset_iff]
    exact fun hsub => hl.not_over hd.symm hsub.1

/-! ## Relations with paths -/

namespace Planner

/-- Every relation has paths. -/
def AllPlanned (p : Planner α) : Prop := ∀ id r, p.relation id = .ok r → r.paths ≠ []

omit [Number α] in
theorem AllPlanned.planned (h : p.AllPlanned) (hr : p.relation id = .ok o) : p.Planned id :=
  ⟨o, hr, h id o hr⟩

/-- Both operands of each clause that a merge of two inputs can follow are
shown. -/
def ShowsOperands (p : Planner α) (cs : List (Clause α)) (s t : RelSet) : Prop :=
  ∀ c ∈ cs, c.isMergejoinable = true → ∀ l r, c.HasOperands l r → l.From s → r.From t →
    p.Provides l ∧ p.Provides r

end Planner

namespace PlanM

/-- Where inputs with paths are joined, their merge has found the operands of its
clauses. -/
theorem showsOperands_of_addJoins {join outer inner : Nat} {restrictions : List (Clause α)} {type : JoinType}
    {u : Unit} (hp : p.Sound) (hj : Joinable p outer inner restrictions)
    (ho : p.relation outer = .ok o) (hi : p.relation inner = .ok i) (hopaths : o.paths ≠ [])
    (hipaths : i.paths ≠ []) (h : addJoins join outer inner restrictions type p = .ok u q) :
    p.ShowsOperands restrictions o.relids i.relids := by
  rcases addJoins_cases join outer inner restrictions type p with
    ⟨_, hrun⟩ | ⟨j, o', i', paths, hj', ho', hi', hpaths, hrun⟩
  · exact nomatch h.symm.trans hrun
  · cases h.symm.trans hrun
    obtain rfl := Except.ok.inj (ho.symm.trans ho')
    obtain rfl := Except.ok.inj (hi.symm.trans hi')
    obtain ⟨o', i', ho', hi', hd⟩ := hj.inputs
    obtain rfl := Except.ok.inj (ho.symm.trans ho')
    obtain rfl := Except.ok.inj (hi.symm.trans hi')
    obtain ⟨-, hmerge⟩ := Pairing.paths_eq_ok hpaths hopaths hipaths
    intro c hc hm l r hlr hl hr
    -- The clause is one of those that the cheapest inputs have been sorted for.
    have hsep := (hj.analyzed c hc).separates_of_splits (.inl hm) ⟨l, r, hlr, hl, hr⟩
    have hmem : c ∈ Pairing.mergeable ⟨j, o, i, type, restrictions⟩ :=
      Pairing.mem_mergeable_iff.mpr ⟨hc, hm, hsep⟩
    obtain ⟨outerSort, innerSort, houter, hinner⟩ := hmerge (List.ne_nil_of_mem hmem)
    obtain ⟨outerItem, houter⟩ := Pathkeys.exists_mergeItem houter hmem
    obtain ⟨innerItem, hinner⟩ := Pathkeys.exists_mergeItem hinner hmem
    exact ⟨⟨o, mem_of_relation ho, Pathkeys.provides_of_mergeItem houter hm hlr hl hr hd
        (hp.relation ho).target⟩,
      ⟨i, mem_of_relation hi, Pathkeys.provides_of_mergeItem hinner hm hlr.symm hr hl hd.symm
        (hp.relation hi).target⟩⟩

/-- The same, from before the join. -/
theorem showsOperands_of_joinRelation {join outer inner : Nat} {restrictions : List (Clause α)}
    {type : JoinType} {p₁ : Planner α} {u : Unit} (hp : p.Sound) (hall : p.AllPlanned)
    (ho : p.relation outer = .ok o) (hi : p.relation inner = .ok i)
    (hjoin : joinRelation outer inner p = .ok (join, restrictions) p₁)
    (hpaths : addJoins join outer inner restrictions type p₁ = .ok u q) :
    p.ShowsOperands restrictions o.relids i.relids := by
  obtain ⟨hk, hp₁⟩ := (steps_joinRelation outer inner).of_ok hjoin hp
  have hkeeps := (keepsPlanned_joinRelation outer inner).of_ok hjoin
  obtain ⟨o₁, ho₁, hopaths⟩ := hkeeps outer (hall.planned ho)
  obtain ⟨i₁, hi₁, hipaths⟩ := hkeeps inner (hall.planned hi)
  have hprovides := showsOperands_of_addJoins hp₁ (joinable_of_joinRelation hp hjoin) ho₁ hi₁
    hopaths hipaths hpaths
  intro c hc hm l r hlr hl hr
  -- The inputs are the ones before, and the join shows nothing else.
  have hshows := (showsSame_joinRelation outer inner).of_ok hjoin
  obtain ⟨_, ho₂, hoo⟩ := hk outer o ho
  obtain rfl := Except.ok.inj (ho₁.symm.trans ho₂)
  obtain ⟨_, hi₂, hii⟩ := hk inner i hi
  obtain rfl := Except.ok.inj (hi₁.symm.trans hi₂)
  exact (hprovides c hc hm l r hlr (hoo.relids_eq ▸ hl) (hii.relids_eq ▸ hr)).imp
    (hshows.provides l) (hshows.provides r)

end PlanM

namespace JoinSearch

/-- Before the first join all relations get scans. -/
theorem allPlanned_start {ids : List Nat} (hp : p.Sound) (hjoins : p.joinRelations = [])
    (h : start p = .ok ids q) : q.AllPlanned := by
  have hsame := sameOutlines_start h
  have hplanned := planned_start h
  obtain ⟨rfl, -, -⟩ := start_eq_ok h
  intro id r hr
  -- Its number is that of a relation there was before.
  have hid : p.outlines[id]? = some r.outline := hsame.1 ▸ outlines_getElem? hr
  obtain ⟨s, hs, -⟩ := exists_relation hid
  have hmem : id ∈ p.baseRelations.map (·.id) :=
    List.mem_map.mpr ⟨s, mem_baseRelations hp.consistent hjoins (mem_of_relation hs), hp.id_eq hs⟩
  obtain ⟨r', hr', hpaths⟩ := hplanned id hmem
  exact Except.ok.inj (hr'.symm.trans hr) ▸ hpaths

/-- A pair leaves paths at its join, and at every other relation. -/
theorem allPlanned_joinPair {level level' : List Nat} (hp : p.Sound) (hall : p.AllPlanned)
    (hrun : joinPair a b level p = .ok level' q) : q.AllPlanned := by
  have hkeeps := (keepsPlanned_joinPair a b level).of_ok hrun
  have hq : q.Sound := ((steps_joinPair a b level).of_ok hrun hp).2
  obtain ⟨⟨join, forward⟩, p₁, hjoin, hrun⟩ := PlanM.bind_eq_ok.mp hrun
  obtain ⟨_, p₂, hpaths, hrun⟩ := PlanM.bind_eq_ok.mp hrun
  obtain ⟨⟨join', backward⟩, p₃, hjoin', hrun⟩ := PlanM.bind_eq_ok.mp hrun
  obtain ⟨_, p₄, hpaths', hrun⟩ := PlanM.bind_eq_ok.mp hrun
  obtain ⟨-, rfl⟩ := PlanM.pure_eq_ok.mp hrun
  obtain ⟨-, o, i, j, ho, hi, -, -, hj, -, -, hnew⟩ :=
    PlanM.joinRelation_eq_ok hp.consistent hjoin
  have hplanned : p₂.Planned join :=
    PlanM.planned_of_joinRelation (hall.planned ho) (hall.planned hi) hjoin hpaths
  have hlast : p₄.Planned join := (PlanM.keepsPlanned_addJoins join b a backward .inner).of_ok
    hpaths' join ((PlanM.keepsPlanned_joinRelation b a).of_ok hjoin' join hplanned)
  have hsame : SameOutlines p₁ p₂ := (PlanM.moves_addJoins join a b forward .inner).of_ok hpaths
  have hsame' : SameOutlines p₃ p₄ :=
    (PlanM.moves_addJoins join b a backward .inner).of_ok hpaths'
  -- The other way round finds the same join, so that one alone can be new.
  have houtlines : p₄.outlines = p₁.outlines :=
    hsame'.1.trans (joinRelation_swap hp.consistent hjoin hsame hjoin')
  intro id r hr
  have hid : r.outline.id = id := hq.id_eq hr
  have hmem : r.outline ∈ p.outlines ∨ r.outline = j := by
    have hlisted : r.outline ∈ p₁.outlines := houtlines ▸ outline_mem hr
    rcases hnew with hnew | hnew
    · exact .inl (hnew ▸ hlisted)
    · rw [hnew] at hlisted
      exact (List.mem_append.mp hlisted).imp_right List.mem_singleton.mp
  have hid' : p₄.Planned id := by
    rcases hmem with hmem | rfl
    · obtain ⟨s, hs, -⟩ := exists_relation (hid ▸ hp.consistent.getElem?_id hmem)
      exact hkeeps id (hall.planned hs)
    · have hjoinid : r.outline.id = join := hq.consistent.id_eq join _ (houtlines ▸ hj)
      exact hid ▸ hjoinid ▸ hlast
  obtain ⟨r', hr', hpaths⟩ := hid'
  exact Except.ok.inj (hr'.symm.trans hr) ▸ hpaths

/-! ## The search -/

/-- A search under way: all clauses are in place, all relations have paths, and
nothing is shown that was not at its start. -/
structure Searched (all : List (Clause α)) (p q : Planner α) : Prop where
  settled : Settled all q
  analyzed : ∀ c ∈ all, c.Analyzed
  sound : q.Sound
  planned : q.AllPlanned
  shown : ∀ e, q.Provides e → p.Provides e

/-- What a search has shown by joining some relations with one more: both sides
of the equations between them. -/
def SidesShown (all : List (Clause α)) (p : Planner α) (s : Finset RtIndex) (y : RtIndex) : Prop :=
  ∀ c ∈ all, c.isMergejoinable = true → ∀ l r, c.HasOperands l r → l.relations.toFinset = s →
    r.relations.toFinset = {y} → p.Provides l ∧ p.Provides r

theorem Searched.joinPair {p₀ : Planner α} {level level' : List Nat} (h : Searched all p₀ p)
    (ho : p.relation a = .ok o) (hi : p.relation b = .ok i) (hiy : i.relids.toFinset = {y})
    (hrun : JoinSearch.joinPair a b level p = .ok level' q) :
    Searched all p₀ q ∧ SidesShown all p₀ o.relids.toFinset y := by
  refine ⟨{
    settled := h.settled.of_extends ((moves_joinPair a b level).of_ok hrun)
    analyzed := h.analyzed
    sound := ((steps_joinPair a b level).of_ok hrun h.sound).2
    planned := allPlanned_joinPair h.sound h.planned hrun
    shown := fun e he => h.shown e (((showsSame_joinPair a b level).of_ok hrun).provides e he) }, ?_⟩
  -- The first of the two merges has looked for both sides already.
  obtain ⟨⟨join, forward⟩, p₁, hjoin, hrun⟩ := PlanM.bind_eq_ok.mp hrun
  obtain ⟨_, p₂, hpaths, -⟩ := PlanM.bind_eq_ok.mp hrun
  obtain ⟨-, o', i', -, ho', hi', hd, rfl, -⟩ :=
    PlanM.joinRelation_eq_ok h.sound.consistent hjoin
  obtain rfl := Except.ok.inj (ho.symm.trans ho')
  obtain rfl := Except.ok.inj (hi.symm.trans hi')
  have hprovides := PlanM.showsOperands_of_joinRelation h.sound h.planned ho hi hjoin hpaths
  have hoexact : JoinInfo.Exact all o.relids o.joinInfo := h.settled.exact _ (outline_mem ho)
  have hiexact : JoinInfo.Exact all i.relids i.joinInfo := h.settled.exact _ (outline_mem hi)
  have hone := h.sound.consistent.nonempty _ (outline_mem ho)
  have hine := h.sound.consistent.nonempty _ (outline_mem hi)
  intro c hc hm l r hlr hl hr
  have hlo : l.From o.relids := ⟨hl ▸ hone, hl.subset⟩
  have hri : r.From i.relids := ⟨(hr.trans hiy.symm) ▸ hine, (hr.trans hiy.symm).subset⟩
  have hmem := Relation.mem_restrictionsOfJoin_of_splits h.settled.covers.ids_nodup hoexact hiexact
    (RelSet.overlaps_eq_false_iff.mp hd) hc (h.analyzed c hc) ⟨l, r, hlr, hlo, hri⟩
  exact (hprovides c hmem hm l r hlr hlo hri).imp (h.shown l) (h.shown r)

theorem Searched.accounts (all : List (Clause α)) (p : Planner α) :
    Accounts (Searched all p) (SidesShown all p) where
  consistent _ h := h.sound.consistent
  joinPair _ _ _ _ _ _ _ _ _ h := h.joinPair

/-- All relations that a clause reads are linked to each other. -/
theorem wantsClique_graph (hp : HasClauses all p) (hc : c ∈ all) :
    WantsClique c.required.toFinset fun o i =>
      !(graph p).hasOutsideLinks o || (graph p).linked o i := by
  intro o i y ho hone hi hy hyo
  obtain ⟨x, hx⟩ := hone
  have hxy : x ≠ y := fun he => hyo (he ▸ hx)
  refine Bool.or_eq_true_iff.mpr (.inr ((JoinGraph.linked_iff hp).mpr ⟨x, hx, y, ?_, hxy, c, hc,
    ho hx, hy⟩))
  rw [hi]
  exact Finset.mem_singleton_self y

/-- A search that succeeds has found both sides of every equation between
some relations and another one. -/
theorem provides_of_search (hp : Settled all p) (hsound : p.Sound) (hjoins : p.joinRelations = [])
    (hanalyzed : ∀ c ∈ all, c.Analyzed) (hrun : search p = .ok id q) (hc : c ∈ all)
    (hm : c.isMergejoinable = true) (hlr : c.HasOperands l r)
    (hl : l.relations.toFinset.Nonempty)
    (hd : Disjoint l.relations.toFinset r.relations.toFinset)
    (hone : r.relations.toFinset.card = 1) : p.Provides l ∧ p.Provides r := by
  obtain ⟨ids, p₁, hstart, -⟩ := PlanM.bind_eq_ok.mp hrun
  have hextends := (sameOutlines_start hstart).extends
  have hshows := (start_moves PlanM.showsSame_addScans).of_ok hstart
  have hsearched : Searched all p p₁ := {
    settled := hp.of_extends hextends
    analyzed := hanalyzed
    sound := ((start_moves PlanM.steps_addScans).of_ok hstart hsound).2
    planned := allPlanned_start hsound hjoins hstart
    shown := hshows.provides }
  have hrequired := (hanalyzed c hc).toFinset_required hlr
  have hsize : 2 ≤ c.required.size := by
    rw [(hp.covers.ascending c hc).size_eq, hrequired, Finset.card_union_of_disjoint hd, hone]
    have hpos := hl.card_pos
    omega
  have hclique : c.required.toFinset ⊆ positions p := by
    intro x hx
    obtain ⟨o, ho, hrelid⟩ := hp.covers.built c hc hsize x hx
    obtain ⟨s, hs, rfl⟩ := List.mem_map.mp ho
    exact mem_positions_iff.mpr ⟨s, mem_baseRelations hp.consistent hjoins hs, hrelid⟩
  -- The clique is what the equation reads, and the only relation of one side the
  -- member that is joined last.
  obtain ⟨y, hy⟩ := Finset.card_eq_one.mp hone
  have hwanted := wantsClique_graph (hp.toHasClauses.of_extends hextends) hc
  have hshown : SidesShown all p l.relations.toFinset y :=
    (Searched.accounts all p).search hsound.consistent hstart hsearched hclique hwanted hrun _
      (hrequired ▸ Finset.subset_union_left) hl y
      (hrequired ▸ Finset.mem_union_right _ (hy ▸ Finset.mem_singleton_self y))
      (Finset.disjoint_singleton_right.mp (hy ▸ hd))
  exact hshown c hc hm l r hlr rfl hy

end JoinSearch

end QueryPlanner
