/-
  QueryPlanner.Proofs.Planner.Widths

  The width of a relation is that of the columns of its base relations.

  A base relation has the width of the columns it had when its size was
  estimated last, and a join adds up the widths of its inputs as they are when
  it is made.  Columns only come in a session, so a size that was estimated
  with the columns of the end stays right whatever is asked for in between, and
  by induction on the joins made each of them has the sum, in whatever order
  they were made.  What 32 bits have no room for is refused.
-/

import QueryPlanner.Pattern.Regex.Engine
import QueryPlanner.Proofs.Planner.Room

namespace QueryPlanner

open Outline Planner

variable {α : Type} {p p' q : Planner α} {r s : Relation α} {relid : RtIndex}

/-! ## Columns only come -/

/-- The same members and the same columns, with perhaps more behind them. -/
structure Relation.Widens (r s : Relation α) : Prop where
  kind_eq : s.kind = r.kind
  relids_eq : s.relids = r.relids
  columns : r.target <+: s.target

namespace Relation.Widens

theorem refl (r : Relation α) : r.Widens r := ⟨rfl, rfl, List.prefix_refl _⟩

theorem trans {t : Relation α} (h : r.Widens s) (h' : s.Widens t) : r.Widens t :=
  ⟨h'.kind_eq.trans h.kind_eq, h'.relids_eq.trans h.relids_eq, h.columns.trans h'.columns⟩

theorem relid?_eq (h : r.Widens s) : s.relid? = r.relid? := by
  rw [Relation.relid?, Relation.relid?, h.kind_eq, h.relids_eq]

end Relation.Widens

theorem Relation.Edit.widens [Number α] (f : Edit α) (r : Relation α) : r.Widens (f r) := by
  refine ⟨f.apply_kind r, f.apply_relids r, ?_⟩
  rcases f.target_cases r with heq | ⟨e, heq⟩
  · exact heq ▸ List.prefix_refl _
  · exact heq ▸ TargetList.self_prefix_add

namespace Planner

/-- Statistics and entries are the same, and every relation is there with its
number and no less columns. -/
structure Widens (p q : Planner α) : Prop where
  statistics_eq : q.statistics = p.statistics
  rangeTable_eq : q.rangeTable = p.rangeTable
  relations : ∀ id r, p.relation id = .ok r → ∃ s, q.relation id = .ok s ∧ r.Widens s

namespace Widens

theorem refl (p : Planner α) : Widens p p := ⟨rfl, rfl, fun _ r hr => ⟨r, hr, .refl r⟩⟩

theorem trans (h : Widens p p') (h' : Widens p' q) : Widens p q where
  statistics_eq := h'.statistics_eq.trans h.statistics_eq
  rangeTable_eq := h'.rangeTable_eq.trans h.rangeTable_eq
  relations id r hr := by
    obtain ⟨s, hs, hrs⟩ := h.relations id r hr
    obtain ⟨t, ht, hst⟩ := h'.relations id s hs
    exact ⟨t, ht, hrs.trans hst⟩

theorem built (h : Widens p q) (hr : r ∈ p.relations) (hrelid : r.relid? = some relid) :
    Built q.outlines relid := by
  obtain ⟨id, hid⟩ := List.mem_iff_getElem?.mp hr
  obtain ⟨s, hs, hrs⟩ := h.relations id r (relation_eq_ok_iff.mpr hid)
  exact ⟨s.outline, outline_mem hs, hrs.relid?_eq.trans hrelid⟩

/-- What rows are wide for stays as it is. -/
theorem exactWidth_eq (h : Widens p q) (hrelid : s.relid? = r.relid?)
    (htarget : s.target = r.target) :
    q.exactWidth s = p.exactWidth r := by
  have hcolumn (relation : Option Oid) (e : Expr α) :
      q.columnWidth relation e = p.columnWidth relation e := by
    unfold columnWidth recordedWidth?
    rw [h.statistics_eq]
  have hstored : q.storedOf s = p.storedOf r := by
    simp only [storedOf, hrelid, entry, h.rangeTable_eq]
  simp only [exactWidth, htarget, hstored, hcolumn]

end Widens

/-! ## Widths towards the end of a session -/

/-- The width of the base relation of a position, in exact numbers. -/
def exactWidthAt (q : Planner α) (relid : RtIndex) : Int :=
  match q.baseRelation? relid with
  | some r => q.exactWidth r
  | none => 0

/-- The base relation of a position has the columns that it has in the end, and
their width. -/
def Measured (q : Planner α) (relid : RtIndex) (p : Planner α) : Prop :=
  ∃ id r s, p.relation id = .ok r ∧ q.relation id = .ok s ∧ r.relid? = some relid ∧
    r.target = s.target ∧ r.width.toInt = q.exactWidth s

/-- Every join has the width of the base relations that it is made of. -/
def JoinsAddUp (q p : Planner α) : Prop :=
  ∀ r ∈ p.relations, r.kind = .join →
    r.width.toInt = ∑ relid ∈ r.relids.toFinset, q.exactWidthAt relid

/-- A base relation is that of some position. -/
theorem exists_relid?_eq (hp : Consistent p.outlines) (hr : r ∈ p.relations) (hk : r.kind = .base) :
    ∃ relid, r.relid? = some relid ∧ r.relids = .singleton relid := by
  have hro : r.outline ∈ p.outlines := List.mem_map_of_mem hr
  obtain ⟨relid, hrelids⟩ := hp.relids_of_base r.outline hro hk
  exact ⟨relid, (hp.relid?_eq_some_iff hro).mpr ⟨hk, hrelids⟩, hrelids⟩

theorem exactWidthAt_eq (hq : Consistent q.outlines) (hr : r ∈ q.relations)
    (hrelid : r.relid? = some relid) : q.exactWidthAt relid = q.exactWidth r := by
  rw [exactWidthAt]
  cases hbase : q.baseRelation? relid with
  | none => exact absurd ⟨r.outline, List.mem_map_of_mem hr, hrelid⟩ (baseRelation?_eq_none_iff.mp hbase)
  | some s =>
      have hs := mem_of_baseRelation? hbase
      rw [eq_of_relid? hq hr hs hrelid (baseRelation?_eq_some hbase).2]

/-- Base relations that have the width of their columns have it by position. -/
theorem toInt_widthAt (hbase : ∀ r ∈ q.baseRelations, r.width.toInt = q.exactWidth r)
    (relid : RtIndex) :
    (q.widthAt relid).toInt = q.exactWidthAt relid := by
  rw [widthAt, exactWidthAt]
  cases hr : q.baseRelation? relid with
  | none => exact Int32.toInt_zero
  | some r =>
      exact hbase r (mem_baseRelations_iff.mpr
        ⟨mem_of_baseRelation? hr, relid, (baseRelation?_eq_some hr).2⟩)

/-- A measured relation has the width of the end. -/
theorem Measured.width_eq (h : Measured q relid p) (hp : Consistent p.outlines)
    (hq : Consistent q.outlines) (hwidens : Widens p q) (hr : r ∈ p.relations)
    (hrelid : r.relid? = some relid) : r.width.toInt = q.exactWidthAt relid := by
  obtain ⟨id, r', s, hr', hs, hrelid', -, hwidth⟩ := h
  obtain rfl := eq_of_relid? hp hr (mem_of_relation hr') hrelid hrelid'
  obtain ⟨s', hs', hrs⟩ := hwidens.relations id r hr'
  obtain rfl := Except.ok.inj (hs.symm.trans hs')
  rw [hwidth, exactWidthAt_eq hq (mem_of_relation hs) (hrs.relid?_eq.trans hrelid)]

/-- Where all is measured, base relations have the width of their columns. -/
theorem width_eq_exactWidth (hq : Consistent q.outlines)
    (hmeasured : ∀ relid, Built q.outlines relid → Measured q relid q) (hr : r ∈ q.baseRelations) :
    r.width.toInt = q.exactWidth r := by
  obtain ⟨hmem, relid, hrelid⟩ := mem_baseRelations_iff.mp hr
  have hb : Built q.outlines relid := ⟨r.outline, List.mem_map_of_mem hmem, hrelid⟩
  rw [← exactWidthAt_eq hq hmem hrelid]
  exact (hmeasured relid hb).width_eq hq hq (.refl q) hmem hrelid

/-- When all that will be built is measured, every relation has the width of the
base relations that it is made of. -/
theorem addsUp_exactWidthAt (hp : Consistent p.outlines) (hq : Consistent q.outlines)
    (hwidens : Widens p q) (hmeasured : ∀ relid, Built q.outlines relid → Measured q relid p)
    (hjoins : JoinsAddUp q p) : AddsUp q.exactWidthAt p := by
  intro r hr
  cases hk : r.kind with
  | join => exact hjoins r hr hk
  | base =>
      obtain ⟨relid, hrelid, hrelids⟩ := exists_relid?_eq hp hr hk
      have hset : r.relids.toFinset = {relid} := congrArg RelSet.toFinset hrelids
      rw [hset, Finset.sum_singleton]
      exact (hmeasured relid (hwidens.built hr hrelid)).width_eq hp hq hwidens hr hrelid

/-! ## Steps of a session -/

/-- A step after which what was measured is measured, and joins that added up add
up, with respect to any session that comes later. -/
structure Remeasures (p p' : Planner α) : Prop where
  consistent : Consistent p'.outlines
  widens : Widens p p'
  measured : ∀ q, Widens p' q → ∀ relid, Measured q relid p → Measured q relid p'
  joinsAddUp : ∀ q, Consistent q.outlines → Widens p' q →
    (∀ relid, Built q.outlines relid → Measured q relid p) → JoinsAddUp q p → JoinsAddUp q p'

/-- Steps from consistent sessions on. -/
def StepsMeasured (p p' : Planner α) : Prop := Consistent p.outlines → Remeasures p p'

instance : IsPreorder (Planner α) StepsMeasured where
  refl p hp := ⟨hp, .refl p, fun _ _ _ h => h, fun _ _ _ _ h => h⟩
  trans p p' p'' h h' hp := by
    have hstep := h hp
    have hstep' := h' hstep.consistent
    refine ⟨hstep'.consistent, hstep.widens.trans hstep'.widens, fun q hq relid hm => ?_,
      fun q hcons hq hm hj => ?_⟩
    · have hq' := hstep'.widens.trans hq
      exact hstep'.measured q hq relid (hstep.measured q hq' relid hm)
    · have hq' := hstep'.widens.trans hq
      exact hstep'.joinsAddUp q hcons hq
        (fun relid hb => hstep.measured q hq' relid (hm relid hb)) (hstep.joinsAddUp q hcons hq' hm hj)

/-- A step that changes no relation. -/
theorem stepsMeasured_of_relations_eq (h : p'.relations = p.relations)
    (hstatistics : p'.statistics = p.statistics) (htable : p'.rangeTable = p.rangeTable) :
    StepsMeasured p p' := by
  have hrelation (id : Nat) : p'.relation id = p.relation id := by
    rw [relation, relation, h]
  refine fun hp => ⟨?_, ⟨hstatistics, htable, fun id r hr => ⟨r, (hrelation id).trans hr, .refl r⟩⟩,
    fun q _ relid hm => ?_, fun q _ _ _ hj => ?_⟩
  · rw [outlines, h]
    exact hp
  · obtain ⟨id, r, s, hr, hrest⟩ := hm
    exact ⟨id, r, s, (hrelation id).trans hr, hrest⟩
  · rw [JoinsAddUp, h]
    exact hj

/-- A step that adds a relation, which adds up if it is a join. -/
theorem stepsMeasured_addRelation (hextends : Extends p (p.addRelation r))
    (hr : ∀ q, Consistent p.outlines → Consistent q.outlines → Widens p q →
      (∀ relid, Built q.outlines relid → Measured q relid p) → JoinsAddUp q p → r.kind = .join →
      r.width.toInt = ∑ relid ∈ r.relids.toFinset, q.exactWidthAt relid) :
    StepsMeasured p (p.addRelation r) := by
  intro hp
  have hwidens : Widens p (p.addRelation r) :=
    ⟨rfl, rfl, fun _ s hs => ⟨s, relation_addRelation hs, .refl s⟩⟩
  refine ⟨hp.grows hextends.1, hwidens, fun q _ relid hm => ?_, fun q hcons hq hm hj => ?_⟩
  · obtain ⟨id, s, t, hs, hrest⟩ := hm
    exact ⟨id, s, t, relation_addRelation hs, hrest⟩
  · exact List.forall_mem_append.mpr ⟨hj, List.forall_mem_singleton.mpr
      (hr q hp hcons (hwidens.trans hq) hm hj)⟩

section Revisions

variable [Number α] {f : Relation.Edit α}

theorem widens_revise (id : Nat) (f : Relation.Edit α) (p : Planner α) :
    Widens p (modifyRelation id f p) := by
  refine ⟨rfl, rfl, fun k r hr => ⟨_, relation_modifyRelation hr, ?_⟩⟩
  split
  · exact f.widens r
  · exact .refl r

/-- A step that revises a relation, and estimates its width by its columns if it
does so at all. -/
theorem stepsMeasured_revise {id : Nat} (hf : f.Estimated p)
    (hwidth : ∀ r, Consistent p.outlines → p.relation id = .ok r → (f r).width = r.width ∨
      r.kind = .base ∧ (f r).target = r.target ∧ (f r).width.toInt = p.exactWidth r) :
    StepsMeasured p (modifyRelation id f p) := by
  intro hp
  have hwidens := widens_revise id f p
  have hchange : Change [] p (modifyRelation id f p) := .revise p id hf
  refine ⟨hchange.consistent hp, hwidens, fun q hq relid hm => ?_,
    fun q hcons hq hm hj => ?_⟩
  · obtain ⟨k, r, s, hr, hs, hrelid, htarget, hrwidth⟩ := hm
    have hr' := relation_modifyRelation (k := id) (f := f) hr
    by_cases hk : id = k
    · rw [if_pos hk] at hr'
      have hrevised := f.widens r
      -- The columns were those of the end, so they are now.
      obtain ⟨s', hs', hws⟩ := hq.relations k (f r) hr'
      obtain rfl := Except.ok.inj (hs.symm.trans hs')
      have htarget' : (f r).target = s.target :=
        (hws.columns.eq_of_length_le (htarget ▸ hrevised.columns.length_le))
      refine ⟨k, f r, s, hr', hs, hrevised.relid?_eq.trans hrelid, htarget', ?_⟩
      rcases hwidth r hp (hk ▸ hr) with hsame | ⟨-, -, hnew⟩
      · exact hsame ▸ hrwidth
      · rw [hnew, ← (hwidens.trans hq).exactWidth_eq (hws.relid?_eq.trans hrevised.relid?_eq)
          htarget.symm]
    · rw [if_neg hk] at hr'
      exact ⟨k, r, s, hr', hs, hrelid, htarget, hrwidth⟩
  · intro s hs hkind
    rcases mem_modifyRelation hs with hs | ⟨r, hr, rfl⟩
    · exact hj s hs hkind
    · rw [f.apply_kind] at hkind
      rw [f.apply_relids]
      rcases hwidth r hp hr with hsame | ⟨hbase, -⟩
      · exact hsame ▸ hj r (mem_of_relation hr) hkind
      · exact nomatch hkind.symm.trans hbase

/-- A step that leaves widths alone. -/
theorem stepsMeasured_revise_of_width_eq (id : Nat) (hf : f.Estimated p)
    (hwidth : ∀ r, (f r).width = r.width) :
    StepsMeasured p (modifyRelation id f p) :=
  stepsMeasured_revise hf fun r _ _ => .inl (hwidth r)

end Revisions

/-- A join adds up the widths of its inputs, which have no base relation in
common. -/
theorem stepsMeasured_ofJoin [Number α] {outer inner : Nat} {o i : Relation α} {fraction : α}
    {width : Int32} (ho : p.relation outer = .ok o) (hi : p.relation inner = .ok i)
    (hd : o.relids.overlaps i.relids = false)
    (hnew : ∀ o' ∈ p.outlines, o'.kind = .join → o'.relids ≠ o.relids.union i.relids)
    (hwidth : o.pairWidth i = .ok width) :
    StepsMeasured p (p.addRelation (Relation.ofJoin p.relations.length o i fraction width)) :=
  stepsMeasured_addRelation (PlanM.extends_ofJoin ho hi hd hnew) fun _ hp hq hwidens hm hj _ =>
    (Relation.toInt_of_pairWidth hwidth).trans
      ((addsUp_exactWidthAt hp hq hwidens hm hj).add ho hi hd)

end Planner

/-! ## Builders -/

namespace PlanM

variable [Number α]

theorem stepsMeasured_baseRelation (relid : RtIndex) :
    (baseRelation relid : PlanM α Nat).Moves StepsMeasured := by
  refine baseRelation_moves fun p r hnew hr => ?_
  refine stepsMeasured_addRelation (extends_ofEntry hnew hr) fun _ _ _ _ _ _ hk => ?_
  have hbase : r.kind = .base := congrArg Outline.kind (ofEntry_eq_ok hr).1
  exact nomatch hbase.symm.trans hk

theorem stepsMeasured_addTarget (relid : RtIndex) (e : Expr α) :
    (addTarget relid e : PlanM α Unit).Moves StepsMeasured :=
  (stepsMeasured_baseRelation relid).bind fun id =>
    .modify fun _ => stepsMeasured_revise_of_width_eq id (f := .target e) trivial fun _ => rfl

theorem stepsMeasured_estimateSize (relid : RtIndex) :
    (estimateSize relid : PlanM α Unit).Moves StepsMeasured := by
  intro p
  rcases estimateSize_cases relid p with ⟨e, h⟩ | ⟨r, rows, width, hr, hwidth, h⟩
  · rw [final_of_error h]
    exact refl_of StepsMeasured p
  · rw [final_of_ok h]
    obtain ⟨hmem, hrelid⟩ := baseRelation?_eq_some hr
    refine stepsMeasured_revise ⟨r, hwidth⟩ fun s hp hs => .inr ?_
    -- The relation with the number is the one that was estimated.
    obtain rfl := Except.ok.inj (hs.symm.trans (relation_id hp (mem_of_baseRelation? hr)))
    exact ⟨((hp.relid?_eq_some_iff hmem).mp hrelid).1, rfl, rowWidth_eq_ok hwidth⟩

theorem stepsMeasured_distribute (e : Expr α) :
    (distribute e : PlanM α (Clause α)).Moves StepsMeasured :=
  distribute_moves (R := StepsMeasured) (fun _ => stepsMeasured_of_relations_eq rfl rfl rfl)
    (fun _ _ => stepsMeasured_of_relations_eq rfl rfl rfl)
    stepsMeasured_baseRelation stepsMeasured_addTarget
    (fun c id _ => stepsMeasured_revise_of_width_eq id (f := .restriction c) trivial fun _ => rfl)
    (fun c others id _ =>
      stepsMeasured_revise_of_width_eq id (f := .filing c others) trivial fun _ => rfl) e

theorem stepsMeasured_joinRelation (outer inner : Nat) :
    (joinRelation outer inner : PlanM α (Nat × List (Clause α))).Moves StepsMeasured :=
  joinRelation_moves fun _ _ _ _ _ => stepsMeasured_ofJoin

theorem stepsMeasured_offer (id : Nat) (paths : List (Path α)) (p : Planner α) :
    StepsMeasured p (modifyRelation id (.offer paths) p) :=
  stepsMeasured_revise_of_width_eq id (f := .offer paths) trivial fun _ => rfl

theorem stepsMeasured_addScans (id : Nat) : (addScans id : PlanM α Unit).Moves StepsMeasured :=
  addScans_moves stepsMeasured_offer id

theorem stepsMeasured_addJoins (join outer inner : Nat) (restrictions : List (Clause α))
    (type : JoinType) :
    (addJoins join outer inner restrictions type : PlanM α Unit).Moves StepsMeasured :=
  addJoins_moves stepsMeasured_offer join outer inner restrictions type

end PlanM

/-! ## Sessions -/

variable [Number α]

theorem Request.stepsMeasured_run (r : Request α) : r.run.Moves StepsMeasured :=
  r.run_moves PlanM.stepsMeasured_baseRelation PlanM.stepsMeasured_addTarget
    PlanM.stepsMeasured_estimateSize (fun e _ => PlanM.stepsMeasured_distribute e)
    PlanM.stepsMeasured_joinRelation PlanM.stepsMeasured_addScans PlanM.stepsMeasured_addJoins
    (fun _ paths _ id p => PlanM.stepsMeasured_offer id paths p)
    (fun _ _ => stepsMeasured_of_relations_eq rfl rfl rfl)

/-- From consistent sessions on, any requests keep what is measured. -/
theorem stepsMeasured_session (requests : List (Request α)) (p : Planner α) :
    StepsMeasured p (session requests p).2 := by
  induction requests generalizing p with
  | nil => exact refl_of StepsMeasured p
  | cons r rest ih =>
      have hserve : StepsMeasured p (r.serve p).2 := by
        rw [r.serve_snd]
        exact r.stepsMeasured_run p
      exact trans_of StepsMeasured hserve (ih _)

/-- A size that is estimated is measured, if the columns are those of the end. -/
theorem measured_of_estimateSize {t : Relation α} (hp : Consistent p.outlines)
    (hq : Consistent q.outlines) (hr : p.baseRelation? relid = some r)
    (hdone : ((Request.estimateSize relid).serve p).1.isRefused = false)
    (hwidens : Widens ((Request.estimateSize relid).serve p).2 q)
    (ht : q.baseRelation? relid = some t) (htarget : r.target = t.target) :
    Measured q relid ((Request.estimateSize relid).serve p).2 := by
  rcases PlanM.estimateSize_cases relid p with ⟨e, h⟩ | ⟨r', rows, width, hr', hwidth, h⟩
  · rw [Request.serve, Request.run, PlanM.bind_of_error h] at hdone
    cases hdone
  · obtain rfl := Option.some.inj (hr.symm.trans hr')
    have hserve : ((Request.estimateSize relid).serve p).2 =
        modifyRelation r.id (.size rows width) p := by
      rw [Request.serve, Request.run, PlanM.bind_of_ok h]
      rfl
    rw [hserve] at hwidens ⊢
    have hrelid := (baseRelation?_eq_some hr).2
    have hestimated := relation_modifyRelation (k := r.id) (f := .size rows width)
      (relation_id hp (mem_of_baseRelation? hr))
    rw [if_pos rfl] at hestimated
    -- It is the base relation of the position in the end as well.
    obtain ⟨s, hs, hws⟩ := hwidens.relations r.id _ hestimated
    obtain rfl : s = t := eq_of_relid? hq (mem_of_relation hs) (mem_of_baseRelation? ht)
      (hws.relid?_eq.trans hrelid) (baseRelation?_eq_some ht).2
    have hexact : q.exactWidth s = p.exactWidth r :=
      ((widens_revise r.id (.size rows width) p).trans hwidens).exactWidth_eq hws.relid?_eq
        htarget.symm
    exact ⟨r.id, _, s, hestimated, hs, hrelid, htarget, hexact ▸ rowWidth_eq_ok hwidth⟩

/-- Some request has estimated the size of a base relation, which had these
columns then. -/
def EstimatedWith (requests : List (Request α)) (p : Planner α) (relid : RtIndex)
    (columns : TargetList α) : Prop :=
  ∃ before after, requests = before ++ .estimateSize relid :: after ∧
    ((session before p).2.baseRelation? relid).map (·.target) = some columns ∧
    ((Request.estimateSize relid).serve (session before p).2).1.isRefused = false

/-- The size of a base relation is measured behind the requests that have
estimated it with the columns of the end. -/
theorem measured_of_estimatedWith {requests after : List (Request α)} {t : Relation α}
    (hp : Consistent p.outlines) (hq : q = (session (requests ++ after) p).2)
    (ht : q.baseRelation? relid = some t) (h : EstimatedWith requests p relid t.target) :
    Measured q relid (session requests p).2 := by
  obtain ⟨before, between, rfl, hcolumns, hdone⟩ := h
  obtain ⟨r, hr, htarget⟩ := Option.map_eq_some_iff.mp hcolumns
  have hbefore := (stepsMeasured_session before p hp).consistent
  have hserve := (Request.estimateSize relid).stepsMeasured_run (session before p).2 hbefore
  rw [← Request.serve_snd] at hserve
  have hbetween := stepsMeasured_session between _ hserve.consistent
  have hafter := stepsMeasured_session after _ hbetween.consistent
  rw [session_append, session_append] at hq
  rw [session_append]
  subst hq
  have hestimated := measured_of_estimateSize hbefore hafter.consistent hr hdone
    (hbetween.widens.trans hafter.widens) ht htarget
  exact hbetween.measured _ hafter.widens relid hestimated

/-- **Widths add up.**  If all base relations of a session have had their size
estimated with the columns of its end, before there were joins, then each of
them has the width of its columns, and each join that of the base relations it
is made of, however it was made.  At any time a size or a join that can be
estimated otherwise is refused just when its exact width is past 32 bits, and
leaves the session as it was. -/
theorem widths_add_up (settings : Settings α) (operators : OperatorCatalog α)
    (catalog : RelationSource α) (statistics : StatisticsProvider α)
    (rangeTable : List RangeTableEntry) (before after : List (Request α)) :
    let start : Planner α := .start settings operators catalog statistics rangeTable
    let p := (session before start).2
    let q := (session after p).2
    (p.joinRelations = [] →
      (∀ relid r, q.baseRelation? relid = some r → EstimatedWith before start relid r.target) →
      (∀ r ∈ q.baseRelations, r.width.toInt = q.exactWidth r) ∧
      ∀ r ∈ q.joinRelations,
        r.width.toInt = ∑ relid ∈ r.relids.toFinset, q.exactWidthAt relid ∧
        r.width.toInt = ∑ relid ∈ r.relids.toFinset, (q.widthAt relid).toInt) ∧
    (∀ relid r fraction, q.baseRelation? relid = some r →
      Selectivity.clauseList q r.restrictionExprs (some relid) .inner = .ok fraction →
      q.exactWidth r < 2147483648 ∧ (∃ q', PlanM.estimateSize relid q = .ok () q') ∨
        2147483648 ≤ q.exactWidth r ∧ PlanM.estimateSize relid q = .error .overflow q) ∧
    ∀ outer inner o i fraction, q.relation outer = .ok o → q.relation inner = .ok i →
      o.relids.overlaps i.relids = false → q.joinRelation? (o.relids.union i.relids) = none →
      Selectivity.clauseList q ((Relation.restrictionsOfJoin
        (o.relids.union i.relids) o i).map (·.expr)) none .inner = .ok fraction →
      o.width.toInt + i.width.toInt < 2147483648 ∧
          (∃ join q', PlanM.joinRelation outer inner q = .ok join q') ∨
        2147483648 ≤ o.width.toInt + i.width.toInt ∧
          PlanM.joinRelation outer inner q = .error .overflow q := by
  intro start p q
  have happend : q = (session (before ++ after) start).2 := by
    rw [session_append]
  have hnonneg : q.WidthsNonneg :=
    happend ▸ widthsNonneg_session settings operators catalog statistics rangeTable _
  refine ⟨fun hjoins hestimated => ?_, fun relid r fraction hr hf => ?_,
    fun outer inner o i fraction ho hi hd hnew hf => PlanM.joinRelation_room hnonneg ho hi hd hnew hf⟩
  · -- All that is built in the end is measured before there are joins.
    have hstart : Consistent start.outlines := consistent_nil
    have hp := (stepsMeasured_session before start hstart).consistent
    have hsteps := stepsMeasured_session after p hp
    have hq : Consistent q.outlines := hsteps.consistent
    have hmeasured (relid : RtIndex) (hb : Built q.outlines relid) : Measured q relid p := by
      cases hr : q.baseRelation? relid with
      | none => exact absurd hb (baseRelation?_eq_none_iff.mp hr)
      | some r => exact measured_of_estimatedWith hstart happend hr (hestimated relid r hr)
    have hnone : JoinsAddUp q p := fun r hr hk => by
      have hmem : r ∈ p.joinRelations := mem_joinRelations_iff.mpr ⟨hr, hk⟩
      exact absurd (hjoins ▸ hmem) List.not_mem_nil
    -- So it stays, and the joins add up on the way.
    have hend (relid : RtIndex) (hb : Built q.outlines relid) : Measured q relid q :=
      hsteps.measured q (.refl q) relid (hmeasured relid hb)
    have hadd : JoinsAddUp q q := hsteps.joinsAddUp q hq (.refl q) hmeasured hnone
    have hbase (r : Relation α) (hr : r ∈ q.baseRelations) : r.width.toInt = q.exactWidth r :=
      width_eq_exactWidth hq hend hr
    refine ⟨hbase, fun r hr => ?_⟩
    obtain ⟨hmem, hk⟩ := mem_joinRelations_iff.mp hr
    have hwidth := hadd r hmem hk
    refine ⟨hwidth, ?_⟩
    rw [hwidth, Finset.sum_congr rfl fun relid _ => toInt_widthAt hbase relid]
  · have hbuilt : Built q.outlines relid := by
      obtain ⟨ho, hrelid⟩ := baseRelation?_eq_some hr
      exact ⟨r.outline, ho, hrelid⟩
    exact PlanM.estimateSize_room hr (exists_entry_session happend hbuilt) hf

section Example

local instance exactWidths : Number Rat := .rational id

/-- A stored relation of columns that are as wide as given, and a subquery. -/
def startOfWidth (width : Int32) : Planner Rat :=
  .start .standard (.builtin Regex.engine) (Catalog.source ⟨[(100, ⟨"t", 10, 1000, []⟩)]⟩)
    ⟨fun _ _ => some ⟨0, width, -1, []⟩, fun _ _ => none⟩ [.stored 100, .subquery]

/-- A column of the stored relation and one of the subquery. -/
def columnsSized : List (Request Rat) :=
  [.addTarget 1 (.var ⟨1, 1, .int4, -1⟩), .addTarget 2 (.var ⟨2, 1, .text, -1⟩),
    .estimateSize 1, .estimateSize 2]

/-- Ten bytes on record, and as many as a text has. -/
theorem widths_add_up_columnsSized :
    let p := (session columnsSized (startOfWidth 10)).2
    let q := (session [.joinRelation 0 1] p).2
    p.joinRelations = [] ∧
    (∀ relid r, q.baseRelation? relid = some r →
      EstimatedWith columnsSized (startOfWidth 10) relid r.target) ∧
    ∃ r ∈ q.joinRelations, r.width = 42 ∧
      r.width.toInt = ∑ relid ∈ r.relids.toFinset, q.exactWidthAt relid := by
  have hadd := widths_add_up .standard (.builtin Regex.engine)
    (Catalog.source ⟨[(100, ⟨"t", 10, 1000, []⟩)]⟩)
    ⟨fun _ _ => some ⟨0, (10 : Int32), (-1 : Rat), []⟩, fun _ _ => none⟩ [.stored 100, .subquery]
    columnsSized [.joinRelation 0 1]
  intro p q
  have hjoins : p.joinRelations = [] := List.isEmpty_iff.mp (by decide +kernel)
  have hrelids : q.relations.map (·.relid?) = [some 1, some 2, none] := by decide +kernel
  have hestimated (relid : RtIndex) (r : Relation Rat) (hr : q.baseRelation? relid = some r) :
      EstimatedWith columnsSized (startOfWidth 10) relid r.target := by
    have hmem : some relid ∈ q.relations.map (·.relid?) :=
      List.mem_map.mpr ⟨r, mem_of_baseRelation? hr, (baseRelation?_eq_some hr).2⟩
    have hcolumns : (q.baseRelation? relid).map (·.target) = some r.target := by rw [hr]; rfl
    rw [hrelids] at hmem
    have hcases : relid = 1 ∨ relid = 2 := by simpa using hmem
    rcases hcases with rfl | rfl
    · refine ⟨columnsSized.take 2, [.estimateSize 2], rfl, ?_, by decide +kernel⟩
      rw [← hcolumns]
      decide +kernel
    · refine ⟨columnsSized.take 3, [], rfl, ?_, by decide +kernel⟩
      rw [← hcolumns]
      decide +kernel
  obtain ⟨-, hwidths⟩ := hadd.1 hjoins hestimated
  have hwidth : q.joinRelations.map (·.width) = [42] := by decide +kernel
  obtain ⟨r, hr, hr42⟩ := List.mem_map.mp (hwidth ▸ List.mem_singleton_self 42)
  exact ⟨hjoins, hestimated, r, hr, hr42, (hwidths r hr).1⟩

/-- The size of a relation cannot be estimated for want of room. -/
def refusesSize (p : Planner Rat) (relid : RtIndex) : Bool :=
  match PlanM.estimateSize relid p with
  | .error .overflow _ => true
  | _ => false

/-- Two columns of the greatest width that can be on record are past 32 bits, and
the size of their relation is refused. -/
theorem refusesSize_of_greatest :
    let q := (session [.addTarget 1 (.var ⟨1, 1, .text, -1⟩),
      .addTarget 1 (.var ⟨1, 2, .text, -1⟩)] (startOfWidth 2147483647)).2
    q.baseRelations.map q.exactWidth = [4294967294] ∧ refusesSize q 1 = true := by
  decide +kernel

end Example

end QueryPlanner
