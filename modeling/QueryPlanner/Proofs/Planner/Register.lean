/-
  QueryPlanner.Proofs.Planner.Register

  One relation for each set of members.

  In a `Registered` session relations are known by their numbers and by their
  members, joins have several members, and output columns are numbered in
  order.  Every change keeps it so.  A join that is asked for again is the one
  there is, whichever input comes first.
-/

import QueryPlanner.Proofs.JoinSearch.Connected
import QueryPlanner.Proofs.Planner.Filing
import QueryPlanner.Proofs.Planner.Requested

namespace QueryPlanner

open Outline Planner PlanM

variable {α : Type} {p q : Planner α} {r o i : Relation α} {asked : List RtIndex}
  {id outer inner : Nat} {restrictions : List (Clause α)}

/-! ## Registered relations -/

/-- Several members in a join, and output columns numbered in order, of which a
base relation has each once. -/
structure Relation.Registered (r : Relation α) : Prop where
  joined : r.kind = .join → 2 ≤ r.relids.toFinset.card
  numbered : r.target.Numbered
  distinct : r.kind = .base → r.target.exprs.Nodup

/-- Consistent relations, each of them registered. -/
structure Planner.Registered (p : Planner α) : Prop where
  consistent : Consistent p.outlines
  relations : ∀ r ∈ p.relations, r.Registered

theorem Relation.registered_of_base (hk : r.kind = .base) (ht : r.target = []) : r.Registered where
  joined hj := by
    rw [hk] at hj
    exact nomatch hj
  numbered := by
    rw [ht]
    exact TargetList.numbered_nil
  distinct _ := by
    rw [ht]
    exact .nil

/-- Two sets with members, and without common ones, have several. -/
theorem Relation.registered_ofJoin [Number α] (hp : Consistent p.outlines)
    (ho : p.relation outer = .ok o) (hi : p.relation inner = .ok i)
    (hd : o.relids.overlaps i.relids = false) (fraction : α) (width : Int32) :
    (Relation.ofJoin id o i fraction width).Registered where
  joined _ := by
    have hdisjoint := RelSet.overlaps_eq_false_iff.mp hd
    have hone : 0 < o.relids.toFinset.card := (hp.nonempty _ (outline_mem ho)).card_pos
    have hone' : 0 < i.relids.toFinset.card := (hp.nonempty _ (outline_mem hi)).card_pos
    show 2 ≤ (o.relids.union i.relids).toFinset.card
    rw [RelSet.toFinset_union, Finset.card_union_of_disjoint hdisjoint]
    omega
  numbered := TargetList.numbered_join o.target i.target
  distinct := nofun

section Changes

variable [Number α]

theorem Relation.Registered.revise (h : r.Registered) (f : Relation.Edit α) :
    (f r).Registered where
  joined hk := by
    rw [f.apply_kind] at hk
    rw [f.apply_relids]
    exact h.joined hk
  numbered := by
    rcases f.target_cases r with htarget | ⟨e, htarget⟩
    · rw [htarget]
      exact h.numbered
    · rw [htarget]
      exact h.numbered.add
  distinct hk := by
    rw [f.apply_kind] at hk
    rcases f.target_cases r with htarget | ⟨e, htarget⟩
    · rw [htarget]
      exact h.distinct hk
    · rw [htarget]
      exact TargetList.nodup_exprs_add (h.distinct hk)

/-- Each change leaves the relations registered. -/
theorem Planner.Change.registered (h : Change asked p q) (hp : p.Registered) : q.Registered := by
  refine ⟨h.consistent hp.consistent, ?_⟩
  have hadd {r : Relation α} (hr : r.Registered) : ∀ s ∈ (p.addRelation r).relations, s.Registered :=
    List.forall_mem_append.mpr ⟨hp.relations, List.forall_mem_singleton.mpr hr⟩
  cases h with
  | base _ _ hr =>
      obtain ⟨houtline, htarget, -⟩ := ofEntry_eq_ok hr
      exact hadd (Relation.registered_of_base (congrArg Outline.kind houtline) htarget)
  | join fraction width ho hi hd =>
      exact hadd (Relation.registered_ofJoin hp.consistent ho hi hd fraction width)
  | @revise id f _ =>
      intro s hs
      rcases mem_modifyRelation hs with hs | ⟨r, hr, rfl⟩
      · exact hp.relations s hs
      · exact (hp.relations r (mem_of_relation hr)).revise f
  | identity | constant | order => exact hp.relations

/-- Relations are registered at every point of a session. -/
theorem registered_session (settings : Settings α) (operators : OperatorCatalog α)
    (catalog : RelationSource α) (statistics : StatisticsProvider α)
    (rangeTable : List RangeTableEntry) (requests : List (Request α)) :
    Planner.Registered
      (session requests (.start settings operators catalog statistics rangeTable)).2 := by
  have hstart : Planner.Registered (.start settings operators catalog statistics rangeTable) :=
    ⟨consistent_nil, nofun⟩
  exact session_keeps (fun _ _ _ hchange hp => hchange.registered hp) requests hstart

end Changes

/-! ## Base relations by their positions -/

theorem Planner.mem_baseRelids_iff {x : RtIndex} :
    x ∈ p.baseRelations.filterMap (·.relid?) ↔ Built p.outlines x := by
  rw [List.mem_filterMap, Built, outlines]
  constructor
  · rintro ⟨r, hr, hx⟩
    exact ⟨r.outline, List.mem_map_of_mem (mem_baseRelations_iff.mp hr).1, hx⟩
  · rintro ⟨o, ho, hx⟩
    obtain ⟨r, hr, rfl⟩ := List.mem_map.mp ho
    exact ⟨r, mem_baseRelations_iff.mpr ⟨hr, x, hx⟩, hx⟩

/-- Base relations are listed by their positions. -/
theorem Planner.relids_baseRelations (hp : Consistent p.outlines) :
    p.baseRelations.map (·.relids) =
      (p.baseRelations.filterMap (·.relid?)).map RelSet.singleton := by
  have hbase : ∀ r ∈ p.baseRelations, ∃ a, r.relid? = some a ∧ r.relids = .singleton a := by
    intro r hr
    obtain ⟨hmem, a, ha⟩ := mem_baseRelations_iff.mp hr
    have ho : r.outline ∈ p.outlines := List.mem_map_of_mem hmem
    exact ⟨a, ha, ((hp.relid?_eq_some_iff ho).mp ha).2⟩
  generalize p.baseRelations = bases at hbase
  induction bases with
  | nil => rfl
  | cons r rest ih =>
      obtain ⟨⟨a, ha, hrelids⟩, hrest⟩ := List.forall_mem_cons.mp hbase
      rw [List.map_cons, List.filterMap_cons_some ha, List.map_cons, hrelids, ih hrest]

/-! ## Joins by their members -/

namespace Planner

/-- The numbers kept of the joins are theirs. -/
theorem joinIds_eq_map (hp : Consistent p.outlines) : p.joinIds = p.joinRelations.map (·.id) := by
  have hsame : ∀ i ∈ p.joinIds, p.relations[i]?.map (·.id) = some i := by
    intro i hi
    rw [p.joinIds_eq, Relation.mem_joinIds_iff] at hi
    obtain ⟨r, hr, -⟩ := hi
    rw [hr, Option.map_some, id_of_relation hp (relation_eq_ok_iff.mpr hr)]
  rw [joinRelations, List.map_filterMap, List.filterMap_congr hsame, List.filterMap_some]

/-- The number kept for a position is that of its base relation. -/
theorem mem_baseIds_iff (hp : Consistent p.outlines) {x : RtIndex} :
    (x, id) ∈ p.baseIds ↔
      ∃ r, p.relations[id]? = some r ∧ r.kind = .base ∧ r.relids = .singleton x := by
  rw [p.baseIds_eq, Relation.mem_baseIds_iff]
  refine exists_congr fun r => and_congr_right fun hr => ?_
  exact hp.relid?_eq_some_iff (outline_mem (relation_eq_ok_iff.mpr hr))

/-- Every member of a relation is a base relation that is built. -/
theorem exists_base_of_mem (hp : Consistent p.outlines) (hr : r ∈ p.relations) {x : RtIndex}
    (hx : x ∈ r.relids.toFinset) : ∃ b ∈ p.baseRelations, b.relids = .singleton x := by
  have hbuilt : Built p.outlines x := hp.built r.outline (List.mem_map_of_mem hr) x hx
  have hlisted : RelSet.singleton x ∈ p.baseRelations.map (·.relids) := by
    rw [relids_baseRelations hp]
    exact List.mem_map_of_mem (mem_baseRelids_iff.mpr hbuilt)
  exact List.mem_map.mp hlisted

end Planner

/-! ## Joins asked for again -/

/-- A join that is built is found by its members. -/
theorem Planner.exists_joinRelation? {j : Outline α} (hp : Consistent p.outlines)
    (hj : p.outlines[id]? = some j) (hk : j.kind = .join) :
    ∃ r, p.joinRelation? j.relids = some r ∧ r.id = id := by
  have hmem : j ∈ p.outlines := List.mem_of_getElem? hj
  cases hr : p.joinRelation? j.relids with
  | none => exact absurd rfl (joinRelation?_eq_none_iff.mp hr j hmem hk)
  | some r =>
      obtain ⟨hro, hkind, hrelids⟩ := joinRelation?_eq_some hr
      have heq : r.outline = j := hp.eq_of_relids hro hmem (hkind.trans hk.symm) hrelids
      exact ⟨r, rfl, (congrArg Outline.id heq).trans (hp.id_eq id j hj)⟩

/-- Which clauses a join applies depends on the join info of its inputs. -/
theorem Relation.restrictionsOfJoin_congr {o' i' : Relation α} {relids : RelSet}
    (ho : o'.outline = o.outline) (hi : i'.outline = i.outline) :
    restrictionsOfJoin relids o' i' = restrictionsOfJoin relids o i := by
  have hoi : o'.joinInfo = o.joinInfo := congrArg Outline.joinInfo ho
  have hii : i'.joinInfo = i.joinInfo := congrArg Outline.joinInfo hi
  rw [restrictionsOfJoin, restrictionsOfJoin, hoi, hii]

namespace PlanM

variable [Number α]

theorem joinRelation_of_some (ho : p.relation outer = .ok o) (hi : p.relation inner = .ok i)
    (hd : o.relids.overlaps i.relids = false)
    (hr : p.joinRelation? (o.relids.union i.relids) = some r) :
    joinRelation outer inner p =
      .ok (r.id, Relation.restrictionsOfJoin (o.relids.union i.relids) o i) p := by
  rw [joinRelation, get_bind, ofExcept_bind_of_ok ho, ofExcept_bind_of_ok hi, hd,
    if_neg Bool.false_ne_true]
  simp only [hr]
  rfl

/-- Where the relations are still there, the join is found again. -/
theorem joinRelation_of_kept {p' : Planner α} (hp : Consistent p.outlines)
    (h : joinRelation outer inner p = .ok (id, restrictions) q) (hp' : Consistent p'.outlines)
    (hkept : ∀ (k : Nat) (o : Outline α), q.outlines[k]? = some o → p'.outlines[k]? = some o) :
    joinRelation outer inner p' = .ok (id, restrictions) p' := by
  obtain ⟨hext, o, i, j, ho, hi, hd, rfl, hj, hkind, hrelids, -⟩ := joinRelation_eq_ok hp h
  -- The inputs are still there, with the same outlines.
  obtain ⟨o', ho', hoo⟩ :=
    exists_relation (hkept _ _ (hext.1.getElem? (outlines_getElem? ho)))
  obtain ⟨i', hi', hii⟩ :=
    exists_relation (hkept _ _ (hext.1.getElem? (outlines_getElem? hi)))
  have hor : o'.relids = o.relids := congrArg Outline.relids hoo
  have hir : i'.relids = i.relids := congrArg Outline.relids hii
  obtain ⟨r, hr, rfl⟩ := exists_joinRelation? hp' (hkept _ _ hj) hkind
  have hfound : p'.joinRelation? (o'.relids.union i'.relids) = some r := by
    rw [hor, hir, ← hrelids]
    exact hr
  have hd' : o'.relids.overlaps i'.relids = false := by
    rw [hor, hir]
    exact hd
  rw [joinRelation_of_some ho' hi' hd' hfound, hor, hir,
    Relation.restrictionsOfJoin_congr hoo hii]

/-- The join is there for the inputs in either order, and asking for it again
changes nothing. -/
theorem joinRelation_again (hp : p.Filed)
    (h : joinRelation outer inner p = .ok (id, restrictions) q) :
    joinRelation outer inner q = .ok (id, restrictions) q ∧
      ∃ restrictions', joinRelation inner outer q = .ok (id, restrictions') q ∧
        restrictions'.Perm restrictions := by
  have hcons : Consistent p.outlines := hp.consistent
  obtain ⟨all, hfiling, -⟩ := hp.of_extends ((moves_joinRelation outer inner).of_ok h)
  have hq : Consistent q.outlines := hfiling.consistent
  have hagain := joinRelation_of_kept hcons h hq fun _ _ ho => ho
  refine ⟨hagain, ?_⟩
  obtain ⟨-, o, i, j, ho, hi, hd, rfl, hj, hkind, hrelids, -⟩ := joinRelation_eq_ok hq hagain
  obtain ⟨r, hr, rfl⟩ := exists_joinRelation? hq hj hkind
  have hswap : i.relids.union o.relids = o.relids.union i.relids :=
    (hq.ascending _ (outline_mem hi)).union_comm (hq.ascending _ (outline_mem ho))
  have hfound : q.joinRelation? (i.relids.union o.relids) = some r := by
    rw [hswap, ← hrelids]
    exact hr
  have hd' : i.relids.overlaps o.relids = false :=
    RelSet.overlaps_eq_false_iff.mpr (RelSet.overlaps_eq_false_iff.mp hd).symm
  refine ⟨_, joinRelation_of_some hi ho hd' hfound, ?_⟩
  rw [hswap]
  exact Relation.restrictionsOfJoin_perm hfiling.ids_nodup (hfiling.mem_all _ (outline_mem ho))
    (hfiling.mem_all _ (outline_mem hi))

end PlanM

/-! ## Sessions -/

section Sessions

variable [Number α]

/-- After any requests, failed ones included: relations are numbered by their
place; there is one base relation for each position that was asked for and
could be built, with this one member, and its number is kept for the position;
the numbers kept of the joins are those of all joins, each once; the joins are
told apart by their members, which are several base relations; output columns
are numbered in order, and a base relation shows no expression twice.  A join that is asked
for again, with its inputs in either order, is found with the same clauses, and
nothing changes. -/
theorem register_of_session {settings : Settings α} {operators : OperatorCatalog α}
    {catalog : RelationSource α} {statistics : StatisticsProvider α}
    {rangeTable : List RangeTableEntry} {requests : List (Request α)} {log : List (Event α)}
    {p : Planner α}
    (hsession :
      session requests (.start settings operators catalog statistics rangeTable) = (log, p)) :
    (∀ (i : Nat) (r : Relation α), p.relations[i]? = some r → r.id = i) ∧
    (p.baseRelations.map (·.relids) = (p.baseIds.map Prod.fst).map .singleton ∧
      (p.baseIds.map Prod.fst).Nodup ∧
      (∀ x id, (x, id) ∈ p.baseIds ↔
        ∃ r, p.relations[id]? = some r ∧ r.kind = .base ∧ r.relids = .singleton x) ∧
      ∀ x, x ∈ p.baseIds.map Prod.fst ↔ ∃ r ∈ requests, x ∈ r.asks.takeWhile
        (Planner.start settings operators catalog statistics rangeTable).canBuild) ∧
    (p.joinIds = p.joinRelations.map (·.id) ∧ p.joinIds.Nodup ∧
      ∀ i, i ∈ p.joinIds ↔ ∃ r, p.relations[i]? = some r ∧ r.kind = .join) ∧
    (p.joinRelations.map (·.relids.toFinset)).Nodup ∧
    (∀ r ∈ p.joinRelations, 2 ≤ r.relids.toFinset.card ∧
      ∀ x ∈ r.relids.toFinset, ∃ b ∈ p.baseRelations, b.relids = .singleton x) ∧
    (∀ r ∈ p.relations, r.target.map (·.number) = List.range' 1 r.target.length ∧
      (r.kind = .base → (r.target.map (·.expr)).Nodup)) ∧
    ∀ outer inner id restrictions q,
      PlanM.joinRelation outer inner p = .ok (id, restrictions) q →
        PlanM.joinRelation outer inner q = .ok (id, restrictions) q ∧
        ∃ restrictions', PlanM.joinRelation inner outer q = .ok (id, restrictions') q ∧
          restrictions'.Perm restrictions := by
  have hp : (session requests (.start settings operators catalog statistics rangeTable)).2 = p :=
    congrArg Prod.snd hsession
  have hregistered : p.Registered :=
    hp ▸ registered_session settings operators catalog statistics rangeTable requests
  have hfiled : p.Filed :=
    hp ▸ filed_session (.start settings operators catalog statistics rangeTable) requests
  have henlarged := enlarged_session requests
    (grounded_start settings operators catalog statistics rangeTable)
  rw [hp] at henlarged
  have hcons := hregistered.consistent
  refine ⟨fun i r hr => id_of_relation hcons (relation_eq_ok_iff.mpr hr),
    ⟨?_, ?_, fun x id => mem_baseIds_iff hcons, fun x => ?_⟩,
    ⟨joinIds_eq_map hcons, ?_, fun i => ?_⟩, JoinSearch.nodup_joinRelations hcons,
    fun r hr => ?_, fun r hr => ?_, ?_⟩
  · rw [map_fst_baseIds]
    exact relids_baseRelations hcons
  · rw [map_fst_baseIds]
    exact JoinSearch.nodup_baseRelids hcons
  · -- Nothing is built at the start.
    have hnone : ¬ Built (Planner.start settings operators catalog statistics
        rangeTable).outlines x := fun ⟨o, ho, _⟩ => List.not_mem_nil ho
    rw [map_fst_baseIds, mem_baseRelids_iff, henlarged.built_iff, or_iff_right hnone,
      List.mem_flatMap]
  · rw [p.joinIds_eq]
    exact (Relation.joinIds_ascending p.relations).imp Nat.ne_of_lt
  · rw [p.joinIds_eq]
    exact Relation.mem_joinIds_iff
  · obtain ⟨hmem, hk⟩ := mem_joinRelations_iff.mp hr
    exact ⟨(hregistered.relations r hmem).joined hk,
      fun x hx => exists_base_of_mem hcons hmem hx⟩
  · exact ⟨(hregistered.relations r hr).numbered, (hregistered.relations r hr).distinct⟩
  · intro outer inner id restrictions q hjoin
    exact PlanM.joinRelation_again hfiled hjoin

end Sessions

/-- Requests that repeat each other, and two that fail: one for a position
without an entry, and a clause that gets no further than such a position. -/
def repeatedRequests : List (Request Float) :=
  [.addTarget 1 (.var ⟨1, 1, .int4, -1⟩), .addTarget 1 (.var ⟨1, 1, .int4, -1⟩),
    .baseRelation 5, .distribute (conditionOn [1, 2]), .distribute (conditionOn [2, 3, 4]),
    .joinRelation 0 1, .joinRelation 1 0]

/-- Three base relations and one join are built, and the join is found again
with its clause. -/
theorem register_of_session_repeatedRequests :
    ∃ log p, session repeatedRequests threeRelations = (log, p) ∧
      log.any Event.isRefused = true ∧
      p.relations.map (·.relids.toFinset) = [{1}, {2}, {3}, {1, 2}] ∧
      (∀ (i : Nat) (r : Relation Float), p.relations[i]? = some r → r.id = i) ∧
      ∃ id restrictions q, PlanM.joinRelation 0 1 p = .ok (id, restrictions) q ∧
        PlanM.joinRelation 0 1 q = .ok (id, restrictions) q ∧
        ∃ restrictions', PlanM.joinRelation 1 0 q = .ok (id, restrictions') q ∧
          restrictions'.Perm restrictions := by
  obtain ⟨⟨log, p⟩, hsession⟩ : ∃ x, session repeatedRequests threeRelations = x := ⟨_, rfl⟩
  have hlog : log = (session repeatedRequests threeRelations).1 := by rw [hsession]
  have hp : p = (session repeatedRequests threeRelations).2 := by rw [hsession]
  have hrefused : log.any Event.isRefused = true := by
    rw [hlog]
    decide +kernel
  have hrelids : p.relations.map (·.relids.toFinset) = [{1}, {2}, {3}, {1, 2}] := by
    rw [hp]
    decide +kernel
  obtain ⟨⟨id, restrictions⟩, q, hjoin⟩ : ∃ join q, PlanM.joinRelation 0 1 p = .ok join q := by
    refine exists_ok_of_succeeds ?_
    rw [hp]
    decide +kernel
  obtain ⟨hids, -, -, -, -, -, hagain⟩ := register_of_session hsession
  exact ⟨log, p, hsession, hrefused, hrelids, hids, id, restrictions, q, hjoin,
    hagain 0 1 id restrictions q hjoin⟩

end QueryPlanner
