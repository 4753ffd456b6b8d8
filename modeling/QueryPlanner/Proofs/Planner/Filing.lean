/-
  QueryPlanner.Proofs.Planner.Filing

  Where clauses wait, whatever becomes of a session.

  A distribution that fails midway leaves its clause at the relations it had
  reached, and one that comes late does not reach the joins built before.
  Join info is no longer exact then, but it stays well formed: a clause that is
  filed is filed in the right place, and once.  `Filing` is this invariant.
  While a clause is on its way, `Underway` says in addition where it has not
  been filed yet.
-/

import QueryPlanner.Proofs.Planner.Session

namespace QueryPlanner

open Outline PlanM

/-! ## Clauses of a join -/

/-- The clause reads relations of both sets, and no others. -/
structure Clause.Spans {α : Type} (c : Clause α) (s t : Finset RtIndex) : Prop where
  left : ¬ Disjoint c.required.toFinset s
  right : ¬ Disjoint c.required.toFinset t
  subset : c.required.toFinset ⊆ s ∪ t

theorem Clause.Spans.symm {α : Type} {c : Clause α} {s t : Finset RtIndex} (h : c.Spans s t) :
    c.Spans t s where
  left := h.right
  right := h.left
  subset := Finset.union_comm s t ▸ h.subset

/-- A clause that misses only relations of the other input spans both. -/
theorem JoinInfo.WellFormed.spans {α : Type} {infos : List (JoinInfo α)} {info : JoinInfo α}
    {c : Clause α} {s t : RelSet} (h : WellFormed s infos) (hi : info ∈ infos)
    (hc : c ∈ info.clauses) (hsub : info.unjoined.toFinset ⊆ s.toFinset ∪ t.toFinset) :
    c.Spans s.toFinset t.toFinset := by
  obtain ⟨hmeet, hout⟩ := h.crosses info hi c hc
  rw [h.unjoined_eq info hi c hc, RelSet.toFinset_difference] at hsub
  have hwithin : c.required.toFinset ⊆ s.toFinset ∪ t.toFinset := by
    intro r hr
    by_cases hrs : r ∈ s.toFinset
    · exact Finset.mem_union_left _ hrs
    · exact hsub (Finset.mem_sdiff.mpr ⟨hr, hrs⟩)
  refine ⟨hmeet, fun hd => hout fun r hr => ?_, hwithin⟩
  -- What the clause reads outside the second input is in the first.
  have hrt : r ∉ t.toFinset := Finset.disjoint_left.mp hd hr
  exact (Finset.mem_union.mp (hwithin hr)).resolve_right hrt

variable {α : Type} {p q : Planner α} {all : List (Clause α)} {c : Clause α}
  {o : Outline α} {os os' : List (Outline α)} {r : RtIndex} {done : List RtIndex}

namespace Outline

/-! ## Filed clauses -/

/-- Clauses told apart by their identities, and join info that has none but
these, each where it belongs. -/
structure Filing (all : List (Clause α)) (os : List (Outline α)) : Prop where
  consistent : Consistent os
  ids_nodup : (all.map (·.id)).Nodup
  ascending : ∀ c ∈ all, c.required.Ascending
  wellFormed : ∀ o ∈ os, JoinInfo.WellFormed o.relids o.joinInfo
  mem_all : ∀ o ∈ os, ∀ c, JoinInfo.Keeps o.joinInfo c → c ∈ all

theorem not_keeps_ofBase {id : Nat} : ¬ JoinInfo.Keeps (ofBase id r : Outline α).joinInfo c := by
  rintro ⟨info, hinfo, -⟩
  exact List.not_mem_nil hinfo

/-- What waits at a join has been waiting at one of its inputs. -/
theorem keeps_of_keeps_ofJoin {id : Nat} {outer inner : Relation α}
    (h : JoinInfo.Keeps (ofJoin id outer inner).joinInfo c) :
    JoinInfo.Keeps outer.joinInfo c ∨ JoinInfo.Keeps inner.joinInfo c := by
  rcases Relation.keeps_of_keeps_carryOn h with h | h
  · rcases Relation.keeps_of_keeps_carryOn h with ⟨info, hinfo, -⟩ | h
    · exact absurd hinfo List.not_mem_nil
    · exact .inl h
  · exact .inr h

namespace Filing

theorem add (h : Filing all os) (ha : Addition os o) : Filing all (os ++ [o]) where
  consistent := h.consistent.add ha
  ids_nodup := h.ids_nodup
  ascending := h.ascending
  wellFormed := by
    refine List.forall_mem_append.mpr ⟨h.wellFormed, List.forall_mem_singleton.mpr ?_⟩
    cases ha with
    | base relid => exact .nil _
    | join outer inner ho hi =>
        have houter := Relation.wellFormed_carryOn (h.wellFormed _ ho)
          (RelSet.subset_toFinset_union_left (t := inner.relids)) (.nil _)
        exact Relation.wellFormed_carryOn (h.wellFormed _ hi) RelSet.subset_toFinset_union_right
          houter
  mem_all := by
    refine List.forall_mem_append.mpr ⟨h.mem_all, List.forall_mem_singleton.mpr fun c hc => ?_⟩
    cases ha with
    | base relid => exact absurd hc not_keeps_ofBase
    | join outer inner ho hi =>
        rcases keeps_of_keeps_ofJoin hc with hc | hc
        · exact h.mem_all _ ho c hc
        · exact h.mem_all _ hi c hc

theorem grows (h : Filing all os) (hg : Grows os os') : Filing all os' := by
  induction hg with
  | refl => exact h
  | add _ ha ih => exact ih.add ha

/-- One clause more, filed nowhere. -/
theorem concat (h : Filing all os) (hasc : c.required.Ascending) (hnew : c.id ∉ all.map (·.id)) :
    Filing (all ++ [c]) os where
  consistent := h.consistent
  ids_nodup := by
    rw [List.map_append, List.map_singleton, ← List.concat_eq_append]
    exact List.Nodup.concat hnew h.ids_nodup
  ascending := List.forall_mem_append.mpr ⟨h.ascending, List.forall_mem_singleton.mpr hasc⟩
  wellFormed := h.wellFormed
  mem_all o ho d hd := List.mem_append_left _ (h.mem_all o ho d hd)

/-- The clauses of a relation are told apart by their identities, also across
its entries. -/
theorem ids_nodup_joinInfo (h : Filing all os) (ho : o ∈ os) :
    ((o.joinInfo.flatMap (·.clauses)).map (·.id)).Nodup := by
  refine (h.wellFormed o ho).nodup_flatMap.map_on fun c hc d hd hid => ?_
  have hall : ∀ c ∈ o.joinInfo.flatMap (·.clauses), c ∈ all := fun c hc =>
    h.mem_all o ho c (List.mem_flatMap.mp hc)
  exact List.inj_on_of_nodup_map h.ids_nodup (hall c hc) (hall d hd) hid

/-- Entries differ in the relations that they miss, not only in how these are
listed. -/
theorem keys_nodup (h : Filing all os) (ho : o ∈ os) :
    (o.joinInfo.map (·.unjoined.toFinset)).Nodup := by
  have hwf := h.wellFormed o ho
  have hasc : ∀ info ∈ o.joinInfo, info.unjoined.Ascending := by
    intro info hi
    obtain ⟨c, hc⟩ := List.exists_mem_of_ne_nil _ (hwf.clauses_ne_nil info hi)
    rw [hwf.unjoined_eq info hi c hc]
    exact (h.ascending c (h.mem_all o ho c ⟨info, hi, hc⟩)).filter _
  have hkeys := List.pairwise_map.mp hwf.keys_nodup
  refine List.pairwise_map.mpr (hkeys.imp_of_mem fun {info info'} hi hi' hne heq => hne ?_)
  exact (hasc info hi).ext (hasc info' hi') heq

end Filing

/-- The clauses applied at a join read relations of both inputs. -/
theorem Filing.spans {outer inner : Relation α} (h : Filing all os) (ho : outer.outline ∈ os)
    (hi : inner.outline ∈ os)
    (hc : c ∈ Relation.restrictionsOfJoin (outer.relids.union inner.relids) outer inner) :
    c.Spans outer.relids.toFinset inner.relids.toFinset := by
  obtain ⟨info, hinfo, hsub, hc⟩ := (Relation.mem_restrictionsOfJoin_iff h.ids_nodup
    (h.mem_all _ ho) (h.mem_all _ hi)).mp hc
  rw [RelSet.isSubset_iff, RelSet.toFinset_union] at hsub
  rcases List.mem_append.mp hinfo with hinfo | hinfo
  · exact (h.wellFormed _ ho).spans hinfo hc hsub
  · have hswap : info.unjoined.toFinset ⊆ inner.relids.toFinset ∪ outer.relids.toFinset :=
      Finset.union_comm outer.relids.toFinset inner.relids.toFinset ▸ hsub
    exact ((h.wellFormed _ hi).spans hinfo hc hswap).symm

/-! ## A clause on its way -/

/-- The clause has been filed at none but the base relations `done` and the
joins made of them. -/
structure Underway (all : List (Clause α)) (c : Clause α) (done : List RtIndex)
    (os : List (Outline α)) : Prop extends Filing (all ++ [c]) os where
  unfiled : ∀ o ∈ os, ∀ r, o.relid? = some r → r ∉ done →
    ∀ d, JoinInfo.Keeps o.joinInfo d → d ∈ all

namespace Underway

theorem grows (h : Underway all c done os) (hg : Grows os os') : Underway all c done os' := by
  induction hg with
  | refl => exact h
  | add _ ha ih =>
      refine ⟨ih.add ha, List.forall_mem_append.mpr
        ⟨ih.unfiled, List.forall_mem_singleton.mpr fun r hr _ d hd => ?_⟩⟩
      cases ha with
      | base relid => exact absurd hd not_keeps_ofBase
      | join outer inner => exact nomatch hr

/-- The clause reaches one relation more. -/
theorem file {id : Nat} (h : Underway all c done os) (hsize : 2 ≤ c.required.size)
    (hr : r ∈ c.required.toFinset) (hdone : r ∉ done) (hid : os[id]? = some o)
    (hor : o.relid? = some r) : Underway all c (done ++ [r]) (os.modify id (await c r)) := by
  obtain rfl : o.id = id := h.consistent.id_eq id o hid
  have ho : o ∈ os := List.mem_of_getElem? hid
  have hasc : c.required.Ascending :=
    h.ascending c (List.mem_append_right _ (List.mem_singleton_self c))
  have hrelids : o.relids = .singleton r := ((h.consistent.relid?_eq_some_iff ho).mp hor).2
  have hcross : c.Crosses o.relids.toFinset := by
    rw [hrelids, RelSet.toFinset_singleton]
    exact (Clause.crosses_singleton_iff hasc).mpr ⟨hr, hsize⟩
  -- The relation has not been reached, so none of its clauses is this one.
  have hnew : ∀ d, JoinInfo.Keeps o.joinInfo d → d.id ≠ c.id := by
    intro d hd hdc
    have hnodup := h.ids_nodup
    rw [List.map_append, List.nodup_append] at hnodup
    have hdall : d.id ∈ all.map (·.id) := List.mem_map_of_mem (h.unfiled o ho r hor hdone d hd)
    exact hnodup.2.2 d.id hdall c.id (List.mem_singleton_self c.id) hdc
  have hmodify {P : Outline α → Prop} (hold : ∀ o ∈ os, P o) (hnew : P (await c r o)) :
      ∀ o' ∈ os.modify o.id (await c r), P o' :=
    h.consistent.forall_mem_modify hid hnew fun o' ho' _ => hold o' ho'
  refine ⟨⟨h.consistent.modify (f := await c r) (fun _ => rfl) (fun _ => rfl) (fun _ => rfl) o.id,
    h.ids_nodup, h.ascending, hmodify h.wellFormed ?_, hmodify h.mem_all fun d hd => ?_⟩,
    hmodify (fun o' ho' s hs hsdone => ?_) fun s hs hsdone => ?_⟩
  · rw [await, ← hrelids]
    exact (h.wellFormed o ho).file hcross hnew
  · rcases (JoinInfo.keeps_update fun _ _ => List.mem_append).mp hd with hd | hd
    · exact h.mem_all o ho d hd
    · exact List.mem_append_right _ hd
  · exact h.unfiled o' ho' s hs fun hs => hsdone (List.mem_append_left _ hs)
  · obtain rfl : r = s := Option.some.inj (hor.symm.trans hs)
    exact absurd (List.mem_append_right _ (List.mem_singleton_self r)) hsdone

end Underway

end Outline

/-! ## Requests -/

/-- Some clauses, with identities given away before, are all that waits
anywhere. -/
def Planner.Filed (p : Planner α) : Prop :=
  ∃ all, Filing all p.outlines ∧ ∀ c ∈ all, c.id < p.nextClause

namespace Planner.Filed

theorem consistent (h : p.Filed) : Consistent p.outlines := by
  obtain ⟨all, hfiling, -⟩ := h
  exact hfiling.consistent

theorem of_extends (h : p.Filed) (he : Extends p q) : q.Filed := by
  obtain ⟨all, hfiling, hfresh⟩ := h
  exact ⟨all, hfiling.grows he.1, he.2 ▸ hfresh⟩

theorem start (settings : Settings α) (operators : OperatorCatalog α)
    (catalog : RelationSource α) (statistics : StatisticsProvider α)
    (rangeTable : List RangeTableEntry) :
    Filed (.start settings operators catalog statistics rangeTable) :=
  ⟨[], ⟨consistent_nil, .nil, nofun, nofun, nofun⟩, nofun⟩

/-- A new clause is underway, and has come nowhere. -/
theorem underway (h : p.Filed) (hid : c.id = p.nextClause) (hasc : c.required.Ascending) :
    ∃ all, Underway all c [] p.outlines ∧ ∀ d ∈ all ++ [c], d.id < p.nextClause + 1 := by
  obtain ⟨all, hfiling, hfresh⟩ := h
  have hnew : c.id ∉ all.map (·.id) := by
    intro hmem
    obtain ⟨d, hd, hdc⟩ := List.mem_map.mp hmem
    have hlt := hfresh d hd
    omega
  refine ⟨all, ⟨hfiling.concat hasc hnew, fun o ho _ _ _ => hfiling.mem_all o ho⟩, ?_⟩
  refine List.forall_mem_append.mpr ⟨fun d hd => ?_, List.forall_mem_singleton.mpr ?_⟩
  · have hlt := hfresh d hd
    omega
  · omega

end Planner.Filed

namespace PlanM

open Planner

variable [Number α]

/-- Filing a clause at a relation succeeds, or has done nothing to it. -/
theorem awaitOthers_ends (h : Underway all c done p.outlines) (hsize : 2 ≤ c.required.size)
    (hr : r ∈ c.required.toFinset) (hdone : r ∉ done) :
    (awaitOthers c r).Ends p
      (fun _ q => Underway all c (done ++ [r]) q.outlines ∧ q.nextClause = p.nextClause)
      fun _ q => Underway all c done q.outlines ∧ q.nextClause = p.nextClause := by
  have hbase := Ends.of_moves (moves_baseRelation (α := α) r) p
  refine (hbase.imp (fun _ _ he => he) fun _ q he => ⟨h.grows he.1, he.2⟩).bind
    fun id q hok he => ?_
  obtain ⟨-, o, hid, hor⟩ := baseRelation_eq_ok hok
  refine .of_ok rfl ⟨?_, he.2⟩
  rw [outlines_modifyRelation (g := await c r) fun _ => by rfl]
  exact (h.grows he.1).file hsize hr hdone hid hor

/-- Wherever the walk over the relations of a clause ends, what has been filed
is in its place. -/
theorem forM_awaitOthers_ends {rest : List RtIndex} (h : Underway all c done p.outlines)
    (hsize : 2 ≤ c.required.size) (hmem : done ++ rest = c.required.members) :
    (rest.forM (awaitOthers c)).Ends p
      (fun _ q => Filing (all ++ [c]) q.outlines ∧ q.nextClause = p.nextClause)
      fun _ q => Filing (all ++ [c]) q.outlines ∧ q.nextClause = p.nextClause := by
  -- One relation after the other is done; a failure leaves the rest.
  induction rest generalizing done p with
  | nil => exact ⟨h.toFiling, rfl⟩
  | cons r rest ih =>
      have hasc : c.required.Ascending :=
        h.ascending c (List.mem_append_right _ (List.mem_singleton_self c))
      have hnodup : (done ++ r :: rest).Nodup := hmem ▸ hasc.nodup
      have hr : r ∈ c.required.toFinset :=
        RelSet.mem_toFinset.mpr (hmem ▸ List.mem_append_right done List.mem_cons_self)
      have hdone : r ∉ done := fun hr =>
        (List.nodup_append.mp hnodup).2.2 r hr r List.mem_cons_self rfl
      have hstep := awaitOthers_ends h hsize hr hdone
      refine (hstep.imp (fun _ _ hq => hq) fun _ _ hq => ⟨hq.1.toFiling, hq.2⟩).bind
        fun _ q _ hq => ?_
      have hmem' : (done ++ [r]) ++ rest = c.required.members := by
        rw [← hmem, List.append_assoc]
        rfl
      have hrest := ih hq.1 hmem'
      rw [hq.2] at hrest
      exact hrest

/-- However a distribution ends, clauses are filed where they belong. -/
theorem filed_distribute (hp : p.Filed) (e : Expr α) :
    Filed ((distribute e : PlanM α (Clause α)).final p) := by
  refine Ends.final ?_
  obtain ⟨hid, hasc, houtlines, hnext⟩ := newClause_eq_ok (newClause_eq e p)
  rw [Ends, distribute, bind_of_ok (newClause_eq e p), ← Ends]
  generalize hc : Clause.analyze p.operators p.nextClause e = c at hid hasc
  generalize { p with nextClause := p.nextClause + 1 } = p' at houtlines hnext
  obtain ⟨all, hunder, hfresh⟩ := hp.underway hid hasc
  rw [← houtlines] at hunder
  rw [← hnext] at hfresh
  have hp' : p'.Filed := ⟨_, hunder.toFiling, hfresh⟩
  have hsize := RelSet.size_of_membership c.required
  dsimp only
  cases hm : c.required.membership with
  | empty => exact hp'
  | single relid =>
      have hbase := Ends.of_moves (moves_baseRelation (α := α) relid) p'
      refine (hbase.imp (fun _ _ he => hp'.of_extends he) fun _ _ he => hp'.of_extends he).bind
        fun id q _ hq => ?_
      refine hq.of_extends (SameOutlines.extends ?_)
      exact sameOutlines_modifyRelation (fun _ => by rfl) id q
  | multiple =>
      rw [hm] at hsize
      have hloop := forM_awaitOthers_ends hunder hsize (List.nil_append _)
      have hfiled : ∀ q : Planner α, Filing (all ++ [c]) q.outlines ∧
          q.nextClause = p'.nextClause → q.Filed := fun q hq => ⟨_, hq.1, hq.2 ▸ hfresh⟩
      refine (hloop.imp (fun _ => hfiled) fun _ => hfiled).bind fun _ q _ hq => ?_
      -- The columns that the clause reads are no part of the join info.
      have htargets := Ends.of_moves
        (Moves.forM (R := Extends) (fun v => moves_addTarget v.relation (.var v)) e.vars) q
      exact (htargets.imp (fun _ _ he => hq.of_extends he) fun _ _ he => hq.of_extends he).bind
        fun _ _ _ hq => hq

end PlanM

variable [Number α]

theorem Request.filed_serve (hp : p.Filed) (r : Request α) : Planner.Filed (r.serve p).2 := by
  rw [serve_snd]
  by_cases hr : ∀ e, r ≠ .distribute e
  · exact hp.of_extends (moves_run hr p)
  · obtain ⟨e, rfl⟩ : ∃ e, r = .distribute e := by
      simpa only [not_forall, not_not] using hr
    rw [run, PlanM.final_bind_pure]
    exact PlanM.filed_distribute hp e

theorem filed_session (hp : p.Filed) (requests : List (Request α)) :
    Planner.Filed (session requests p).2 := by
  induction requests generalizing p with
  | nil => exact hp
  | cons r rest ih => exact ih (r.filed_serve hp)

/-- After any requests, failed ones included, the join info of every relation
has one entry for each set of missing relations, none of them members; each
clause of an entry reads members and misses just these relations; and no
clause is listed twice.  The clauses that a join applies read relations of
both inputs, and no others. -/
theorem joinInfo_of_session {settings : Settings α} {operators : OperatorCatalog α}
    {catalog : RelationSource α} {statistics : StatisticsProvider α}
    {rangeTable : List RangeTableEntry} {requests : List (Request α)} {log : List (Event α)}
    {p : Planner α}
    (hsession :
      session requests (.start settings operators catalog statistics rangeTable) = (log, p)) :
    (∀ r ∈ p.relations,
      (r.joinInfo.map (·.unjoined.toFinset)).Nodup ∧
      (∀ info ∈ r.joinInfo,
        info.unjoined.toFinset.Nonempty ∧
        Disjoint info.unjoined.toFinset r.relids.toFinset ∧
        ∀ c ∈ info.clauses,
          c.required.toFinset \ r.relids.toFinset = info.unjoined.toFinset ∧
          ¬ Disjoint c.required.toFinset r.relids.toFinset) ∧
      ((r.joinInfo.flatMap (·.clauses)).map (·.id)).Nodup) ∧
    ∀ outer inner id restrictions q,
      PlanM.joinRelation outer inner p = .ok (id, restrictions) q →
        ∃ o i, p.relation outer = .ok o ∧ p.relation inner = .ok i ∧
          ∀ c ∈ restrictions, c.Spans o.relids.toFinset i.relids.toFinset := by
  obtain ⟨rfl, rfl⟩ := Prod.ext_iff.mp hsession.symm
  obtain ⟨all, hfiling, -⟩ := filed_session
    (.start settings operators catalog statistics rangeTable) requests
  refine ⟨fun r hr => ?_, fun outer inner id restrictions q hjoin => ?_⟩
  · have ho := List.mem_map_of_mem (f := Relation.outline) hr
    have hwf := hfiling.wellFormed _ ho
    refine ⟨hfiling.keys_nodup ho, fun info hi => ?_, hfiling.ids_nodup_joinInfo ho⟩
    have hkey : ∀ c ∈ info.clauses,
        c.required.toFinset \ r.relids.toFinset = info.unjoined.toFinset := by
      intro c hc
      rw [hwf.unjoined_eq info hi c hc, RelSet.toFinset_difference]
      rfl
    -- An entry has some clause, and that one says what the entry misses.
    obtain ⟨c, hc⟩ := List.exists_mem_of_ne_nil _ (hwf.clauses_ne_nil info hi)
    have hcross := hwf.crosses info hi c hc
    refine ⟨?_, ?_, fun d hd => ⟨hkey d hd, (hwf.crosses info hi d hd).1⟩⟩
    · rw [← hkey c hc, Finset.sdiff_nonempty]
      exact hcross.2
    · rw [← hkey c hc]
      exact Finset.sdiff_disjoint
  · obtain ⟨-, o, i, -, ho, hi, -, rfl, -⟩ := joinRelation_eq_ok hfiling.consistent hjoin
    exact ⟨o, i, ho, hi, fun c hc =>
      hfiling.spans (Planner.outline_mem ho) (Planner.outline_mem hi) hc⟩

/-- A clause over all three relations, a join, a clause that is filed at two
relations before it fails at one that does not exist, and a clause that comes
too late for the join. -/
def interruptedClauses : List (Request Float) :=
  [.distribute (conditionOn [1, 2, 3]), .joinRelation 0 1, .distribute (conditionOn [1, 2, 4]),
    .distribute (conditionOn [1, 2])]

/-- The clause that failed waits in an entry of its own, and the late clause is
applied where the join is asked for again. -/
theorem joinInfo_of_session_interruptedClauses :
    ∃ log p, session interruptedClauses threeRelations = (log, p) ∧
      log.any Event.isRefused = true ∧
      (∃ r ∈ p.relations, r.joinInfo.length = 3 ∧
        (r.joinInfo.map (·.unjoined.toFinset)).Nodup) ∧
      ∃ id restrictions q, PlanM.joinRelation 0 1 p = .ok (id, restrictions) q ∧
        restrictions ≠ [] ∧ ∃ o i, p.relation 0 = .ok o ∧ p.relation 1 = .ok i ∧
          ∀ c ∈ restrictions, c.Spans o.relids.toFinset i.relids.toFinset := by
  obtain ⟨⟨log, p⟩, hsession⟩ : ∃ x, session interruptedClauses threeRelations = x := ⟨_, rfl⟩
  have hlog : log = (session interruptedClauses threeRelations).1 := by rw [hsession]
  have hp : p = (session interruptedClauses threeRelations).2 := by rw [hsession]
  have hrefused : log.any Event.isRefused = true := by
    rw [hlog]
    decide +kernel
  obtain ⟨hinfos, hjoins⟩ := joinInfo_of_session hsession
  have hthree : p.relations.any (fun r => r.joinInfo.length == 3) = true := by
    rw [hp]
    decide +kernel
  obtain ⟨r, hr, hlength⟩ := List.any_eq_true.mp hthree
  obtain ⟨⟨id, restrictions⟩, q, hjoin⟩ : ∃ join q, PlanM.joinRelation 0 1 p = .ok join q := by
    refine exists_ok_of_succeeds ?_
    rw [hp]
    decide +kernel
  have hne : restrictions ≠ [] := by
    have happlied : (match PlanM.joinRelation 0 1 p with
        | .ok join _ => join.2.length
        | .error _ _ => 0) = 1 := by
      rw [hp]
      decide +kernel
    rw [hjoin] at happlied
    have hlength : restrictions.length = 1 := happlied
    exact List.ne_nil_of_length_pos (by omega)
  exact ⟨log, p, hsession, hrefused, ⟨r, hr, beq_iff_eq.mp hlength, (hinfos r hr).1⟩,
    id, restrictions, q, hjoin, hne, hjoins 0 1 id restrictions q hjoin⟩

end QueryPlanner
