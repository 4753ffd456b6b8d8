/-
  QueryPlanner.Proofs.Planner.Distribution

  Distributing the clauses of a query.

  A session `HasClauses` if the join info of its base relations is exact for
  the clauses distributed so far.  Distributing one clause more keeps this,
  relation by relation, and so does every builder that extends the session.
  Once no further clause comes, joins are built with exact join info as well.
-/

import QueryPlanner.Proofs.Planner.Build

namespace QueryPlanner

open Outline PlanM

variable {α : Type} {p q : Planner α} {all : List (Clause α)} {c : Clause α}
  {o : Outline α} {os os' : List (Outline α)} {r relid : RtIndex} {id : Nat}

namespace Outline

/-- The join info of the relation is exact. -/
def Exact (all : List (Clause α)) (o : Outline α) : Prop := JoinInfo.Exact all o.relids o.joinInfo

/-- Clauses told apart by their identities, with all relations built that a
clause over several of them reads. -/
structure Covers (all : List (Clause α)) (os : List (Outline α)) : Prop where
  ids_nodup : (all.map (·.id)).Nodup
  ascending : ∀ c ∈ all, c.required.Ascending
  built : ∀ c ∈ all, 2 ≤ c.required.size → ∀ r ∈ c.required.toFinset, Built os r

theorem Covers.concat (h : Covers all os) (hasc : c.required.Ascending)
    (hnew : c.id ∉ all.map (·.id))
    (hbuilt : 2 ≤ c.required.size → ∀ r ∈ c.required.toFinset, Built os r) :
    Covers (all ++ [c]) os where
  ids_nodup := by
    rw [List.map_append, List.map_singleton, ← List.concat_eq_append]
    exact List.Nodup.concat hnew h.ids_nodup
  ascending := List.forall_mem_append.mpr ⟨h.ascending, List.forall_mem_singleton.mpr hasc⟩
  built := List.forall_mem_append.mpr ⟨h.built, List.forall_mem_singleton.mpr hbuilt⟩

/-! ## Relations built between clauses -/

theorem Covers.grows (h : Covers all os) (hg : Grows os os') : Covers all os' where
  ids_nodup := h.ids_nodup
  ascending := h.ascending
  built c hc hsize r hr := hg.built (h.built c hc hsize r hr)

/-- No clause of several relations has been waiting for a new one. -/
theorem exact_ofBase (h : Covers all os) (hnew : ¬ Built os relid) :
    (ofBase id relid).Exact all := by
  refine JoinInfo.Exact.nil fun c hc hcross => hnew ?_
  obtain ⟨hr, hsize⟩ := (Clause.crosses_singleton_iff (h.ascending c hc)).mp hcross
  exact h.built c hc hsize relid hr

theorem exact_ofJoin {outer inner : Relation α} (h : Covers all os)
    (ho : outer.outline.Exact all) (hi : inner.outline.Exact all) :
    (ofJoin id outer inner).Exact all :=
  Relation.exact_carryOn h.ids_nodup ho hi

/-- As long as the clauses stay the same, all relations have exact join info
if those do that the session started from. -/
theorem Grows.exact (hg : Grows os os') (h : Covers all os) (hall : ∀ o ∈ os, o.Exact all) :
    ∀ o ∈ os', o.Exact all := by
  induction hg with
  | refl => exact hall
  | add hg ha ih =>
      refine List.forall_mem_append.mpr ⟨ih, List.forall_mem_singleton.mpr ?_⟩
      cases ha with
      | base relid hnew => exact exact_ofBase (h.grows hg) hnew
      | join outer inner ho hi => exact exact_ofJoin h (ih _ ho) (ih _ hi)

/-- Base relations have it whatever the joins are. -/
theorem Grows.exact_base (hg : Grows os os') (h : Covers all os)
    (hall : ∀ o ∈ os, o.kind = .base → o.Exact all) : ∀ o ∈ os', o.kind = .base → o.Exact all := by
  induction hg with
  | refl => exact hall
  | add hg ha ih =>
      refine List.forall_mem_append.mpr ⟨ih, List.forall_mem_singleton.mpr fun hk => ?_⟩
      cases ha with
      | base relid hnew => exact exact_ofBase (h.grows hg) hnew
      | join outer inner => exact nomatch hk

/-! ## A clause on its way to its relations -/

/-- A clause filed at one of its relations. -/
def await (c : Clause α) (relid : RtIndex) (o : Outline α) : Outline α :=
  { o with
    joinInfo := JoinInfo.update (c.required.difference (.singleton relid)) (· ++ [c]) o.joinInfo }

theorem Exact.await (h : o.Exact all) (hrelids : o.relids = .singleton r)
    (hasc : c.required.Ascending) (hsize : 2 ≤ c.required.size) (hr : r ∈ c.required.toFinset)
    (hnew : c.id ∉ all.map (·.id)) : (await c r o).Exact (all ++ [c]) := by
  have hcross : c.Crosses o.relids.toFinset := by
    rw [hrelids, RelSet.toFinset_singleton]
    exact (Clause.crosses_singleton_iff hasc).mpr ⟨hr, hsize⟩
  rw [Exact, Outline.await, ← hrelids]
  exact JoinInfo.Exact.update h hcross hnew

/-- The clause has been filed at the relations `done`, and nowhere else. -/
structure Waiting (all : List (Clause α)) (c : Clause α) (done : List RtIndex)
    (os : List (Outline α)) : Prop where
  consistent : Consistent os
  covers : Covers all os
  built : ∀ r ∈ done, Built os r
  exact : ∀ o ∈ os, ∀ r, o.relid? = some r → o.Exact (if r ∈ done then all ++ [c] else all)

namespace Waiting

variable {done : List RtIndex}

theorem grows (h : Waiting all c done os) (hg : Grows os os') : Waiting all c done os' := by
  induction hg with
  | refl => exact h
  | add hg ha ih =>
      rename_i os'' o
      have hadd : Grows os'' (os'' ++ [o]) := .add .refl ha
      refine ⟨ih.consistent.add ha, ih.covers.grows hadd, fun r hr => hadd.built (ih.built r hr),
        List.forall_mem_append.mpr ⟨ih.exact, List.forall_mem_singleton.mpr fun r hr => ?_⟩⟩
      cases ha with
      | base relid hnew =>
          -- The clause has reached built relations only.
          obtain rfl := Option.some.inj ((relid?_ofBase _ relid).symm.trans hr)
          rw [if_neg fun hr => hnew (ih.built relid hr)]
          exact exact_ofBase ih.covers hnew
      | join outer inner => exact nomatch hr

/-- The clause reaches one relation more. -/
theorem file (h : Waiting all c done os) (hasc : c.required.Ascending)
    (hsize : 2 ≤ c.required.size) (hnew : c.id ∉ all.map (·.id)) (hr : r ∈ c.required.toFinset)
    (hdone : r ∉ done) (hid : os[id]? = some o) (hor : o.relid? = some r) :
    Waiting all c (done ++ [r]) (os.modify id (await c r)) := by
  obtain rfl : o.id = id := h.consistent.id_eq id o hid
  have ho : o ∈ os := List.mem_of_getElem? hid
  obtain ⟨hkind, hrelids⟩ := (h.consistent.relid?_eq_some_iff ho).mp hor
  have hbuilt {s : RtIndex} : Built (os.modify o.id (await c r)) s ↔ Built os s :=
    h.consistent.built_modify (f := await c r) (fun _ => rfl) o.id
  refine ⟨h.consistent.modify (f := await c r) (fun _ => rfl) (fun _ => rfl) (fun _ => rfl) o.id,
    ⟨h.covers.ids_nodup, h.covers.ascending, fun c hc hsize s hs =>
      hbuilt.mpr (h.covers.built c hc hsize s hs)⟩,
    List.forall_mem_append.mpr ⟨fun s hs => hbuilt.mpr (h.built s hs),
      List.forall_mem_singleton.mpr (hbuilt.mpr ⟨o, ho, hor⟩)⟩,
    h.consistent.forall_mem_modify hid (fun s hs => ?_) fun o' ho' hne s hs => ?_⟩
  · obtain rfl : r = s := Option.some.inj (hor.symm.trans hs)
    have hexact := h.exact o ho r hor
    rw [if_neg hdone] at hexact
    rw [if_pos (List.mem_append_right done (List.mem_singleton_self r))]
    exact hexact.await hrelids hasc hsize hr hnew
  · -- No other relation has the position.
    have hsr : s ≠ r := by
      rintro rfl
      obtain ⟨hkind', hrelids'⟩ := (h.consistent.relid?_eq_some_iff ho').mp hs
      exact hne (h.consistent.eq_of_relids ho' ho (hkind'.trans hkind.symm)
        (hrelids'.trans hrelids.symm))
    have hmem : s ∈ done ++ [r] ↔ s ∈ done := by
      rw [List.mem_append, List.mem_singleton]
      exact or_iff_left hsr
    simp only [hmem]
    exact h.exact o' ho' s hs

end Waiting

/-- A clause that is filed wherever it is read completes the join info of
every base relation. -/
theorem exact_of_waiting (hasc : c.required.Ascending)
    (h : Waiting all c c.required.members os) (ho : o ∈ os) (hk : o.kind = .base) :
    o.Exact (all ++ [c]) := by
  obtain ⟨r, hr⟩ := h.consistent.relids_of_base o ho hk
  have hexact := h.exact o ho r ((h.consistent.relid?_eq_some_iff ho).mpr ⟨hk, hr⟩)
  -- Either it is filed here, or it does not read the relation.
  by_cases hmem : r ∈ c.required.members
  · rwa [if_pos hmem] at hexact
  · rw [if_neg hmem] at hexact
    refine JoinInfo.Exact.concat hexact fun hcross => hmem (RelSet.mem_toFinset.mp ?_)
    rw [hr, RelSet.toFinset_singleton] at hcross
    exact ((Clause.crosses_singleton_iff hasc).mp hcross).1

end Outline

/-! ## Sessions with clauses -/

/-- The clauses distributed so far are `all`: every base relation knows which
of them it has to wait with. -/
structure Planner.HasClauses (all : List (Clause α)) (p : Planner α) : Prop where
  consistent : Consistent p.outlines
  covers : Covers all p.outlines
  fresh : ∀ c ∈ all, c.id < p.nextClause
  exact_base : ∀ o ∈ p.outlines, o.kind = .base → o.Exact all

namespace Planner.HasClauses

theorem of_extends (h : HasClauses all p) (he : Extends p q) : HasClauses all q where
  consistent := h.consistent.grows he.1
  covers := h.covers.grows he.1
  fresh := he.2 ▸ h.fresh
  exact_base := he.1.exact_base h.covers h.exact_base

theorem start [Number α] (settings : Settings α) (operators : OperatorCatalog α)
    (catalog : RelationSource α) (statistics : StatisticsProvider α)
    (rangeTable : List RangeTableEntry) :
    HasClauses [] (Planner.start settings operators catalog statistics rangeTable) where
  consistent := consistent_nil
  covers := ⟨.nil, nofun, nofun⟩
  fresh := nofun
  exact_base := nofun

/-- A clause starts on its way filed nowhere. -/
theorem waiting (h : HasClauses all p) (c : Clause α) : Waiting all c [] p.outlines where
  consistent := h.consistent
  covers := h.covers
  built := nofun
  exact o ho r hr := by
    rw [if_neg List.not_mem_nil]
    exact h.exact_base o ho ((h.consistent.relid?_eq_some_iff ho).mp hr).1

theorem id_not_mem (h : HasClauses all p) (hid : c.id = p.nextClause) : c.id ∉ all.map (·.id) := by
  rintro hmem
  obtain ⟨d, hd, hdc⟩ := List.mem_map.mp hmem
  have hlt := h.fresh d hd
  omega

theorem fresh_concat (h : HasClauses all p) (hid : c.id = p.nextClause)
    (hnext : q.nextClause = p.nextClause + 1) : ∀ d ∈ all ++ [c], d.id < q.nextClause := by
  refine List.forall_mem_append.mpr ⟨fun d hd => ?_, List.forall_mem_singleton.mpr ?_⟩
  · have hlt := h.fresh d hd
    omega
  · omega

/-- A clause of one relation or none waits nowhere. -/
theorem concat_of_extends (h : HasClauses all p) (hid : c.id = p.nextClause)
    (hasc : c.required.Ascending) (hsize : c.required.size < 2)
    (hq : Grows p.outlines q.outlines) (hnext : q.nextClause = p.nextClause + 1) :
    HasClauses (all ++ [c]) q where
  consistent := h.consistent.grows hq
  covers := (h.covers.grows hq).concat hasc (h.id_not_mem hid) fun hle => by omega
  fresh := h.fresh_concat hid hnext
  exact_base o ho hk := by
    refine JoinInfo.Exact.concat (hq.exact_base h.covers h.exact_base o ho hk) fun hcross => ?_
    have hle := hcross.two_le_size hasc
    omega

/-- A clause of several relations waits at each of them. -/
theorem concat_of_waiting (h : HasClauses all p) (hid : c.id = p.nextClause)
    (hasc : c.required.Ascending) (hw : Waiting all c c.required.members q.outlines)
    (hnext : q.nextClause = p.nextClause + 1) : HasClauses (all ++ [c]) q where
  consistent := hw.consistent
  covers := hw.covers.concat hasc (h.id_not_mem hid) fun _ r hr =>
    hw.built r (RelSet.mem_toFinset.mp hr)
  fresh := h.fresh_concat hid hnext
  exact_base _ ho hk := exact_of_waiting hasc hw ho hk

end Planner.HasClauses

/-- All clauses have come, and joins know which of them they have to wait with
as well. -/
structure Planner.Settled (all : List (Clause α)) (p : Planner α) : Prop
    extends HasClauses all p where
  exact : ∀ o ∈ p.outlines, o.Exact all

/-- The first join finds all clauses in place. -/
theorem Planner.HasClauses.settled (h : HasClauses all p) (hp : p.joinRelations = []) :
    Settled all p where
  toHasClauses := h
  exact := by
    rw [joinRelations_eq_filter, List.filter_eq_nil_iff] at hp
    refine List.forall_mem_map.mpr fun r hr => ?_
    refine h.exact_base r.outline (List.mem_map_of_mem hr) ?_
    cases hk : r.kind with
    | base => exact hk
    | join => exact absurd (decide_eq_true hk) (hp r hr)

theorem Planner.Settled.of_extends (h : Settled all p) (he : Extends p q) : Settled all q where
  toHasClauses := h.toHasClauses.of_extends he
  exact := he.1.exact h.covers h.exact

/-! ## Distribution -/

namespace PlanM

open Planner

theorem id_analyze (operators : OperatorCatalog α) (id : Nat) (e : Expr α) :
    (Clause.analyze operators id e).id = id := by
  rw [Clause.analyze]
  split
  · rfl
  · rfl

theorem required_analyze (operators : OperatorCatalog α) (id : Nat) (e : Expr α) :
    (Clause.analyze operators id e).required = e.relations := by
  rw [Clause.analyze]
  split
  · rfl
  · rfl

theorem expr_analyze (operators : OperatorCatalog α) (id : Nat) (e : Expr α) :
    (Clause.analyze operators id e).expr = e := by
  rw [Clause.analyze]
  split
  · rfl
  · rfl

theorem newClause_eq (e : Expr α) (p : Planner α) : newClause e p =
    .ok (.analyze p.operators p.nextClause e) { p with nextClause := p.nextClause + 1 } := rfl

/-- A new clause has the next identity. -/
theorem newClause_eq_ok {e : Expr α} (h : newClause e p = .ok c q) :
    c.id = p.nextClause ∧ c.required.Ascending ∧ q.outlines = p.outlines ∧
      q.nextClause = p.nextClause + 1 := by
  cases h.symm.trans (newClause_eq e p)
  refine ⟨id_analyze .., ?_, rfl, rfl⟩
  rw [required_analyze]
  exact RelSet.ascending_ofList _

variable [Number α]

/-- The clause distributed is the analysis of the expression. -/
theorem clause_of_distribute {e : Expr α} (h : distribute e p = .ok c q) :
    c = .analyze p.operators p.nextClause e := by
  obtain ⟨d, p', hnew, h⟩ := bind_eq_ok.mp h
  have hd : d = .analyze p.operators p.nextClause e := by
    cases hnew.symm.trans (newClause_eq e p)
    rfl
  rw [← hd]
  dsimp only at h
  cases hm : d.required.membership with
  | empty =>
      rw [hm] at h
      obtain ⟨_, _, -, h⟩ := bind_eq_ok.mp h
      exact (pure_eq_ok.mp h).1.symm
  | single relid =>
      rw [hm] at h
      obtain ⟨_, _, -, h⟩ := bind_eq_ok.mp h
      obtain ⟨_, _, -, h⟩ := bind_eq_ok.mp h
      exact (pure_eq_ok.mp h).1.symm
  | multiple =>
      rw [hm] at h
      obtain ⟨_, _, -, h⟩ := bind_eq_ok.mp h
      obtain ⟨_, _, -, h⟩ := bind_eq_ok.mp h
      exact (pure_eq_ok.mp h).1.symm

/-- A clause is filed at a relation, which is built first if it is not. -/
theorem awaitOthers_eq_ok {u : Unit} (h : awaitOthers c relid p = .ok u q) :
    q.nextClause = p.nextClause ∧ ∃ os id o, Grows p.outlines os ∧ os[id]? = some o ∧
      o.relid? = some relid ∧ q.outlines = os.modify id (await c relid) := by
  obtain ⟨id, p', hbase, h⟩ := bind_eq_ok.mp h
  obtain ⟨⟨hgrows, hnext⟩, o, hid, ho⟩ := baseRelation_eq_ok hbase
  obtain rfl := modify_eq_ok.mp h
  exact ⟨hnext, p'.outlines, id, o, hgrows, hid, ho,
    outlines_modifyRelation (fun _ => by rfl) id p'⟩

/-- Relation by relation a clause is filed wherever it is read. -/
theorem forM_awaitOthers_eq_ok {done rest : List RtIndex} {u : Unit}
    (hasc : c.required.Ascending) (hsize : 2 ≤ c.required.size)
    (hnew : c.id ∉ all.map (·.id)) (hmem : done ++ rest = c.required.members)
    (hp : Waiting all c done p.outlines) (h : rest.forM (awaitOthers c) p = .ok u q) :
    q.nextClause = p.nextClause ∧ Waiting all c c.required.members q.outlines := by
  -- The relations behind move one by one to those that are done.
  induction rest generalizing done p with
  | nil =>
      obtain ⟨_, rfl⟩ := pure_eq_ok.mp h
      rw [List.append_nil] at hmem
      exact ⟨rfl, hmem ▸ hp⟩
  | cons r rest ih =>
      obtain ⟨_, p', hr, hrest⟩ := bind_eq_ok.mp h
      obtain ⟨hnext, os, id, o, hgrows, hid, ho, hos⟩ := awaitOthers_eq_ok hr
      have hnodup : (done ++ r :: rest).Nodup := hmem ▸ hasc.nodup
      have hrmem : r ∈ c.required.toFinset :=
        RelSet.mem_toFinset.mpr (hmem ▸ List.mem_append_right done List.mem_cons_self)
      have hdone : r ∉ done := fun hr =>
        (List.nodup_append.mp hnodup).2.2 r hr r List.mem_cons_self rfl
      have hfile := (hp.grows hgrows).file hasc hsize hnew hrmem hdone hid ho
      have hmem' : (done ++ [r]) ++ rest = c.required.members := by
        rw [← hmem, List.append_assoc]
        rfl
      have hih := ih hmem' (hos ▸ hfile) hrest
      exact ⟨hih.1.trans hnext, hih.2⟩

/-- Distributing a clause adds it to the clauses of the session. -/
theorem hasClauses_of_distribute {e : Expr α} (hp : HasClauses all p)
    (h : distribute e p = .ok c q) : HasClauses (all ++ [c]) q := by
  obtain ⟨d, p', hnew, h⟩ := bind_eq_ok.mp h
  obtain ⟨hid, hasc, houtlines, hnext⟩ := newClause_eq_ok hnew
  have hsize := RelSet.size_of_membership d.required
  cases hm : d.required.membership with
  | empty =>
      rw [hm] at h hsize
      obtain ⟨_, q', hq, h⟩ := bind_eq_ok.mp h
      obtain ⟨rfl, rfl⟩ := pure_eq_ok.mp h
      obtain rfl := modify_eq_ok.mp hq
      -- The clause goes to the constant ones.
      refine hp.concat_of_extends hid hasc (by omega) ?_ hnext
      rw [← houtlines]
      exact .refl
  | single relid =>
      rw [hm] at h hsize
      obtain ⟨id, q', hbase, h⟩ := bind_eq_ok.mp h
      obtain ⟨_, q'', hq, h⟩ := bind_eq_ok.mp h
      obtain ⟨rfl, rfl⟩ := pure_eq_ok.mp h
      obtain rfl := modify_eq_ok.mp hq
      -- The clause goes to the restrictions of its relation, which may be new.
      have hext : Extends p' q' := (moves_baseRelation relid).of_ok hbase
      refine hp.concat_of_extends hid hasc (by omega) ?_ (hext.2.trans hnext)
      rw [← houtlines, outlines_modifyRelation_of_eq fun _ => by rfl]
      exact hext.1
  | multiple =>
      rw [hm] at h hsize
      obtain ⟨_, q', hawait, h⟩ := bind_eq_ok.mp h
      obtain ⟨_, q'', htargets, h⟩ := bind_eq_ok.mp h
      obtain ⟨rfl, rfl⟩ := pure_eq_ok.mp h
      have hp' : Waiting all d [] p'.outlines := houtlines ▸ hp.waiting d
      obtain ⟨hnext', hw⟩ := forM_awaitOthers_eq_ok hasc hsize (hp.id_not_mem hid)
        (List.nil_append _) hp' hawait
      -- The columns that it reads are added behind, which is no change to the join info.
      have hext : Extends q' q'' :=
        (Moves.forM (fun v => moves_addTarget v.relation (.var v)) e.vars).of_ok htargets
      exact hp.concat_of_waiting hid hasc (hw.grows hext.1)
        (hext.2.trans (hnext'.trans hnext))

end PlanM

end QueryPlanner
