/-
  QueryPlanner.Proofs.Planner.Sound

  Builders keep a session sound.

  Each builder is one step from a sound session to a sound one, whether it
  succeeds or fails.  Two of them ask something of their caller: expressions
  go to the relation that they read, and joins are offered paths from inputs
  that were joined.
-/

import QueryPlanner.Proofs.JoinSearch
import QueryPlanner.Proofs.Planner.Distribution
import QueryPlanner.Proofs.Planner.Keeps

namespace QueryPlanner

open Outline Planner

variable {α : Type} {p q : Planner α} {r : Relation α} {c : Clause α} {relid : RtIndex}
  {id outer inner : Nat} {restrictions : List (Clause α)} {path : Path α} {paths : List (Path α)}

namespace PlanM

theorem analyzed_newClause {e : Expr α} (h : newClause e p = .ok c q) : c.Analyzed := by
  cases h.symm.trans (newClause_eq e p)
  exact ⟨_, _, _, rfl⟩

variable [Number α]

/-! ## Base relations -/

theorem steps_baseRelation (relid : RtIndex) : (baseRelation relid : PlanM α Nat).Moves Steps := by
  refine baseRelation_moves fun p r hnew hr => ?_
  obtain ⟨houtline, htarget, hpaths, -⟩ := ofEntry_eq_ok hr
  have hinfo : r.joinInfo = [] := congrArg Outline.joinInfo houtline
  refine steps_addRelation (extends_ofEntry hnew hr) fun _ => .of_no_paths ?_ ?_ hpaths
  · rw [htarget]
    exact TargetList.over_nil
  · rw [hinfo]
    rintro c ⟨info, hmem, -⟩
    exact absurd hmem List.not_mem_nil

/-- A base relation is given an expression of its own. -/
theorem steps_addTarget {e : Expr α} (he : e.Over (.singleton relid)) :
    (addTarget relid e : PlanM α Unit).Moves Steps := by
  intro p hp
  refine Moves.rel_bind (steps_baseRelation relid p) (fun id q hbase => ?_) hp
  obtain ⟨-, o, ho, horelid⟩ := baseRelation_eq_ok hbase
  refine steps_modifyRelation_of_outline (fun _ => by rfl)
    (fun r => TargetList.prefix_add.subset) fun r hq hr => ?_
  -- The relation has no member but the one that the expression reads.
  obtain rfl : r.outline = o := Option.some.inj ((outlines_getElem? hr).symm.trans ho)
  have hrelids : r.relids = .singleton relid :=
    ((hq.consistent.relid?_eq_some_iff (List.mem_of_getElem? ho)).mp horelid).2
  have h := hq.relation hr
  exact ⟨h.target.add (hrelids ▸ he), h.analyzed, h.parent, h.order, h.fits⟩

theorem steps_estimateSize (relid : RtIndex) : (estimateSize relid : PlanM α Unit).Moves Steps := by
  refine .bind .get fun p => .bind (.ofExcept _) fun r => .bind (.ofExcept _) fun _ =>
    .bind (.ofExcept _) fun _ => .modify fun p => ?_
  refine steps_modifyRelation_of_outline (fun _ => by rfl) (fun _ => List.Subset.refl _)
    fun s hp hs => ?_
  have h := hp.relation hs
  exact ⟨h.target, h.analyzed, h.parent, h.order, h.fits⟩

/-! ## Clauses -/

theorem steps_newClause (e : Expr α) : (newClause e : PlanM α (Clause α)).Moves Steps :=
  fun _ => steps_of_relations_eq rfl

theorem steps_awaitOthers (hc : c.Analyzed) (relid : RtIndex) :
    (awaitOthers c relid : PlanM α Unit).Moves Steps := by
  refine .bind (steps_baseRelation relid) fun id => .modify fun p => ?_
  refine steps_modifyRelation (fun r => ⟨rfl, List.Subset.refl _⟩) (fun hp => ?_) fun r hp hr => ?_
  · rw [outlines_modifyRelation (g := await c relid) fun _ => by rfl]
    exact hp.consistent.modify (f := await c relid) (fun _ => rfl) (fun _ => rfl) (fun _ => rfl) id
  · have h := hp.relation hr
    refine ⟨h.target, fun d hd => ?_, h.parent, h.order, h.fits⟩
    rcases (JoinInfo.keeps_update fun _ _ => List.mem_append).mp hd with hd | hd
    · exact h.analyzed d hd
    · exact List.mem_singleton.mp hd ▸ hc

theorem steps_distribute (e : Expr α) : (distribute e : PlanM α (Clause α)).Moves Steps := by
  intro p
  refine Moves.rel_bind (steps_newClause e p) fun c q hnew => ?_
  have hc := analyzed_newClause hnew
  show Steps q (final _ q)
  split
  · refine Moves.bind (.modify fun p => ?_) (fun _ => .pure c) q
    exact steps_of_relations_eq rfl
  · rename_i relid _
    refine Moves.bind (steps_baseRelation relid) (fun id => .bind (.modify fun p => ?_)
      fun _ => .pure c) q
    refine steps_modifyRelation_of_outline (fun _ => by rfl) (fun _ => List.Subset.refl _)
      fun r hp hr => ?_
    have h := hp.relation hr
    exact ⟨h.target, h.analyzed, h.parent, h.order, h.fits⟩
  · exact Moves.bind (.forM (fun relid => steps_awaitOthers hc relid) _) (fun _ =>
      .bind (.forM (fun v => steps_addTarget (Expr.over_singleton_var v)) _) fun _ => .pure c) q

/-! ## Joins -/

/-- The join of sound relations shows what they show. -/
theorem sound_ofJoin {o i : Relation α} (ho : o.Sound p) (hi : i.Sound p) (fraction : α)
    (width : Int32) : (Relation.ofJoin id o i fraction width).Sound p := by
  refine .of_no_paths (TargetList.over_join ho.target hi.target) (fun c hc => ?_) rfl
  rcases Relation.keeps_of_keeps_carryOn hc with hc | hc
  · rcases Relation.keeps_of_keeps_carryOn hc with hc | hc
    · obtain ⟨info, hinfo, -⟩ := hc
      exact absurd hinfo List.not_mem_nil
    · exact ho.analyzed c hc
  · exact hi.analyzed c hc

theorem steps_joinRelation (outer inner : Nat) :
    (joinRelation outer inner : PlanM α (Nat × List (Clause α))).Moves Steps :=
  joinRelation_moves fun _ _ _ fraction width ho hi hd hnew _ =>
    steps_addRelation (extends_ofJoin ho hi hd hnew) fun hp =>
      sound_ofJoin (hp.relation ho) (hp.relation hi) fraction width

/-- The clauses returned with a join can be applied at it. -/
theorem joinable_of_joinRelation (hp : p.Sound)
    (h : joinRelation outer inner p = .ok (id, restrictions) q) :
    Joinable q outer inner restrictions := by
  obtain ⟨hk, -⟩ := (steps_joinRelation outer inner).of_ok h hp
  obtain ⟨-, o, i, -, ho, hi, hd, rfl, -⟩ := joinRelation_eq_ok hp.consistent h
  refine Joinable.keeps ⟨⟨o, i, ho, hi, RelSet.overlaps_eq_false_iff.mp hd⟩,
    Relation.nodup_restrictionsOfJoin _ o i, fun c hc => ?_⟩ hk
  rcases Relation.keeps_of_mem_restrictionsOfJoin hc with hc | hc
  · exact (hp.relation ho).analyzed c hc
  · exact (hp.relation hi).analyzed c hc

/-! ## Scans -/

/-- A visible key of an index is an expression of the relation's own. -/
theorem over_of_visibleKey? {target : TargetList α} {s : RelSet} {key : IndexKey α} {e : Expr α}
    (htarget : target.Over s) (h : IndexAccess.visibleKey? relid target key = some e) :
    e.Over s := by
  cases key with
  | column n => exact htarget e (List.mem_of_find?_eq_some h)
  | expr k =>
      rw [IndexAccess.visibleKey?] at h
      split at h
      · rename_i hall
        cases h
        exact Expr.over_of_vars fun v hv => htarget.of_provides (List.all_eq_true.mp hall v hv)
      · cases h

theorem over_orderOfKeys {operators : OperatorCatalog α} {target : TargetList α} {s : RelSet}
    {direction : ScanDirection} {acc : Pathkeys α} {keys : List (IndexKey α × Oid)}
    (htarget : target.Over s) (hacc : acc.Over s) :
    (IndexAccess.orderOfKeys operators relid target direction acc keys).Over s := by
  induction keys generalizing acc with
  | nil => exact hacc
  | cons key rest ih =>
      rw [IndexAccess.orderOfKeys]
      split
      · rename_i op e _ hvisible
        refine ih (Pathkeys.Over.addPosition hacc (List.forall_mem_singleton.mpr ?_))
        exact over_of_visibleKey? htarget hvisible
      · exact hacc

/-- A scan produces its relation, in an order of what the relation has. -/
theorem sound_scan (hr : r.target.Over r.relids) (h : Path.scans p r = .ok paths)
    (hpath : path ∈ paths) :
    path.parent = r.id ∧ path.pathkeys.Over r.relids ∧ path.operator.Fits p := by
  obtain ⟨relid, operator, order, -, hscan, hbuild⟩ := Path.scan_of_mem_scans h hpath
  obtain ⟨_, -, rfl⟩ := Path.build_eq_ok hbuild
  cases hscan with
  | whole => exact ⟨rfl, Pathkeys.over_nil, trivial⟩
  | ofIndex hindex horder =>
      refine ⟨rfl, ?_, trivial⟩
      rw [Path.order_of_mem_scanOrders horder, IndexAccess.order]
      split
      · exact Pathkeys.over_nil
      · exact over_orderOfKeys hr Pathkeys.over_nil

theorem steps_addScans (id : Nat) : (addScans id : PlanM α Unit).Moves Steps := by
  intro p
  rcases addScans_cases id p with ⟨e, h⟩ | ⟨r, paths, hr, hpaths, h⟩
  · rw [final_of_error h]
    exact refl_of Steps p
  · rw [final_of_ok h]
    refine steps_modifyRelation_of_outline (fun _ => by rfl) (fun _ => List.Subset.refl _)
      fun s hp hs => ?_
    obtain rfl := Except.ok.inj (hr.symm.trans hs)
    have hsound := hp.relation hr
    exact hsound.offer fun path hpath => sound_scan hsound.target hpaths hpath

/-! ## Join paths -/

/-- The joins of relations that can be joined fit them. -/
theorem sound_join {o i : Relation α} {type : JoinType} (hp : p.Sound)
    (hj : Joinable p outer inner restrictions) (ho : p.relation outer = .ok o)
    (hi : p.relation inner = .ok i) (hr : r.target.Over r.relids)
    (h : Pairing.paths p ⟨r, o, i, type, restrictions⟩ = .ok paths) (hpath : path ∈ paths) :
    path.parent = r.id ∧ path.pathkeys.Over r.relids ∧ path.operator.Fits p := by
  obtain ⟨operator, order, hcandidate, hbuild⟩ := Pairing.offers_of_mem_paths h hpath
  obtain ⟨_, -, rfl⟩ := Path.build_eq_ok hbuild
  obtain ⟨o', i', ho', hi', hd⟩ := hj.inputs
  obtain rfl := Except.ok.inj (ho.symm.trans ho')
  obtain rfl := Except.ok.inj (hi.symm.trans hi')
  have hsound : Pairing.Sound ⟨r, o, i, type, restrictions⟩ :=
    ⟨hd, hj.ids_nodup, hj.analyzed, (hp.relation ho).order⟩
  refine ⟨rfl, hcandidate.order_over hr, hsound.fits ?_ ?_ hcandidate⟩
  · exact fun path hpath => hp.relation_parent ho hpath
  · exact fun path hpath => hp.relation_parent hi hpath

theorem steps_addJoins (join : Nat) (type : JoinType)
    (hj : Joinable p outer inner restrictions) :
    Steps p ((addJoins join outer inner restrictions type).final p) := by
  rcases addJoins_cases join outer inner restrictions type p with
    ⟨e, h⟩ | ⟨r, o, i, paths, hr, ho, hi, hpaths, h⟩
  · rw [final_of_error h]
    exact refl_of Steps p
  · rw [final_of_ok h]
    refine steps_modifyRelation_of_outline (fun _ => by rfl) (fun _ => List.Subset.refl _)
      fun s hp hs => ?_
    obtain rfl := Except.ok.inj (hr.symm.trans hs)
    have hsound := hp.relation hr
    exact hsound.offer fun path hpath => sound_join hp hj ho hi hsound.target hpaths hpath

end PlanM

/-! ## The search -/

namespace JoinSearch

open PlanM

variable [Number α]

/-- A pair is offered the joins of relations that were joined, either way
round. -/
theorem steps_joinPair (a b : Nat) (level : List Nat) :
    (joinPair a b level : PlanM α (List Nat)).Moves Steps := by
  intro p hp
  refine Moves.rel_bind (steps_joinRelation a b p) (fun x p₁ hjoin => ?_) hp
  have hp₁ := ((steps_joinRelation a b).of_ok hjoin hp).2
  have hj := joinable_of_joinRelation hp hjoin
  refine Moves.rel_bind (steps_addJoins x.1 .inner hj) fun _ p₂ hpaths => ?_
  have hp₂ : p₂.Sound := by
    have hsteps := steps_addJoins x.1 .inner hj hp₁
    rw [final_of_ok hpaths] at hsteps
    exact hsteps.2
  refine Moves.rel_bind (steps_joinRelation b a p₂) fun y p₃ hjoin' => ?_
  have hj' := joinable_of_joinRelation hp₂ hjoin'
  exact Moves.rel_bind (steps_addJoins x.1 .inner hj') fun _ p₄ _ => Moves.pure _ p₄

theorem steps_search : (search : PlanM α Nat).Moves Steps :=
  search_moves steps_addScans steps_joinPair

end JoinSearch

end QueryPlanner
