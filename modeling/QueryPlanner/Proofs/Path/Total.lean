/-
  QueryPlanner.Proofs.Path.Total

  Paths that can be costed.

  Offering a join its paths fails in two ways: an estimate finds something
  missing, or an input does not show the side of a merge clause that comes
  from it.  Neither happens if the clauses are equations between relations
  that are built and every relation shows the sides that it could be sorted
  by.  The scans of a relation without restrictions, and without partial
  indexes, can always be costed.
-/

import QueryPlanner.Path.Joins
import QueryPlanner.Proofs.Path.Fit
import QueryPlanner.Proofs.Selectivity

namespace QueryPlanner

open PlanM

variable {α : Type} [Number α] {p : Planner α} {c : Clause α} {e : Expr α} {r : Relation α}

/-! ## Clauses that can be followed -/

/-- An expression of one relation is shown wherever the relation is joined
in. -/
def Planner.Shows (p : Planner α) (e : Expr α) : Prop :=
  ∃ relid, e.relations.toFinset = {relid} ∧
    ∀ r ∈ p.relations, relid ∈ r.relids.toFinset → r.target.provides e = true

theorem Planner.Shows.provides (h : p.Shows e) (hr : r ∈ p.relations)
    (he : e.From r.relids) : r.target.provides e = true := by
  obtain ⟨relid, hrelid, h⟩ := h
  refine h r hr (he.subset ?_)
  rw [hrelid]
  exact Finset.mem_singleton_self relid

/-- An equation of the session, both sides of which are shown unless both of
them read several relations. -/
structure Planner.Follows (p : Planner α) (c : Clause α) : Prop where
  analyzed : c.Analyzed
  equates : p.Equates c.expr
  shows : ∀ a b, c.HasOperands a b →
    a.relations.toFinset.card = 1 ∨ b.relations.toFinset.card = 1 → p.Shows a ∧ p.Shows b

namespace Pathkeys

/-- A merge clause can be followed by an input that shows one of its sides. -/
theorem mergeItem_total {target : TargetList α} {a b : Expr α} (hm : c.isMergejoinable = true)
    (h : c.HasOperands a b) (ha : target.provides a = true) :
    ∃ item, mergeItem target c = .ok item := by
  obtain ⟨opno, hop | hop⟩ := h
  · obtain ⟨l, r, hsides, rfl, rfl⟩ := Clause.mergeSides?_eq_some hm hop
    exact ⟨l, by rw [mergeItem_of_sides hsides, if_pos ha]⟩
  · obtain ⟨l, r, hsides, rfl, rfl⟩ := Clause.mergeSides?_eq_some hm hop
    rw [mergeItem_of_sides hsides, if_pos ha]
    split
    · exact ⟨l, rfl⟩
    · exact ⟨r, rfl⟩

theorem ofMergeClauses_total {target : TargetList α} {clauses : List (Clause α)}
    (h : ∀ c ∈ clauses, ∃ item, mergeItem target c = .ok item) :
    ∃ ps, ofMergeClauses clauses target = .ok ps :=
  foldlM_total (fun _ c hc => except_bind_total (h c hc) fun _ _ => ⟨_, rfl⟩) []

end Pathkeys

/-! ## Costs -/

namespace Path

theorem build_total {operator : PathOperator α} {order : Pathkeys α}
    (h : ∃ c, cost p r operator = .ok c) : ∃ path, build p r operator order = .ok path :=
  except_bind_total h fun _ _ => ⟨_, rfl⟩

variable {join : Join α} {clauses : List (Clause α)}

omit [Number α] in
theorem relids_total {path : Path α} (h : ∃ r, p.relation path.parent = .ok r) :
    ∃ s, relids p path = .ok s :=
  except_bind_total h fun _ _ => ⟨_, rfl⟩

theorem rowsPassing_total (h : ∀ c ∈ clauses, p.Equates c.expr) :
    ∃ rows, rowsPassing p join clauses = .ok rows := by
  have hlist : ∀ e ∈ clauses.map (·.expr), p.Equates e := List.forall_mem_map.mpr h
  exact except_bind_total (Selectivity.clauseList_total hlist) fun _ _ => ⟨_, rfl⟩

theorem mergeJoinCost_total {outerSort innerSort : Pathkeys α} (hp : p.operators.Closed)
    (hne : clauses ≠ []) (h : ∀ c ∈ clauses, p.Equates c.expr)
    (houter : ∃ r, p.relation join.outer.parent = .ok r) :
    ∃ c, mergeJoinCost p join clauses outerSort innerSort = .ok c := by
  cases clauses with
  | nil => exact absurd rfl hne
  | cons first rest =>
      rw [mergeJoinCost]
      refine except_bind_total (Selectivity.mergeScan_total hp (h first List.mem_cons_self))
        fun scan _ => ?_
      exact except_bind_total (relids_total houter) fun _ _ =>
        except_bind_total (rowsPassing_total h) fun _ _ => ⟨_, rfl⟩

omit [Number α] in
/-- Either side of an equation can be hashed. -/
theorem exists_hashKey (inner : RelSet) (h : p.Equates c.expr) :
    ∃ k, hashKey inner c = .ok k ∧ p.BindsAll k := by
  obtain ⟨l, r, he, hl, hr⟩ := h.sides
  obtain ⟨opno, op, hop, -⟩ := he.operator
  rw [hashKey, Clause.leftExpr?, Clause.rightExpr?, hop, Expr.binary?]
  by_cases hside : c.left.isSubset inner = true
  · simp only [hside, if_true, Option.map_some]
    exact ⟨l, rfl, hl⟩
  · simp only [hside, Option.map_some]
    exact ⟨r, rfl, hr⟩

theorem bucketFraction_total {inner : RelSet} {buckets : Nat}
    (h : ∀ c ∈ clauses, p.Equates c.expr) :
    ∃ f, bucketFraction p inner buckets clauses = .ok f := by
  refine foldlM_total (fun least c hc => ?_) 1
  obtain ⟨k, hk, hb⟩ := exists_hashKey inner (h c hc)
  refine except_bind_total_of_ok hk ?_
  exact except_bind_total (Grouping.bucketSize_total hb) fun _ _ => ⟨_, rfl⟩

theorem hashJoinCost_total (h : ∀ c ∈ clauses, p.Equates c.expr)
    (hinner : ∃ r, p.relation join.inner.parent = .ok r) :
    ∃ c, hashJoinCost p join clauses = .ok c :=
  except_bind_total (relids_total hinner) fun _ _ =>
    except_bind_total (bucketFraction_total h) fun _ _ =>
      except_bind_total (rowsPassing_total h) fun _ _ => ⟨_, rfl⟩

end Path

/-! ## Scans of a relation without restrictions -/

namespace Path

variable {relid : RtIndex} {index : Index α}

/-- Nothing narrows the scan of a whole index. -/
theorem indexAccess_total (hrelid : r.relid? = some relid) (hentry : ∃ e, p.entry relid = .ok e)
    (hwhole : index.predicate = []) : ∃ c, IndexAccess.cost p r index [] = .ok c := by
  have hnarrowing : IndexAccess.narrowing index ([] : List (Expr α)) = [] := by
    rw [IndexAccess.narrowing, hwhole]
    rfl
  have hbasic : ∃ c, IndexAccess.basicCost p r index [] = .ok c := by
    rw [IndexAccess.basicCost, hrelid]
    simp only [hnarrowing]
    exact ⟨_, rfl⟩
  have hleading : ∃ s, IndexAccess.leadingStatistics p r index = .ok s := by
    rw [IndexAccess.leadingStatistics]
    split
    · rename_i h
      obtain rfl := Option.some.inj (hrelid.symm.trans h)
      exact except_bind_total hentry fun _ _ => ⟨_, rfl⟩
    · exact ⟨_, rfl⟩
    · exact ⟨_, rfl⟩
  have hcorrelation : ∃ c, IndexAccess.correlation p r index = .ok c := by
    rw [IndexAccess.correlation]
    split
    · exact ⟨_, rfl⟩
    · exact except_bind_total hleading fun _ _ => ⟨_, rfl⟩
  refine except_bind_total hbasic fun basic _ => ?_
  split
  · refine except_bind_total hcorrelation fun c _ => ?_
    split
    · exact ⟨_, rfl⟩
    · exact ⟨_, rfl⟩
  · exact ⟨_, rfl⟩

theorem scans_total (hrelid : r.relid? = some relid) (hentry : ∃ e, p.entry relid = .ok e)
    (hunrestricted : r.restrictions = []) (hwhole : ∀ index ∈ r.indexes, index.predicate = []) :
    ∃ paths, scans p r = .ok paths := by
  have hquals (index : Index α) : IndexAccess.quals p r index = [] := by
    rw [IndexAccess.quals, hrelid]
    simp only [Relation.restrictionExprs, hunrestricted]
    rfl
  rw [scans, hrelid]
  refine except_bind_total (build_total ?_) fun _ _ => except_bind_total (mapM_total ?_) fun _ _ =>
    ⟨_, rfl⟩
  · exact ⟨_, if_pos hrelid⟩
  · intro index hindex
    refine mapM_total fun order _ => build_total ?_
    rw [cost, indexScanCost, hquals]
    simp only [hrelid, if_true]
    exact except_bind_total (indexAccess_total hrelid hentry (hwhole index hindex)) fun _ _ =>
      ⟨_, rfl⟩

end Path

/-! ## Joins of two relations -/

namespace Pairing

variable {j : Pairing α} {outer inner : Path α}

/-- Two relations of a session, one of them with a single member, with paths of
it and clauses that can be followed. -/
structure Plannable (p : Planner α) (j : Pairing α) : Prop where
  operators : p.operators.Closed
  outer_mem : j.outer ∈ p.relations
  inner_mem : j.inner ∈ p.relations
  single : j.outer.relids.toFinset.card = 1 ∨ j.inner.relids.toFinset.card = 1
  outer_parent : ∀ path ∈ j.outer.paths, ∃ r, p.relation path.parent = .ok r
  inner_parent : ∀ path ∈ j.inner.paths, ∃ r, p.relation path.parent = .ok r
  follows : ∀ c ∈ j.restrictions, p.Follows c

namespace Plannable

theorem mergeItem_total (h : j.Plannable p) (hc : c ∈ j.mergeable) :
    (∃ item, Pathkeys.mergeItem j.outer.target c = .ok item) ∧
      ∃ item, Pathkeys.mergeItem j.inner.target c = .ok item := by
  obtain ⟨hmem, hm, hsep⟩ := mem_mergeable_iff.mp hc
  have hfollows := h.follows c hmem
  obtain ⟨a, b, hab, ha, hb⟩ := hfollows.analyzed.splits (.inl hm) hsep
  obtain ⟨hashown, hbshown⟩ := hfollows.shows a b hab (h.single.imp ha.card_eq_one hb.card_eq_one)
  exact ⟨Pathkeys.mergeItem_total hm hab (hashown.provides h.outer_mem ha),
    Pathkeys.mergeItem_total hm hab.symm (hbshown.provides h.inner_mem hb)⟩

theorem equates_mergeable (h : j.Plannable p) : ∀ c ∈ j.mergeable, p.Equates c.expr :=
  fun c hc => (h.follows c (mem_mergeable_iff.mp hc).1).equates

theorem sortedMerge_total (h : j.Plannable p) (ho : outer ∈ j.outer.paths) :
    ∃ paths, sortedMerge p j outer inner = .ok paths := by
  rw [sortedMerge]
  split
  · exact ⟨_, rfl⟩
  · rename_i hne
    refine except_bind_total (Pathkeys.ofMergeClauses_total fun c hc => (h.mergeItem_total hc).1)
      fun outerSort _ => ?_
    refine except_bind_total (Pathkeys.ofMergeClauses_total fun c hc => (h.mergeItem_total hc).2)
      fun innerSort _ => ?_
    refine except_bind_total (Path.build_total ?_) fun _ _ => ⟨_, rfl⟩
    exact Path.mergeJoinCost_total h.operators hne h.equates_mergeable (h.outer_parent outer ho)

theorem presortedMerge_total (h : j.Plannable p) (ho : outer ∈ j.outer.paths) :
    ∃ paths, presortedMerge p j outer inner = .ok paths := by
  rw [presortedMerge]
  split
  · exact ⟨_, rfl⟩
  · rename_i hne
    have hmem : ∀ c ∈ Pathkeys.findMergeClauses outer.pathkeys j.mergeable, c ∈ j.mergeable :=
      fun c hc => Pathkeys.mem_of_mem_findMergeClauses hc
    refine except_bind_total (Pathkeys.ofMergeClauses_total fun c hc =>
      (h.mergeItem_total (hmem c hc)).2) fun required _ => ?_
    have hequates := fun c hc => h.equates_mergeable c (hmem c hc)
    refine except_bind_total (Path.build_total ?_) fun _ _ => ⟨_, rfl⟩
    split
    · exact Path.mergeJoinCost_total h.operators hne hequates (h.outer_parent outer ho)
    · exact Path.mergeJoinCost_total h.operators hne hequates (h.outer_parent outer ho)

theorem joinsOf_total (h : j.Plannable p) (ho : outer ∈ j.outer.paths) :
    ∃ paths, joinsOf p j inner outer = .ok paths :=
  except_bind_total (Path.build_total ⟨_, rfl⟩) fun _ _ =>
    except_bind_total (h.presortedMerge_total ho) fun _ _ => ⟨_, rfl⟩

theorem hashed_total (h : j.Plannable p) (hi : inner ∈ j.inner.paths) :
    ∃ paths, hashed p j outer inner = .ok paths := by
  rw [hashed]
  split
  · exact ⟨_, rfl⟩
  · refine except_bind_total (Path.build_total ?_) fun _ _ => ⟨_, rfl⟩
    exact Path.hashJoinCost_total
      (fun c hc => (h.follows c (mem_hashable_iff.mp hc).1).equates) (h.inner_parent inner hi)

/-- All join paths of the two relations can be costed. -/
theorem paths_total (h : j.Plannable p) : ∃ paths, j.paths p = .ok paths := by
  rw [Pairing.paths]
  split
  · rename_i outer inner houter hinner
    have ho := Path.mem_of_cheapest? houter
    have hi := Path.mem_of_cheapest? hinner
    exact except_bind_total (h.sortedMerge_total ho) fun _ _ =>
      except_bind_total (mapM_total fun outer ho => h.joinsOf_total ho) fun _ _ =>
        except_bind_total (h.hashed_total hi) fun _ _ => ⟨_, rfl⟩
  · exact ⟨_, rfl⟩

end Plannable

end Pairing

end QueryPlanner
