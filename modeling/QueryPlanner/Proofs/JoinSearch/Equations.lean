/-
  QueryPlanner.Proofs.JoinSearch.Equations

  Queries of equations can be planned exactly if their sides are shown.

  Distributing a clause adds its columns to the output of their relations, and
  a merge looks there for the sides of its clauses.  A side that is a column
  is found, and so is any that has been added on purpose; then nothing that
  planning does can fail, and the search ends with all relations joined.  A
  side computed from a column is not found, and the search fails.
-/

import QueryPlanner.Pattern.Regex.Engine
import QueryPlanner.Proofs.JoinSearch.Complete
import QueryPlanner.Proofs.JoinSearch.Sides

namespace QueryPlanner

open Outline Planner

variable {α : Type} [Number α] {p q : Planner α} {c : Clause α} {e l r : Expr α}
  {engine : RegexEngine}

/-! ## Scans -/

namespace JoinSearch

/-- A base relation without restrictions and partial indexes. -/
def Scannable (p : Planner α) (id : Nat) : Prop :=
  ∃ r relid, p.relation id = .ok r ∧ r.relid? = some relid ∧ p.Lists r ∧
    ∀ index ∈ r.indexes, index.predicate = []

theorem Scannable.exists_scans {id : Nat} (h : Scannable p id) :
    ∃ r paths, p.relation id = .ok r ∧ Path.scans p r = .ok paths := by
  obtain ⟨r, relid, hr, hrelid, hlists, hwhole⟩ := h
  obtain ⟨paths, hpaths⟩ :=
    Path.scans_total hrelid (hlists.entry relid hrelid) hlists.unrestricted hwhole
  exact ⟨r, paths, hr, hpaths⟩

/-- Paths do not matter for it. -/
theorem Scannable.offer {id : Nat} (h : Scannable p id) (k : Nat) (paths : List (Path α)) :
    Scannable (modifyRelation k (.offer paths) p) id := by
  obtain ⟨r, relid, hr, hrelid, hlists, hwhole⟩ := h
  refine ⟨_, relid, relation_modifyRelation hr, ?_⟩
  split
  · exact ⟨hrelid, ⟨hlists.unrestricted, hlists.entry⟩, hwhole⟩
  · exact ⟨hrelid, ⟨hlists.unrestricted, hlists.entry⟩, hwhole⟩

/-- Base relations that can be scanned are. -/
theorem start_total (hne : p.baseRelations ≠ [])
    (h : ∀ r ∈ p.baseRelations, Scannable p r.id) : ∃ ids q, start p = .ok ids q := by
  have hids : ∀ id ∈ p.baseRelations.map (·.id), Scannable p id := List.forall_mem_map.mpr h
  have hscans : ((p.baseRelations.map (·.id)).forM PlanM.addScans).Ends p
      (fun _ q => ∀ id ∈ p.baseRelations.map (·.id), Scannable q id) fun _ _ => False := by
    refine PlanM.Ends.forM (fun q hq id hid => ?_) hids
    obtain ⟨r, paths, hr, hpaths⟩ := (hq id hid).exists_scans
    exact .of_ok (PlanM.addScans_of_ok hr hpaths) fun id' hid' => (hq id' hid').offer id paths
  obtain ⟨_, q, hrun, -⟩ := hscans.exists_ok
  refine ⟨p.baseRelations.map (·.id), q, ?_⟩
  rw [start, PlanM.get_bind]
  dsimp only
  rw [if_neg (by simpa using hne), PlanM.bind_of_ok hrun]
  rfl

end JoinSearch

/-! ## Equations with sides that are shown -/

/-- `l = r` by a built-in operator, each side with relations of its own. -/
structure Expr.BuiltinEquation (engine : RegexEngine) (e l r : Expr α) : Prop where
  operator : ∃ opno op, e = .op opno [l, r] ∧
    (OperatorCatalog.builtin engine : OperatorCatalog α).get? opno = some op ∧ op.name = "="
  left : l.relations.toFinset.Nonempty
  right : r.relations.toFinset.Nonempty
  disjoint : Disjoint l.relations.toFinset r.relations.toFinset

omit [Number α] in
theorem Expr.BuiltinEquation.equation (h : e.BuiltinEquation engine l r) :
    e.Equation (.builtin engine) l r where
  operator := by
    obtain ⟨opno, op, he, hop, hname⟩ := h.operator
    obtain ⟨hrestrict, hjoin, -⟩ := OperatorCatalog.equality_of_name hop hname
    exact ⟨opno, op, he, hop, hrestrict, hjoin⟩
  left := h.left
  right := h.right
  disjoint := h.disjoint

omit [Number α] in
/-- As a clause it can be merged. -/
theorem Expr.BuiltinEquation.isMergejoinable (h : e.BuiltinEquation engine l r) (id : Nat) :
    (Clause.analyze (.builtin engine) id e).isMergejoinable = true := by
  obtain ⟨opno, op, rfl, hop, hname⟩ := h.operator
  obtain ⟨-, -, hmerge⟩ := OperatorCatalog.equality_of_name hop hname
  have hsides : (!l.relations.isEmpty && !r.relations.isEmpty &&
      !l.relations.overlaps r.relations) = true := by
    rw [RelSet.overlaps_eq_false_iff.mpr h.disjoint, Bool.not_false, Bool.and_true,
      Bool.and_eq_true, Bool.not_eq_true', Bool.not_eq_true', ← Bool.not_eq_true,
      ← Bool.not_eq_true, RelSet.isEmpty_iff, RelSet.isEmpty_iff]
    exact ⟨h.left.ne_empty, h.right.ne_empty⟩
  rw [Clause.isMergejoinable, Clause.analyze]
  simp only [binary?, hsides, if_true, hop, Option.bind_some, Option.isSome_map, hmerge]

/-- A side that a merge finds behind the scan of its relation: a column, which
came with the clause, or an expression that some relation shows. -/
def Planner.Presents (p : Planner α) (e : Expr α) : Prop := (∃ v, e = .var v) ∨ p.Provides e

/-- Both sides are found behind the scans, if the equation can be merged
there: one side has to be of a single relation. -/
def Planner.PresentsSides (p : Planner α) (l r : Expr α) : Prop :=
  l.relations.toFinset.card = 1 ∨ r.relations.toFinset.card = 1 → p.Presents l ∧ p.Presents r

namespace JoinSearch

/-- What is shown then is shown by its own relation, the only one there. -/
theorem shows_of_provides (hp : p.Sound) (hjoins : p.joinRelations = []) (h : p.Provides e)
    (he : e.relations.toFinset.Nonempty) : p.Shows e := by
  obtain ⟨r, hr, hprovides⟩ := h
  have hbase := mem_baseRelations hp.consistent hjoins hr
  obtain ⟨-, x, -, hx⟩ := relid?_of_base hp.consistent hbase
  have hover : e.relations.toFinset ⊆ {x} := hx ▸ (hp.relations r hr).target.of_provides hprovides
  refine ⟨x, he.subset_singleton_iff.mp hover, fun s hs hxs => ?_⟩
  have hbase' := mem_baseRelations hp.consistent hjoins hs
  obtain ⟨-, y, -, hy⟩ := relid?_of_base hp.consistent hbase'
  rw [hy, Finset.mem_singleton] at hxs
  have hnodup : (p.baseRelations.map (·.relids.toFinset)).Nodup :=
    List.pairwise_map.mpr (pairwise_baseRelations hp.consistent)
  have hsame : s = r := List.inj_on_of_nodup_map hnodup hbase' hbase (hy.trans (hxs ▸ hx.symm))
  exact hsame ▸ hprovides

omit [Number α] in
/-- Base relations are as wide as they are by their positions. -/
theorem addsUp_widthAt (hp : Outline.Consistent p.outlines) (hjoins : p.joinRelations = []) :
    AddsUp (fun relid => (p.widthAt relid).toInt) p := by
  intro r hr
  obtain ⟨-, x, hx, hset⟩ := relid?_of_base hp (mem_baseRelations hp hjoins hr)
  rw [hset, Finset.sum_singleton, widthAt]
  cases hs : p.baseRelation? x with
  | none =>
      have hbuilt : Built p.outlines x := ⟨r.outline, List.mem_map_of_mem hr, hx⟩
      exact absurd hbuilt (baseRelation?_eq_none_iff.mp hs)
  | some s => rw [eq_of_relid? hp hr (mem_of_baseRelation? hs) hx (baseRelation?_eq_some hs).2]

omit [Number α] in
/-- What is not built takes no room. -/
theorem hasRoom_widthAt (hp : p.WidthsNonneg)
    (hfits : ∑ relid ∈ positions p, (p.widthAt relid).toInt < 2147483648) :
    HasRoom fun relid => (p.widthAt relid).toInt where
  nonneg := widthAt_nonneg hp
  fits s := by
    have hzero : ∀ x ∈ s ∪ positions p, x ∉ positions p → (p.widthAt x).toInt = 0 := by
      intro x _ hx
      have hnone : p.baseRelation? x = none := by
        cases hr : p.baseRelation? x with
        | none => rfl
        | some r =>
            have hrelid := (baseRelation?_eq_some hr).2
            have hbase := mem_baseRelations_iff.mpr ⟨mem_of_baseRelation? hr, x, hrelid⟩
            exact absurd (mem_positions_iff.mpr ⟨r, hbase, hrelid⟩) hx
      rw [widthAt, hnone]
      exact Int32.toInt_zero
    calc ∑ x ∈ s, (p.widthAt x).toInt
        ≤ ∑ x ∈ s ∪ positions p, (p.widthAt x).toInt :=
          Finset.sum_le_sum_of_subset_of_nonneg Finset.subset_union_left
            fun x _ _ => widthAt_nonneg hp x
      _ = ∑ x ∈ positions p, (p.widthAt x).toInt :=
          (Finset.sum_subset Finset.subset_union_right hzero).symm
      _ < 2147483648 := hfits

end JoinSearch

/-- A side of a clause that is found behind the scans is shown by a
relation. -/
theorem Placed.provides {requests : List (Request α)} {a b : Expr α} (h : Placed requests p c)
    (hequation : c.expr.BuiltinEquation engine l r) (hab : c.HasOperands a b) (ha : p.Presents a) :
    p.Provides a := by
  rcases ha with ⟨v, rfl⟩ | ha
  · refine h.columns hequation.equation.two_le_size v ?_
    obtain ⟨opno, -, he, -⟩ := hequation.operator
    rw [he, Expr.mem_vars_op]
    rcases hab.eq_or_eq he with ⟨rfl, -⟩ | ⟨rfl, -⟩
    · exact .inl List.mem_cons_self
    · exact .inr List.mem_cons_self
  · exact ha

/-- A session that has distributed equations, and has joined nothing yet. -/
structure Planner.HasEquations (engine : RegexEngine) (requests : List (Request α))
    (all : List (Clause α)) (p : Planner α) : Prop where
  settled : Settled all p
  sound : p.Sound
  lists : ∀ r ∈ p.relations, p.Lists r
  operators : p.operators = .builtin engine
  joins : p.joinRelations = []
  widths : p.WidthsNonneg
  placed : ∀ c ∈ all, Placed requests p c
  analyze : ∀ c ∈ all, ∃ id, c = .analyze (.builtin engine) id c.expr
  equations : ∀ c ∈ all, ∃ l r, c.expr.BuiltinEquation engine l r
  complete : ∀ e, .distribute e ∈ requests → ∃ c ∈ all, c.expr = e

namespace Planner.HasEquations

variable {requests : List (Request α)} {all : List (Clause α)}

/-- A regular session that has distributed nothing but equations. -/
theorem of_session {settings : Settings α} {catalog : RelationSource α}
    {statistics : StatisticsProvider α} {rangeTable : List RangeTableEntry}
    {log : List (Event α)}
    (hsession :
      session requests (.start settings (.builtin engine) catalog statistics rangeTable) = (log, p))
    (hregular : Regular requests (.start settings (.builtin engine) catalog statistics rangeTable))
    (hdistributed : ∀ e err, .refused (.distribute e) err ∉ log) (hjoins : p.joinRelations = [])
    (hequations : ∀ e, .distribute e ∈ requests → ∃ l r, e.BuiltinEquation engine l r) :
    p.HasEquations engine requests (clausesOf log) := by
  obtain ⟨rfl, rfl⟩ := Prod.ext_iff.mp hsession.symm
  have hclauses := hasClauses_session
    (.start settings (.builtin engine) catalog statistics rangeTable) hdistributed
  rw [List.nil_append] at hclauses
  have hstart := sound_start settings (.builtin engine) catalog statistics rangeTable
  -- No clause is over a single relation, so none restricts one.
  have hsize : ∀ e, .distribute e ∈ requests → 2 ≤ e.relations.size := fun e he => by
    obtain ⟨l, r, hequation⟩ := hequations e he
    exact hequation.equation.two_le_size
  have hsources := sources_session hsize
    (.start settings (.builtin engine) catalog statistics rangeTable)
  have hplaced := placed_session hstart hregular
  exact {
    settled := hclauses.settled hjoins
    sound := (sound_session hstart hregular).1
    lists := hsources.lists nofun
    operators := hsources.operators_eq
    joins := hjoins
    widths :=
      widthsNonneg_session settings (.builtin engine) catalog statistics rangeTable requests
    placed := hplaced
    analyze := fun c hc => analyze_session rfl hsize hc
    equations := fun c hc => hequations c.expr (hplaced c hc).requested
    complete := fun e he => exists_clause_session hdistributed he }

/-- An equation can be followed if its sides are found behind the scans. -/
theorem follows (h : p.HasEquations engine requests all) (hc : c ∈ all)
    (hequation : c.expr.BuiltinEquation engine l r) (hsides : p.PresentsSides l r) :
    p.Follows c where
  analyzed := (h.placed c hc).analyzed
  equates := by
    refine ⟨⟨l, r, h.operators ▸ hequation.equation⟩, fun x hx => ?_⟩
    have hsize := hequation.equation.two_le_size
    rw [← (h.placed c hc).analyzed.required_eq] at hsize hx
    have hbuilt := h.settled.covers.built c hc hsize x hx
    refine ⟨exists_baseRelation_iff.mpr hbuilt, ?_⟩
    obtain ⟨o, ho, hrelid⟩ := hbuilt
    obtain ⟨s, hs, rfl⟩ := List.mem_map.mp ho
    exact (h.lists s hs).entry x hrelid
  shows a b hab hone := by
    obtain ⟨opno, -, he, -⟩ := hequation.operator
    have hshows : ∀ a b, c.HasOperands a b → p.Presents a → a.relations.toFinset.Nonempty →
        p.Shows a := fun a b hab ha hne =>
      JoinSearch.shows_of_provides h.sound h.joins ((h.placed c hc).provides hequation hab ha) hne
    -- The operands are the sides, in either order.
    rcases hab.eq_or_eq he with ⟨rfl, rfl⟩ | ⟨rfl, rfl⟩
    · obtain ⟨hl, hr⟩ := hsides hone
      exact ⟨hshows a b hab hl hequation.left, hshows b a hab.symm hr hequation.right⟩
    · obtain ⟨hl, hr⟩ := hsides hone.symm
      exact ⟨hshows a b hab hr hequation.right, hshows b a hab.symm hl hequation.left⟩

/-- With all sides found behind the scans, and room for all relations at once, the
session can be planned. -/
theorem plans (h : p.HasEquations engine requests all)
    (hfits : ∑ relid ∈ JoinSearch.positions p, (p.widthAt relid).toInt < 2147483648)
    (hsides : ∀ c ∈ all, ∀ l r, c.expr.BuiltinEquation engine l r → p.PresentsSides l r) :
    Plans all p where
  settled := h.settled
  sound := h.sound
  operators := h.operators ▸ OperatorCatalog.closed_builtin
  room := ⟨_, JoinSearch.hasRoom_widthAt h.widths hfits,
    JoinSearch.addsUp_widthAt h.sound.consistent h.joins⟩
  follows c hc := by
    obtain ⟨l, r, hequation⟩ := h.equations c hc
    exact h.follows hc hequation (hsides c hc l r hequation)

/-- A search that succeeds has found the sides. -/
theorem presentsSides {id : Nat} (h : p.HasEquations engine requests all)
    (hrun : JoinSearch.search p = .ok id q) (hc : c ∈ all)
    (hequation : c.expr.BuiltinEquation engine l r) : p.PresentsSides l r := by
  have hm : c.isMergejoinable = true := by
    obtain ⟨k, hk⟩ := h.analyze c hc
    rw [hk]
    exact hequation.isMergejoinable k
  have hlr : c.HasOperands l r := by
    obtain ⟨opno, -, he, -⟩ := hequation.operator
    exact ⟨opno, .inl (by rw [he, Expr.binary?])⟩
  have hprovides : ∀ a b, c.HasOperands a b → a.relations.toFinset.Nonempty →
      Disjoint a.relations.toFinset b.relations.toFinset → b.relations.toFinset.card = 1 →
      p.Provides a ∧ p.Provides b := fun a b hab ha hd hone =>
    JoinSearch.provides_of_search h.settled h.sound h.joins
      (fun c hc => (h.placed c hc).analyzed) hrun hc hm hab ha hd hone
  -- The last relation to be joined is the only one of its side.
  rintro (hone | hone)
  · exact (hprovides r l hlr.symm hequation.right hequation.disjoint.symm hone).symm.imp .inr .inr
  · exact (hprovides l r hlr hequation.left hequation.disjoint hone).imp .inr .inr

/-- The sides of what has been distributed. -/
theorem sides_of_search {id : Nat} (h : p.HasEquations engine requests all)
    (hrun : JoinSearch.search p = .ok id q) :
    ∀ e l r, .distribute e ∈ requests → e.BuiltinEquation engine l r → p.PresentsSides l r := by
  intro e l r he hequation
  obtain ⟨c, hc, rfl⟩ := h.complete e he
  exact h.presentsSides hrun hc hequation

/-- With all of these found behind the scans all relations are joined. -/
theorem search_total {ids : List Nat} (h : p.HasEquations engine requests all)
    (hstart : JoinSearch.start p = .ok ids q)
    (hfits : ∑ relid ∈ JoinSearch.positions p, (p.widthAt relid).toInt < 2147483648)
    (hsides : ∀ e l r, .distribute e ∈ requests → e.BuiltinEquation engine l r →
      p.PresentsSides l r) :
    ∃ id q, JoinSearch.search p = .ok id q := by
  have hplans := h.plans hfits fun c hc l r => hsides c.expr l r (h.placed c hc).requested
  have hends := (Plans.progress all).search h.sound.consistent
    (.of_ok hstart (hplans.start hstart))
  obtain ⟨id, q', hsearch, -⟩ := hends.exists_ok fun _ _ => False.elim
  exact ⟨id, q', hsearch⟩

/-- A search that succeeds has had room for all of them: the relation that it ends
with is as wide as they are together. -/
theorem fits_of_search {id : Nat} (h : p.HasEquations engine requests all)
    (hrun : JoinSearch.search p = .ok id q) :
    ∑ relid ∈ JoinSearch.positions p, (p.widthAt relid).toInt < 2147483648 := by
  have hkeeps : KeepsWidths p q := (JoinSearch.search_moves PlanM.keepsWidths_addScans
    (JoinSearch.joinPair_moves PlanM.keepsWidths_joinRelation PlanM.keepsWidths_addJoins)).of_ok hrun
  obtain ⟨r, hr, hrelids⟩ := JoinSearch.relids_of_search h.sound.consistent hrun
  have hwidth := hkeeps _ (JoinSearch.addsUp_widthAt h.sound.consistent h.joins) r
    (mem_of_relation hr)
  rw [hrelids] at hwidth
  exact hwidth ▸ r.toInt_width_lt

/-- Whole indexes can be scanned. -/
theorem start_total (h : p.HasEquations engine requests all) (hne : p.baseRelations ≠ [])
    (hwhole : ∀ r ∈ p.baseRelations, ∀ index ∈ r.indexes, index.predicate = []) :
    ∃ ids q, JoinSearch.start p = .ok ids q := by
  refine JoinSearch.start_total hne fun r hr => ?_
  obtain ⟨hmem, x, hx⟩ := mem_baseRelations_iff.mp hr
  exact ⟨r, x, relation_id h.sound.consistent hmem, hx, h.lists r hmem, hwhole r hr⟩

end Planner.HasEquations

namespace JoinSearch

/-- Where all distributed clauses are equations, the search succeeds exactly if
the base relations get their scans, their widths can be added up, and the
equations have sides that are found behind the scans.  It ends with all
relations joined then; and whole indexes can always be scanned. -/
theorem search_of_equations {settings : Settings α} {catalog : RelationSource α}
    {statistics : StatisticsProvider α} {rangeTable : List RangeTableEntry}
    {requests : List (Request α)} {log : List (Event α)} {p : Planner α}
    (hsession :
      session requests (.start settings (.builtin engine) catalog statistics rangeTable) = (log, p))
    (hregular : Regular requests (.start settings (.builtin engine) catalog statistics rangeTable))
    (hdistributed : ∀ e err, .refused (.distribute e) err ∉ log) (hjoins : p.joinRelations = [])
    (hequations : ∀ e, .distribute e ∈ requests → ∃ l r, e.BuiltinEquation engine l r) :
    ((∃ id q, search p = .ok id q) ↔ (∃ ids q, start p = .ok ids q) ∧
      ∑ relid ∈ positions p, (p.widthAt relid).toInt < 2147483648 ∧
      ∀ e l r, .distribute e ∈ requests → e.BuiltinEquation engine l r → p.PresentsSides l r) ∧
    (∀ id q, search p = .ok id q →
      ∃ r, q.relation id = .ok r ∧ r.relids.toFinset = positions p) ∧
    (p.baseRelations ≠ [] →
      (∀ r ∈ p.baseRelations, ∀ index ∈ r.indexes, index.predicate = []) →
      ∃ ids q, start p = .ok ids q) := by
  have h := HasEquations.of_session hsession hregular hdistributed hjoins hequations
  refine ⟨⟨?_, ?_⟩, fun id q hrun => ?_, h.start_total⟩
  · rintro ⟨id, q, hrun⟩
    obtain ⟨ids, p₁, hstart, -⟩ := PlanM.bind_eq_ok.mp hrun
    exact ⟨⟨ids, p₁, hstart⟩, h.fits_of_search hrun, h.sides_of_search hrun⟩
  · rintro ⟨⟨ids, q, hstart⟩, hfits, hsides⟩
    exact h.search_total hstart hfits hsides
  · exact relids_of_search h.sound.consistent hrun

section Example

/-- A session over two relations that are not stored. -/
def twoSubqueries : Planner Float :=
  .start .standard (.builtin Regex.engine) Catalog.empty.source (StatisticsStore.provider ⟨[]⟩)
    [.subquery, .subquery]

/-- The first column of the first relation, with another type. -/
def firstRelabeled : Expr Float := .relabel (.var ⟨1, 1, .oid, -1⟩) .int4 (-1)

/-- Its equation with the first column of the second relation. -/
def relabeledEquation : Expr Float := .op 1012 [firstRelabeled, .var ⟨2, 1, .int4, -1⟩]

theorem builtinEquation_relabeled :
    relabeledEquation.BuiltinEquation Regex.engine firstRelabeled (.var ⟨2, 1, .int4, -1⟩) where
  operator := by
    have hname : ((OperatorCatalog.builtin Regex.engine : OperatorCatalog Float).get? 1012).map
        (·.name) = some "=" := by decide +kernel
    obtain ⟨op, hop, hname⟩ := Option.map_eq_some_iff.mp hname
    exact ⟨1012, op, rfl, hop, hname⟩
  left := by decide +kernel
  right := by decide +kernel
  disjoint := by decide +kernel

/-- The equation, with its computed side shown. -/
def relabeledShown : List (Request Float) :=
  [.addTarget 1 firstRelabeled, .distribute relabeledEquation]

/-- The relations are joined on the relabeled column. -/
theorem search_of_equations_relabeledShown :
    ∃ log p id q r, session relabeledShown twoSubqueries = (log, p) ∧
      Regular relabeledShown twoSubqueries ∧ (∀ e err, .refused (.distribute e) err ∉ log) ∧
      p.joinRelations = [] ∧
      (∀ e, .distribute e ∈ relabeledShown → ∃ l r, e.BuiltinEquation Regex.engine l r) ∧
      search p = .ok id q ∧ q.relation id = .ok r ∧ r.relids.toFinset = {1, 2} := by
  obtain ⟨⟨log, p⟩, hsession⟩ : ∃ x, session relabeledShown twoSubqueries = x := ⟨_, rfl⟩
  have hlog : log = (session relabeledShown twoSubqueries).1 := by rw [hsession]
  have hp : p = (session relabeledShown twoSubqueries).2 := by rw [hsession]
  have hregular : Regular relabeledShown twoSubqueries := by
    intro before r after h
    have hmem : r ∈ relabeledShown := h ▸ List.mem_append_right before List.mem_cons_self
    rcases List.mem_cons.mp hmem with rfl | hmem
    · show firstRelabeled.relations.toFinset ⊆ _
      rw [firstRelabeled, ← Expr.relations_stripRelabel]
      exact Expr.over_singleton_var (α := Float) ⟨1, 1, .oid, -1⟩
    · obtain rfl := List.mem_singleton.mp hmem
      trivial
  have hdistributed : ∀ e err, .refused (.distribute e) err ∉ log := by
    have hnone : log.any Event.isRefused = false := by
      rw [hlog]
      decide +kernel
    exact fun _ _ => not_mem_of_isRefused hnone
  have hjoins : p.joinRelations = [] := by
    rw [hp, ← List.isEmpty_iff]
    decide +kernel
  have hrelabeled : ∀ e, .distribute e ∈ relabeledShown → e = relabeledEquation := by
    intro e he
    rcases List.mem_cons.mp he with he | he
    · exact nomatch he
    · cases List.mem_singleton.mp he
      rfl
  have hequations : ∀ e, .distribute e ∈ relabeledShown →
      ∃ l r, e.BuiltinEquation Regex.engine l r :=
    fun e he => hrelabeled e he ▸ ⟨_, _, builtinEquation_relabeled⟩
  have hsides : ∀ e l r, .distribute e ∈ relabeledShown → e.BuiltinEquation Regex.engine l r →
      p.PresentsSides l r := by
    intro e l r he hequation
    obtain rfl := hrelabeled e he
    obtain ⟨opno, -, hop, -⟩ := hequation.operator
    cases hop
    have hany : p.relations.any (·.target.provides firstRelabeled) = true := by
      rw [hp]
      decide +kernel
    obtain ⟨r, hr, hprovides⟩ := List.any_eq_true.mp hany
    exact fun _ => ⟨.inr ⟨r, hr, hprovides⟩, .inl ⟨_, rfl⟩⟩
  obtain ⟨hsearch, hresult, hscans⟩ :=
    search_of_equations hsession hregular hdistributed hjoins hequations
  have hstart := hscans (by rw [hp]; decide +kernel) (by rw [hp]; decide +kernel)
  have hpositions : positions p = {1, 2} := by
    rw [hp]
    decide +kernel
  -- No size has been estimated.
  have hfits : ∑ relid ∈ positions p, (p.widthAt relid).toInt < 2147483648 := by
    rw [hpositions, hp]
    decide +kernel
  obtain ⟨id, q, hrun⟩ := hsearch.mpr ⟨hstart, hfits, hsides⟩
  obtain ⟨r, hr, hrelids⟩ := hresult id q hrun
  exact ⟨log, p, id, q, r, hsession, hregular, hdistributed, hjoins, hequations, hrun, hr,
    hrelids.trans hpositions⟩

/-- The search fails to find the sides of an equation. -/
def missesSides (p : Planner Float) (e : Expr Float) : Bool :=
  match search p with
  | .error (.operandsNotInTarget clause) _ => clause = e
  | _ => false

/-- Without the side shown the equation is distributed all the same, and then
the search does not find it. -/
theorem search_fails_relabeled :
    ∃ log p q, session [.distribute relabeledEquation] twoSubqueries = (log, p) ∧
      (∀ e err, .refused (.distribute e) err ∉ log) ∧
      relabeledEquation.BuiltinEquation Regex.engine firstRelabeled (.var ⟨2, 1, .int4, -1⟩) ∧
      (∃ ids p', start p = .ok ids p') ∧
      search p = .error (.operandsNotInTarget relabeledEquation) q := by
  obtain ⟨⟨log, p⟩, hsession⟩ :
    ∃ x, session [.distribute relabeledEquation] twoSubqueries = x := ⟨_, rfl⟩
  have hlog : log = (session [.distribute relabeledEquation] twoSubqueries).1 := by rw [hsession]
  have hp : p = (session [.distribute relabeledEquation] twoSubqueries).2 := by rw [hsession]
  have hdistributed : ∀ e err, .refused (.distribute e) err ∉ log := by
    have hnone : log.any Event.isRefused = false := by
      rw [hlog]
      decide +kernel
    exact fun _ _ => not_mem_of_isRefused hnone
  have hstart : start.succeeds p = true := by
    rw [hp]
    decide +kernel
  have hmisses : missesSides p relabeledEquation = true := by
    rw [hp]
    decide +kernel
  rw [missesSides] at hmisses
  split at hmisses
  · rename_i clause q hrun
    obtain rfl := of_decide_eq_true hmisses
    exact ⟨log, p, q, hsession, hdistributed, builtinEquation_relabeled,
      PlanM.exists_ok_of_succeeds hstart, hrun⟩
  · exact nomatch hmisses

end Example

end JoinSearch

end QueryPlanner
