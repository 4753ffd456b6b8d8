/-
  QueryPlanner.Proofs.Planner.Build

  What the builders do to a session.

  Each builder is described once, by the runs it can have.  But for the
  distribution of clauses they leave the relations there are as they are, up to
  estimates and paths: a session `Extends` the one before.
-/

import QueryPlanner.Path.Joins
import QueryPlanner.Planner.Build
import QueryPlanner.Proofs.PlanM
import QueryPlanner.Proofs.Planner.Numbers
import QueryPlanner.Proofs.Planner.Outline

namespace QueryPlanner

open Outline

variable {α : Type} {p q : Planner α} {r : Relation α} {relid : RtIndex} {id : Nat}

/-! ## Relations and their outlines -/

theorem Relation.relid?_outline (r : Relation α) : r.outline.relid? = r.relid? := rfl

namespace Planner

theorem relation_eq_ok_iff : p.relation id = .ok r ↔ p.relations[id]? = some r := by
  rw [relation]
  cases p.relations[id]? with
  | none => exact iff_of_false nofun nofun
  | some s => rw [Except.ok.injEq, Option.some.injEq]

theorem outlines_getElem? (h : p.relation id = .ok r) : p.outlines[id]? = some r.outline := by
  rw [outlines, List.getElem?_map, relation_eq_ok_iff.mp h]
  rfl

theorem outline_mem (h : p.relation id = .ok r) : r.outline ∈ p.outlines :=
  List.mem_of_getElem? (outlines_getElem? h)

theorem exists_relation {o : Outline α} (h : p.outlines[id]? = some o) :
    ∃ r, p.relation id = .ok r ∧ r.outline = o := by
  rw [outlines, List.getElem?_map, Option.map_eq_some_iff] at h
  obtain ⟨r, hr, ho⟩ := h
  exact ⟨r, relation_eq_ok_iff.mpr hr, ho⟩

theorem baseRelation?_eq_some (h : p.baseRelation? relid = some r) :
    r.outline ∈ p.outlines ∧ r.outline.relid? = some relid := by
  rw [baseRelation?_eq_find] at h
  have hr := List.find?_some h
  exact ⟨List.mem_map_of_mem (List.mem_of_find?_eq_some h), beq_iff_eq.mp hr⟩

theorem baseRelation?_eq_none_iff : p.baseRelation? relid = none ↔ ¬ Built p.outlines relid := by
  rw [baseRelation?_eq_find, List.find?_eq_none, Built, outlines]
  simp [Relation.relid?_outline]

theorem exists_baseRelation_iff :
    (∃ r, p.baseRelation relid = .ok r) ↔ Built p.outlines relid := by
  rw [baseRelation]
  cases h : p.baseRelation? relid with
  | none => exact iff_of_false nofun (baseRelation?_eq_none_iff.mp h)
  | some r =>
      obtain ⟨hmem, hrelid⟩ := baseRelation?_eq_some h
      exact iff_of_true ⟨r, rfl⟩ ⟨r.outline, hmem, hrelid⟩

theorem joinRelation?_eq_some {relids : RelSet} (h : p.joinRelation? relids = some r) :
    r.outline ∈ p.outlines ∧ r.kind = .join ∧ r.relids = relids := by
  rw [joinRelation?_eq_find] at h
  have hr := List.find?_some h
  exact ⟨List.mem_map_of_mem (List.mem_of_find?_eq_some h), of_decide_eq_true hr⟩

theorem joinRelation?_eq_none_iff {relids : RelSet} :
    p.joinRelation? relids = none ↔
      ∀ o ∈ p.outlines, o.kind = .join → o.relids ≠ relids := by
  rw [joinRelation?_eq_find, List.find?_eq_none, outlines, List.forall_mem_map]
  simp [Relation.outline]

theorem outlines_addRelation (r : Relation α) (p : Planner α) :
    (p.addRelation r).outlines = p.outlines ++ [r.outline] := by
  rw [addRelation, outlines, List.map_append]
  rfl

theorem outlines_modifyRelation [Number α] {f : Relation.Edit α} {g : Outline α → Outline α}
    (h : ∀ r, (f r).outline = g r.outline) (id : Nat) (p : Planner α) :
    (modifyRelation id f p).outlines = p.outlines.modify id g := by
  refine List.ext_getElem? fun i => ?_
  rw [modifyRelation, outlines, outlines, List.getElem?_map, List.getElem?_modify,
    List.getElem?_modify, List.getElem?_map]
  cases p.relations[i]? with
  | none => rfl
  | some r =>
      by_cases hi : id = i
      · simp [hi, h]
      · simp [hi]

/-- A change of estimates, output or paths is none of the outline. -/
theorem outlines_modifyRelation_of_eq [Number α] {f : Relation.Edit α}
    (h : ∀ r, (f r).outline = r.outline) (id : Nat) (p : Planner α) :
    (modifyRelation id f p).outlines = p.outlines := by
  have hsame := outlines_modifyRelation (g := fun o => o) h id p
  rw [hsame]
  exact List.modify_id id p.outlines

/-- Base relations are those of the kind, each with its position. -/
theorem baseRelations_eq_of_consistent (hp : Consistent p.outlines) :
    p.baseRelations = p.relations.filter fun r => r.kind = .base := by
  rw [baseRelations_eq_filter]
  refine List.filter_congr fun r hr => ?_
  have ho : r.outline ∈ p.outlines := List.mem_map_of_mem hr
  cases hk : r.kind with
  | base =>
      obtain ⟨a, ha⟩ := hp.relids_of_base _ ho hk
      have hrelid : r.relid? = some a := (hp.relid?_eq_some_iff ho).mpr ⟨hk, ha⟩
      rw [hrelid]
      rfl
  | join =>
      rw [Relation.relid?, hk]
      rfl

theorem mem_baseRelations_iff_kind (hp : Consistent p.outlines) :
    r ∈ p.baseRelations ↔ r ∈ p.relations ∧ r.kind = .base := by
  rw [baseRelations_eq_of_consistent hp, List.mem_filter, decide_eq_true_eq]

/-! ## Sessions that extend each other -/

/-- The session has grown by relations, and has read no clause. -/
def Extends (p q : Planner α) : Prop :=
  Grows p.outlines q.outlines ∧ q.nextClause = p.nextClause

instance : IsPreorder (Planner α) Extends where
  refl _ := ⟨.refl, rfl⟩
  trans _ _ _ h h' := ⟨h.1.trans h'.1, h'.2.trans h.2⟩

/-- The relations are the same but for estimates, output and paths. -/
def SameOutlines (p q : Planner α) : Prop :=
  q.outlines = p.outlines ∧ q.nextClause = p.nextClause

instance : IsPreorder (Planner α) SameOutlines where
  refl _ := ⟨rfl, rfl⟩
  trans _ _ _ h h' := ⟨h'.1.trans h.1, h'.2.trans h.2⟩

theorem SameOutlines.extends {p q : Planner α} (h : SameOutlines p q) : Extends p q :=
  ⟨h.1 ▸ .refl, h.2⟩

theorem extends_addRelation (h : Addition p.outlines r.outline) : Extends p (p.addRelation r) := by
  refine ⟨?_, rfl⟩
  rw [outlines_addRelation]
  exact .add .refl h

theorem sameOutlines_modifyRelation [Number α] {f : Relation.Edit α}
    (h : ∀ r, (f r).outline = r.outline) (id : Nat) (p : Planner α) :
    SameOutlines p (modifyRelation id f p) :=
  ⟨outlines_modifyRelation_of_eq h id p, rfl⟩

end Planner

/-! ## Builders -/

namespace PlanM

open Planner

variable [Number α]

/-- The base relation of an entry has its members and sizes, and nothing
else yet. -/
theorem ofEntry_eq_ok (h : Relation.ofEntry p relid = .ok r) :
    r.outline = ofBase p.outlines.length relid ∧ r.target = [] ∧ r.paths = [] ∧
      r.restrictions = [] ∧ r.width = 0 := by
  have hlength : p.outlines.length = p.relations.length := List.length_map ..
  rw [hlength]
  obtain ⟨entry, _, h⟩ := except_bind_eq_ok.mp h
  cases entry with
  | subquery =>
      cases h
      exact ⟨rfl, rfl, rfl, rfl, rfl⟩
  | stored relation =>
      obtain ⟨size, _, h⟩ := except_bind_eq_ok.mp h
      split at h
      · obtain ⟨indexes, _, h⟩ := except_bind_eq_ok.mp h
        cases h
        exact ⟨rfl, rfl, rfl, rfl, rfl⟩
      · cases h
        exact ⟨rfl, rfl, rfl, rfl, rfl⟩

theorem entry_of_ofEntry (h : Relation.ofEntry p relid = .ok r) :
    ∃ entry, p.entry relid = .ok entry := by
  obtain ⟨entry, hentry, _⟩ := except_bind_eq_ok.mp h
  exact ⟨entry, hentry⟩

theorem outline_ofJoin (p : Planner α) (o i : Relation α) (fraction : α) (width : Int32) :
    (Relation.ofJoin p.relations.length o i fraction width).outline =
      ofJoin p.outlines.length o i := by
  have hlength : p.outlines.length = p.relations.length := List.length_map ..
  rw [hlength]
  rfl

/-- The runs that ask for a base relation: it is built, it cannot be built,
or it is new. -/
theorem baseRelation_cases (relid : RtIndex) (p : Planner α) :
    (∃ id r, p.relation id = .ok r ∧ r.outline.relid? = some relid ∧
      baseRelation relid p = .ok id p) ∨
    ¬ Built p.outlines relid ∧ ((∃ e, Relation.ofEntry p relid = .error e ∧
        baseRelation relid p = .error e p) ∨
      ∃ r : Relation α, Relation.ofEntry p relid = .ok r ∧
        baseRelation relid p = .ok r.id (p.addRelation r)) := by
  rw [baseRelation, get_bind]
  cases hid : p.baseIds.lookup relid with
  | some id =>
      obtain ⟨r, hr, hrelid, -⟩ := lookup_eq_some hid
      exact .inl ⟨id, r, relation_eq_ok_iff.mpr hr, hrelid, rfl⟩
  | none =>
      refine .inr ⟨baseRelation?_eq_none_iff.mp (lookup_eq_none_iff.mp hid), ?_⟩
      cases hentry : Relation.ofEntry p relid with
      | error e => exact .inl ⟨e, rfl, ofExcept_bind_of_error rfl⟩
      | ok r => exact .inr ⟨r, rfl, ofExcept_bind_of_ok rfl⟩

/-- The runs that ask for a join: the inputs are none, overlap or cannot be
estimated; the join is built; or it is new. -/
theorem joinRelation_cases (outer inner : Nat) (p : Planner α) :
    (∃ e, joinRelation outer inner p = .error e p) ∨
    ∃ o i, p.relation outer = .ok o ∧ p.relation inner = .ok i ∧
      o.relids.overlaps i.relids = false ∧
      ((∃ r : Relation α, r.outline ∈ p.outlines ∧ r.kind = .join ∧
        r.relids = o.relids.union i.relids ∧ joinRelation outer inner p =
          .ok (r.id, Relation.restrictionsOfJoin (o.relids.union i.relids) o i) p) ∨
      (∀ o' ∈ p.outlines, o'.kind = .join → o'.relids ≠ o.relids.union i.relids) ∧
        ∃ fraction width, o.pairWidth i = .ok width ∧ joinRelation outer inner p =
          .ok (p.relations.length, Relation.restrictionsOfJoin (o.relids.union i.relids) o i)
            (p.addRelation (Relation.ofJoin p.relations.length o i fraction width))) := by
  rw [joinRelation, get_bind]
  cases ho : p.relation outer with
  | error e => exact .inl ⟨e, ofExcept_bind_of_error rfl⟩
  | ok o =>
  rw [ofExcept_bind_of_ok rfl]
  cases hi : p.relation inner with
  | error e => exact .inl ⟨e, ofExcept_bind_of_error rfl⟩
  | ok i =>
  rw [ofExcept_bind_of_ok rfl]
  cases hd : o.relids.overlaps i.relids with
  | true => exact .inl ⟨.overlappingInputs o.relids i.relids, rfl⟩
  | false =>
  rw [if_neg Bool.false_ne_true]
  cases hr : p.joinRelation? (o.relids.union i.relids) with
  | some r =>
      obtain ⟨hmem, hkind, hrelids⟩ := joinRelation?_eq_some hr
      exact .inr ⟨o, i, rfl, rfl, hd, .inl ⟨r, hmem, hkind, hrelids, by simp only [hr]; rfl⟩⟩
  | none =>
      simp only [hr]
      cases hf : Selectivity.clauseList p ((Relation.restrictionsOfJoin
          (o.relids.union i.relids) o i).map (·.expr)) none .inner with
      | error e => exact .inl ⟨e, ofExcept_bind_of_error rfl⟩
      | ok fraction =>
          rw [ofExcept_bind_of_ok rfl]
          cases hw : o.pairWidth i with
          | error e => exact .inl ⟨e, ofExcept_bind_of_error rfl⟩
          | ok width =>
              exact .inr ⟨o, i, rfl, rfl, hd, .inr ⟨joinRelation?_eq_none_iff.mp hr, fraction, width,
                hw, ofExcept_bind_of_ok rfl⟩⟩

/-- Relations can be joined if the clauses at their join can be estimated and
their widths can be added. -/
theorem joinRelation_total {outer inner : Nat} {o i : Relation α} (ho : p.relation outer = .ok o)
    (hi : p.relation inner = .ok i) (hd : o.relids.overlaps i.relids = false)
    (h : ∃ f, Selectivity.clauseList p ((Relation.restrictionsOfJoin
      (o.relids.union i.relids) o i).map (·.expr)) none .inner = .ok f)
    (hw : ∃ width, o.pairWidth i = .ok width) :
    ∃ join q, joinRelation outer inner p = .ok join q := by
  obtain ⟨fraction, hf⟩ := h
  obtain ⟨width, hw⟩ := hw
  rw [joinRelation, get_bind, ofExcept_bind_of_ok ho, ofExcept_bind_of_ok hi, hd,
    if_neg Bool.false_ne_true]
  cases hr : p.joinRelation? (o.relids.union i.relids) with
  | some r => exact ⟨_, p, by simp only [hr]; rfl⟩
  | none =>
      simp only [hr]
      rw [ofExcept_bind_of_ok hf, ofExcept_bind_of_ok hw]
      exact ⟨_, _, rfl⟩

/-- The runs that estimate a size: the relation is none or cannot be estimated,
or it gets rows and the width of its columns. -/
theorem estimateSize_cases (relid : RtIndex) (p : Planner α) :
    (∃ e, estimateSize relid p = .error e p) ∨
    ∃ r rows width, p.baseRelation? relid = some r ∧ p.rowWidth r = .ok width ∧
      estimateSize relid p = .ok ()
        (modifyRelation r.id (.size rows width) p) := by
  rw [estimateSize, get_bind, Planner.baseRelation]
  cases hr : p.baseRelation? relid with
  | none => exact .inl ⟨_, ofExcept_bind_of_error rfl⟩
  | some r =>
  rw [ofExcept_bind_of_ok rfl]
  cases hf : Selectivity.clauseList p r.restrictionExprs (some relid) .inner with
  | error e => exact .inl ⟨e, ofExcept_bind_of_error rfl⟩
  | ok fraction =>
  rw [ofExcept_bind_of_ok rfl]
  cases hwidth : p.rowWidth r with
  | error e => exact .inl ⟨e, ofExcept_bind_of_error rfl⟩
  | ok width => exact .inr ⟨r, _, width, rfl, hwidth, ofExcept_bind_of_ok rfl⟩

/-- The runs that offer a base relation its scans. -/
theorem addScans_cases (id : Nat) (p : Planner α) :
    (∃ e, addScans id p = .error e p) ∨
    ∃ r paths, p.relation id = .ok r ∧ Path.scans p r = .ok paths ∧
      addScans id p = .ok () (modifyRelation id (.offer paths) p) := by
  rw [addScans, get_bind]
  cases hr : p.relation id with
  | error e => exact .inl ⟨e, ofExcept_bind_of_error rfl⟩
  | ok r =>
  rw [ofExcept_bind_of_ok rfl]
  cases hpaths : Path.scans p r with
  | error e => exact .inl ⟨e, ofExcept_bind_of_error rfl⟩
  | ok paths => exact .inr ⟨r, paths, rfl, hpaths, ofExcept_bind_of_ok rfl⟩

/-- The runs that offer a join its paths. -/
theorem addJoins_cases (join outer inner : Nat) (restrictions : List (Clause α)) (type : JoinType)
    (p : Planner α) :
    (∃ e, addJoins join outer inner restrictions type p = .error e p) ∨
    ∃ r o i paths, p.relation join = .ok r ∧ p.relation outer = .ok o ∧ p.relation inner = .ok i ∧
      Pairing.paths p ⟨r, o, i, type, restrictions⟩ = .ok paths ∧
      addJoins join outer inner restrictions type p =
        .ok () (modifyRelation join (.offer paths) p) := by
  rw [addJoins, get_bind]
  cases hr : p.relation join with
  | error e => exact .inl ⟨e, ofExcept_bind_of_error rfl⟩
  | ok r =>
  rw [ofExcept_bind_of_ok rfl]
  cases ho : p.relation outer with
  | error e => exact .inl ⟨e, ofExcept_bind_of_error rfl⟩
  | ok o =>
  rw [ofExcept_bind_of_ok rfl]
  cases hi : p.relation inner with
  | error e => exact .inl ⟨e, ofExcept_bind_of_error rfl⟩
  | ok i =>
  rw [ofExcept_bind_of_ok rfl]
  cases hpaths : Pairing.paths p ⟨r, o, i, type, restrictions⟩ with
  | error e => exact .inl ⟨e, ofExcept_bind_of_error rfl⟩
  | ok paths => exact .inr ⟨r, o, i, paths, rfl, rfl, rfl, hpaths, ofExcept_bind_of_ok rfl⟩

/-- A base relation is offered its scans if they can be costed. -/
theorem addScans_of_ok {paths : List (Path α)} (hr : p.relation id = .ok r)
    (hpaths : Path.scans p r = .ok paths) :
    addScans id p = .ok () (modifyRelation id (.offer paths) p) := by
  rw [addScans, get_bind, ofExcept_bind_of_ok hr, ofExcept_bind_of_ok hpaths]
  rfl

/-- A join is offered its paths if they can be costed. -/
theorem addJoins_of_ok {join outer inner : Nat} {restrictions : List (Clause α)} {type : JoinType}
    {o i : Relation α} {paths : List (Path α)} (hr : p.relation join = .ok r)
    (ho : p.relation outer = .ok o) (hi : p.relation inner = .ok i)
    (hpaths : Pairing.paths p ⟨r, o, i, type, restrictions⟩ = .ok paths) :
    addJoins join outer inner restrictions type p =
      .ok () (modifyRelation join (.offer paths) p) := by
  rw [addJoins, get_bind, ofExcept_bind_of_ok hr, ofExcept_bind_of_ok ho, ofExcept_bind_of_ok hi,
    ofExcept_bind_of_ok hpaths]
  rfl

theorem addJoins_total {join outer inner : Nat} {restrictions : List (Clause α)} {type : JoinType}
    {o i : Relation α} (hr : p.relation join = .ok r) (ho : p.relation outer = .ok o)
    (hi : p.relation inner = .ok i)
    (h : ∃ paths, Pairing.paths p ⟨r, o, i, type, restrictions⟩ = .ok paths) :
    ∃ q, addJoins join outer inner restrictions type p = .ok () q := by
  obtain ⟨paths, hpaths⟩ := h
  exact ⟨_, addJoins_of_ok hr ho hi hpaths⟩

/-! ## Builders and preorders -/

section Preorder

variable {R : Planner α → Planner α → Prop} [IsPreorder (Planner α) R]

/-- Asking for a base relation goes wherever a new one does. -/
theorem baseRelation_moves (h : ∀ p r, ¬ Built p.outlines relid →
      Relation.ofEntry p relid = .ok r → R p (p.addRelation r)) :
    (baseRelation relid : PlanM α Nat).Moves R := by
  intro p
  rcases baseRelation_cases relid p with ⟨id, _, _, _, hrun⟩ | ⟨hnew, ⟨e, _, hrun⟩ | ⟨r, hr, hrun⟩⟩
  · rw [final_of_ok hrun]
    exact refl_of R p
  · rw [final_of_error hrun]
    exact refl_of R p
  · rw [final_of_ok hrun]
    exact h p r hnew hr

/-- Asking for a join goes wherever a new one does. -/
theorem joinRelation_moves {outer inner : Nat} (h : ∀ p o i fraction width,
      p.relation outer = .ok o → p.relation inner = .ok i → o.relids.overlaps i.relids = false →
      (∀ o' ∈ p.outlines, o'.kind = .join → o'.relids ≠ o.relids.union i.relids) →
      o.pairWidth i = .ok width →
      R p (p.addRelation (Relation.ofJoin p.relations.length o i fraction width))) :
    (joinRelation outer inner : PlanM α (Nat × List (Clause α))).Moves R := by
  intro p
  rcases joinRelation_cases outer inner p with
    ⟨e, hrun⟩ | ⟨o, i, ho, hi, hd, ⟨r, _, _, _, hrun⟩ | ⟨hnew, fraction, width, hw, hrun⟩⟩
  · rw [final_of_error hrun]
    exact refl_of R p
  · rw [final_of_ok hrun]
    exact refl_of R p
  · rw [final_of_ok hrun]
    exact h p o i fraction width ho hi hd hnew hw

/-- Adding scans goes wherever an offer of paths does. -/
theorem addScans_moves (h : ∀ id paths p, R p (modifyRelation id (.offer paths) p))
    (id : Nat) : (addScans id : PlanM α Unit).Moves R :=
  .bind .get fun _ => .bind (.ofExcept _) fun _ => .bind (.ofExcept _) fun paths =>
    .modify (h id paths)

/-- Adding joins goes wherever an offer of paths does. -/
theorem addJoins_moves (h : ∀ id paths p, R p (modifyRelation id (.offer paths) p))
    (join outer inner : Nat) (restrictions : List (Clause α)) (type : JoinType) :
    (addJoins join outer inner restrictions type : PlanM α Unit).Moves R :=
  .bind .get fun _ => .bind (.ofExcept _) fun _ => .bind (.ofExcept _) fun _ =>
    .bind (.ofExcept _) fun _ => .bind (.ofExcept _) fun paths => .modify (h join paths)

/-- A distribution goes wherever its relations, its columns and the places where a
clause is filed do. -/
theorem distribute_moves (hidentity : ∀ p, R p { p with nextClause := p.nextClause + 1 })
    (hconstant : ∀ c p, R p { p with constantClauses := p.constantClauses ++ [c] })
    (hbase : ∀ relid, (baseRelation relid : PlanM α Nat).Moves R)
    (htarget : ∀ relid e, (addTarget relid e : PlanM α Unit).Moves R)
    (hrestriction : ∀ c id p, R p (modifyRelation id (.restriction c) p))
    (hfiling : ∀ c others id p, R p (modifyRelation id (.filing c others) p))
    (e : Expr α) : (distribute e : PlanM α (Clause α)).Moves R := by
  have hnew : (newClause e : PlanM α (Clause α)).Moves R := fun p => hidentity p
  refine hnew.bind fun c => ?_
  dsimp only
  split
  · exact .bind (.modify (hconstant c)) fun _ => .pure c
  · exact (hbase _).bind fun id => .bind (.modify (hrestriction c id)) fun _ => .pure c
  · have hawait (relid : RtIndex) : (awaitOthers c relid : PlanM α PUnit).Moves R :=
      (hbase relid).bind fun id => .modify (hfiling c _ id)
    exact .bind (.forM hawait _) fun _ =>
      .bind (.forM (fun v => htarget v.relation (.var v)) _) fun _ => .pure c

end Preorder

/-! ## What builders leave alone -/

theorem extends_ofEntry (hnew : ¬ Built p.outlines relid) (hr : Relation.ofEntry p relid = .ok r) :
    Extends p (p.addRelation r) :=
  extends_addRelation ((ofEntry_eq_ok hr).1 ▸ .base relid hnew)

theorem extends_ofJoin {outer inner : Nat} {o i : Relation α} {fraction : α} {width : Int32}
    (ho : p.relation outer = .ok o) (hi : p.relation inner = .ok i)
    (hd : o.relids.overlaps i.relids = false)
    (hnew : ∀ o' ∈ p.outlines, o'.kind = .join → o'.relids ≠ o.relids.union i.relids) :
    Extends p (p.addRelation (Relation.ofJoin p.relations.length o i fraction width)) := by
  refine extends_addRelation ?_
  rw [outline_ofJoin]
  exact .join o i (outline_mem ho) (outline_mem hi) hd hnew

theorem moves_baseRelation (relid : RtIndex) : (baseRelation relid : PlanM α Nat).Moves Extends :=
  baseRelation_moves fun _ _ => extends_ofEntry

/-- The number returned is that of the relation asked for. -/
theorem baseRelation_eq_ok (h : baseRelation relid p = .ok id q) :
    Extends p q ∧ ∃ o, q.outlines[id]? = some o ∧ o.relid? = some relid := by
  refine ⟨(moves_baseRelation relid).of_ok h, ?_⟩
  rcases baseRelation_cases relid p with
    ⟨_, r, hr, hrelid, hrun⟩ | ⟨_, ⟨e, _, hrun⟩ | ⟨r, hr, hrun⟩⟩
  · cases h.symm.trans hrun
    exact ⟨r.outline, outlines_getElem? hr, hrelid⟩
  · exact nomatch h.symm.trans hrun
  · cases h.symm.trans hrun
    have hr := (ofEntry_eq_ok hr).1
    have hid : r.id = p.outlines.length := congrArg Outline.id hr
    refine ⟨r.outline, ?_, hr ▸ relid?_ofBase _ relid⟩
    rw [outlines_addRelation, hid, List.getElem?_concat_length]

theorem moves_joinRelation (outer inner : Nat) :
    (joinRelation outer inner : PlanM α (Nat × List (Clause α))).Moves Extends :=
  joinRelation_moves fun _ _ _ _ _ ho hi hd hnew _ => extends_ofJoin ho hi hd hnew

/-- The number returned is that of a join of the inputs, the only relation
that can be new. -/
theorem joinRelation_eq_ok {outer inner : Nat} {restrictions : List (Clause α)}
    (hp : Consistent p.outlines) (h : joinRelation outer inner p = .ok (id, restrictions) q) :
    Extends p q ∧ ∃ o i j, p.relation outer = .ok o ∧ p.relation inner = .ok i ∧
      o.relids.overlaps i.relids = false ∧
      restrictions = Relation.restrictionsOfJoin (o.relids.union i.relids) o i ∧
      q.outlines[id]? = some j ∧ j.kind = .join ∧ j.relids = o.relids.union i.relids ∧
      (q.outlines = p.outlines ∨ q.outlines = p.outlines ++ [j]) := by
  refine ⟨(moves_joinRelation outer inner).of_ok h, ?_⟩
  rcases joinRelation_cases outer inner p with
    ⟨e, hrun⟩ | ⟨o, i, ho, hi, hd, ⟨r, hr, hkind, hrelids, hrun⟩ | ⟨_, fraction, width, _, hrun⟩⟩
  · exact nomatch h.symm.trans hrun
  · cases h.symm.trans hrun
    exact ⟨o, i, r.outline, ho, hi, hd, rfl, hp.getElem?_id hr, hkind, hrelids, .inl rfl⟩
  · cases h.symm.trans hrun
    have hnew := outlines_addRelation (Relation.ofJoin p.relations.length o i fraction width) p
    have hlength : p.outlines.length = p.relations.length := List.length_map ..
    rw [outline_ofJoin] at hnew
    refine ⟨o, i, _, ho, hi, hd, rfl, ?_, rfl, rfl, .inr hnew⟩
    rw [hnew, ← hlength, List.getElem?_concat_length]

theorem moves_addTarget (relid : RtIndex) (e : Expr α) :
    (addTarget relid e : PlanM α Unit).Moves Extends :=
  (moves_baseRelation relid).bind fun id =>
    .modify fun p => (sameOutlines_modifyRelation (fun _ => by rfl) id p).extends

theorem moves_estimateSize (relid : RtIndex) :
    (estimateSize relid : PlanM α Unit).Moves SameOutlines :=
  .bind .get fun p => .bind (.ofExcept _) fun r => .bind (.ofExcept _) fun _ =>
    .bind (.ofExcept _) fun _ => .modify fun p =>
      sameOutlines_modifyRelation (fun _ => by rfl) r.id p

theorem sameOutlines_offer (id : Nat) (paths : List (Path α)) (p : Planner α) :
    SameOutlines p (modifyRelation id (.offer paths) p) :=
  sameOutlines_modifyRelation (fun _ => by rfl) id p

theorem moves_addScans (id : Nat) : (addScans id : PlanM α Unit).Moves SameOutlines :=
  addScans_moves sameOutlines_offer id

theorem moves_addJoins (join outer inner : Nat) (restrictions : List (Clause α))
    (type : JoinType) :
    (addJoins join outer inner restrictions type : PlanM α Unit).Moves SameOutlines :=
  addJoins_moves sameOutlines_offer join outer inner restrictions type

end PlanM

end QueryPlanner
