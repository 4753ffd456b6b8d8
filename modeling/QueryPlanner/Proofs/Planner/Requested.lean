/-
  QueryPlanner.Proofs.Planner.Requested

  Which base relations a session builds.

  A base relation can be built if the range table has an entry for it and the
  catalog knows what is stored there; a session changes neither.  A request
  builds what it asks for in order, up to the first relation that cannot be
  built.  So the base relations of a session can be read off its requests.
-/

import Mathlib.Data.List.TakeWhile
import QueryPlanner.Proofs.Planner.Changes

namespace QueryPlanner

open Outline Planner PlanM

variable {α β γ : Type} [Number α] {p q : Planner α} {asked xs ys : List RtIndex}
  {relid x : RtIndex}

/-! ## Relations that can be built -/

namespace Planner

/-- The range table and the catalog have what a base relation is built of. -/
def canBuild (p : Planner α) (relid : RtIndex) : Bool := (Relation.ofEntry p relid).isOk

theorem canBuild_of_ofEntry {r : Relation α} (h : Relation.ofEntry p relid = .ok r) :
    p.canBuild relid = true := by
  rw [canBuild, h]
  rfl

theorem canBuild_of_error {e : PlanError α} (h : Relation.ofEntry p relid = .error e) :
    p.canBuild relid = false := by
  rw [canBuild, h]
  rfl

theorem canBuild_congr (htable : q.rangeTable = p.rangeTable) (hcatalog : q.catalog = p.catalog) :
    q.canBuild = p.canBuild := by
  funext relid
  have hentry : q.entry relid = p.entry relid := by rw [entry, entry, htable]
  rw [canBuild, canBuild, Relation.ofEntry, Relation.ofEntry, hentry, hcatalog]
  cases p.entry relid with
  | error e => rfl
  | ok entry =>
      cases entry with
      | subquery => rfl
      | stored relation =>
          dsimp only [bind, Except.bind]
          cases p.catalog.size relation with
          | error e => rfl
          | ok size =>
              dsimp only
              split
              · cases p.catalog.indexes relation <;> rfl
              · rfl

theorem Change.canBuild_eq (h : Change asked p q) : q.canBuild = p.canBuild := by
  cases h <;> exact canBuild_congr rfl rfl

/-- A change builds at most a relation that is asked for. -/
theorem Change.built (h : Change asked p q) (hp : Consistent p.outlines) (x : RtIndex) :
    (Built p.outlines x → Built q.outlines x) ∧
      (Built q.outlines x → Built p.outlines x ∨ x ∈ asked ∧ p.canBuild x = true) := by
  cases h with
  | base hasked hnew hr =>
      rename_i relid r
      have hrelid : r.outline.relid? = some relid :=
        (ofEntry_eq_ok hr).1 ▸ relid?_ofBase _ relid
      rw [outlines_addRelation]
      refine ⟨fun ⟨o, ho, hx⟩ => ⟨o, List.mem_append_left _ ho, hx⟩, fun ⟨o, ho, hx⟩ => ?_⟩
      rcases List.mem_append.mp ho with ho | ho
      · exact .inl ⟨o, ho, hx⟩
      · obtain rfl := List.mem_singleton.mp ho
        obtain rfl := Option.some.inj (hrelid.symm.trans hx)
        exact .inr ⟨hasked, canBuild_of_ofEntry hr⟩
  | join =>
      rw [outlines_addRelation]
      refine ⟨fun ⟨o, ho, hx⟩ => ⟨o, List.mem_append_left _ ho, hx⟩, fun ⟨o, ho, hx⟩ => ?_⟩
      rcases List.mem_append.mp ho with ho | ho
      · exact .inl ⟨o, ho, hx⟩
      · obtain rfl := List.mem_singleton.mp ho
        exact nomatch hx
  | @revise id f _ =>
      obtain ⟨g, houtline, hg⟩ := f.exists_outline
      have hrelid (o : Outline α) : (g o).relid? = o.relid? := by
        rw [Outline.relid?, Outline.relid?, (hg o).2.1, (hg o).2.2]
      rw [outlines_modifyRelation houtline]
      have hsame := hp.built_modify (r := x) hrelid id
      exact ⟨hsame.mpr, fun hx => .inl (hsame.mp hx)⟩
  | identity | constant | order => exact ⟨fun hx => hx, .inl⟩

/-! ## Sessions that build relations -/

/-- Consistent relations, none of which could not be built again. -/
structure Grounded (p : Planner α) : Prop where
  consistent : Consistent p.outlines
  canBuild : ∀ x, Built p.outlines x → p.canBuild x = true

/-- A session in which some more base relations are built. -/
structure Enlarged (p : Planner α) (xs : List RtIndex) (q : Planner α) : Prop where
  grounded : Grounded q
  canBuild_eq : q.canBuild = p.canBuild
  built_iff : ∀ x, Built q.outlines x ↔ Built p.outlines x ∨ x ∈ xs

namespace Enlarged

theorem refl (hp : Grounded p) (hxs : ∀ x ∈ xs, Built p.outlines x) : Enlarged p xs p where
  grounded := hp
  canBuild_eq := rfl
  built_iff x := (or_iff_left_of_imp (hxs x)).symm

theorem trans {q' : Planner α} (h : Enlarged p xs q) (h' : Enlarged q ys q') :
    Enlarged p (xs ++ ys) q' where
  grounded := h'.grounded
  canBuild_eq := h'.canBuild_eq.trans h.canBuild_eq
  built_iff x := by rw [h'.built_iff, h.built_iff, List.mem_append, or_assoc]

theorem congr (h : Enlarged p xs q) (hmem : ∀ x, x ∈ xs ↔ x ∈ ys) : Enlarged p ys q where
  grounded := h.grounded
  canBuild_eq := h.canBuild_eq
  built_iff x := by rw [h.built_iff, hmem]

end Enlarged

theorem Change.grounded (h : Change asked p q) (hp : Grounded p) : Grounded q where
  consistent := h.consistent hp.consistent
  canBuild x hx := by
    rw [h.canBuild_eq]
    exact ((h.built hp.consistent x).2 hx).elim (hp.canBuild x) And.right

/-- Changes that ask for no relation build none. -/
theorem Changes.enlarged (h : Changes [] p q) (hp : Grounded p) : Enlarged p [] q := by
  induction h with
  | refl => exact .refl hp nofun
  | @tail q q' _ hchange ih =>
      have hbuilt := hchange.built ih.grounded.consistent
      have hstep : Enlarged q [] q' := by
        refine ⟨hchange.grounded ih.grounded, hchange.canBuild_eq, fun x => ?_⟩
        constructor
        · exact fun hx => ((hbuilt x).2 hx).imp_right And.left
        · exact fun hx => (hbuilt x).1 (hx.resolve_right List.not_mem_nil)
      exact ih.trans hstep

end Planner

/-! ## Programs that build relations -/

/-- The program builds some base relations one by one, and fails at the first
that cannot be built, with those before it built. -/
def PlanM.Builds (m : PlanM α β) (xs : List RtIndex) : Prop :=
  ∀ p, Grounded p → m.Ends p
    (fun _ q => (∀ x ∈ xs, p.canBuild x = true) ∧ Enlarged p xs q)
    fun _ q => (∃ x ∈ xs, p.canBuild x = false) ∧ Enlarged p (xs.takeWhile p.canBuild) q

namespace PlanM.Builds

theorem takeWhile_append_of_false {f : RtIndex → Bool} (h : ∃ x ∈ xs, f x = false) :
    (xs ++ ys).takeWhile f = xs.takeWhile f := by
  rw [List.takeWhile_append, if_neg fun hlength => ?_]
  have hself := (List.takeWhile_prefix f).eq_of_length hlength
  obtain ⟨x, hx, hfalse⟩ := h
  have htrue := List.takeWhile_eq_self_iff.mp hself x hx
  exact Bool.false_ne_true (hfalse.symm.trans htrue)

/-- A program that succeeds without building anything. -/
theorem of_changes {m : PlanM α β} (hm : m.Moves (Changes []))
    (hok : ∀ p, m.succeeds p = true) : m.Builds [] := by
  intro p hp
  obtain ⟨b, q, h⟩ := exists_ok_of_succeeds (hok p)
  exact .of_ok h ⟨nofun, (hm.of_ok h).enlarged hp⟩

theorem bind {m : PlanM α β} {f : β → PlanM α γ} (hm : m.Builds xs)
    (hf : ∀ b p q, m p = .ok b q → (f b).Builds ys) : (m >>= f).Builds (xs ++ ys) := by
  intro p hp
  refine Ends.bind ((hm p hp).imp (fun _ _ h => h) fun e q h => ?_) fun b q hb h => ?_
  · -- The first part has failed, and what it has built is all.
    obtain ⟨⟨x, hx, hfalse⟩, hq⟩ := h
    refine ⟨⟨x, List.mem_append_left _ hx, hfalse⟩, ?_⟩
    rw [takeWhile_append_of_false ⟨x, hx, hfalse⟩]
    exact hq
  · obtain ⟨hxs, hq⟩ := h
    refine (hf b p q hb q hq.grounded).imp (fun _ q' h => ?_) fun _ q' h => ?_
    · obtain ⟨hys, hq'⟩ := h
      rw [hq.canBuild_eq] at hys
      exact ⟨List.forall_mem_append.mpr ⟨hxs, hys⟩, hq.trans hq'⟩
    · obtain ⟨⟨y, hy, hfalse⟩, hq'⟩ := h
      rw [hq.canBuild_eq] at hfalse hq'
      refine ⟨⟨y, List.mem_append_right _ hy, hfalse⟩, ?_⟩
      rw [List.takeWhile_append_of_pos hxs]
      exact hq.trans hq'

/-- What comes behind builds nothing more. -/
theorem bind_nil {m : PlanM α β} {f : β → PlanM α γ} (hm : m.Builds xs)
    (hf : ∀ b, (f b).Builds []) : (m >>= f).Builds xs := by
  have h := hm.bind fun b _ _ _ => hf b
  rwa [List.append_nil] at h

theorem forM {f : β → PlanM α PUnit} {k : β → RtIndex} (hf : ∀ b, (f b).Builds [k b])
    (l : List β) : (l.forM f).Builds (l.map k) := by
  induction l with
  | nil => exact of_changes (.pure _) fun _ => rfl
  | cons b rest ih => exact (hf b).bind fun _ _ _ _ => ih

/-- Relations that are built anyway need not be named. -/
theorem of_subset {m : PlanM α β} (h : m.Builds (xs ++ ys)) (hsub : ys ⊆ xs) : m.Builds xs := by
  intro p hp
  have hmem (x : RtIndex) : x ∈ xs ++ ys ↔ x ∈ xs := by
    rw [List.mem_append]
    exact or_iff_left_of_imp (@hsub x)
  refine (h p hp).imp (fun _ q h => ?_) fun _ q h => ?_
  · exact ⟨fun x hx => h.1 x ((hmem x).mpr hx), h.2.congr hmem⟩
  · obtain ⟨⟨x, hx, hfalse⟩, hq⟩ := h
    have hxs : ∃ x ∈ xs, p.canBuild x = false := ⟨x, (hmem x).mp hx, hfalse⟩
    rw [takeWhile_append_of_false hxs] at hq
    exact ⟨hxs, hq⟩

theorem enlarged {m : PlanM α β} (h : m.Builds xs) (hp : Grounded p) :
    Enlarged p (xs.takeWhile p.canBuild) (m.final p) := by
  refine Ends.final ((h p hp).imp (fun _ q h => ?_) fun _ q h => h.2)
  rw [List.takeWhile_eq_self_iff.mpr h.1]
  exact h.2

end PlanM.Builds

/-! ## Builders -/

namespace PlanM

theorem builds_baseRelation (relid : RtIndex) :
    (baseRelation relid : PlanM α Nat).Builds [relid] := by
  intro p hp
  rcases baseRelation_cases relid p with
    ⟨_, r, hr, hrelid, hrun⟩ | ⟨hnew, ⟨e, he, hrun⟩ | ⟨r, hr, hrun⟩⟩
  · have hbuilt : Built p.outlines relid := ⟨r.outline, outline_mem hr, hrelid⟩
    refine .of_ok hrun ⟨List.forall_mem_singleton.mpr (hp.canBuild relid hbuilt), ?_⟩
    exact .refl hp (List.forall_mem_singleton.mpr hbuilt)
  · have hfalse := canBuild_of_error he
    rw [Ends, hrun]
    refine ⟨⟨relid, List.mem_singleton_self relid, hfalse⟩, .refl hp fun x hx => ?_⟩
    rw [List.takeWhile_cons, hfalse] at hx
    exact absurd hx List.not_mem_nil
  · have hcan := canBuild_of_ofEntry hr
    have hchange : Change [relid] p (p.addRelation r) :=
      .base (List.mem_singleton_self relid) hnew hr
    have hbuilt := hchange.built hp.consistent
    have hrelid : Built (p.addRelation r).outlines relid := by
      rw [outlines_addRelation]
      exact ⟨r.outline, List.mem_append_right _ (List.mem_singleton_self _),
        (ofEntry_eq_ok hr).1 ▸ relid?_ofBase _ relid⟩
    refine .of_ok hrun ⟨List.forall_mem_singleton.mpr hcan, hchange.grounded hp,
      hchange.canBuild_eq, fun x => ?_⟩
    constructor
    · exact fun hx => ((hbuilt x).2 hx).imp_right And.left
    · rintro (hx | hx)
      · exact (hbuilt x).1 hx
      · exact List.mem_singleton.mp hx ▸ hrelid

theorem builds_addTarget (relid : RtIndex) (e : Expr α) :
    (addTarget relid e : PlanM α Unit).Builds [relid] :=
  (builds_baseRelation relid).bind_nil fun id =>
    .of_changes (.modify fun _ => changes_revise id (.target e) trivial) fun _ => rfl

theorem builds_awaitOthers (c : Clause α) (relid : RtIndex) :
    (awaitOthers c relid : PlanM α Unit).Builds [relid] :=
  (builds_baseRelation relid).bind_nil fun id =>
    .of_changes (.modify fun _ => changes_revise id (.filing c _) trivial) fun _ => rfl

/-- A distribution builds the relations that the clause reads. -/
theorem builds_distribute (e : Expr α) :
    (distribute e : PlanM α (Clause α)).Builds e.relations.members := by
  have hnew : (newClause e : PlanM α (Clause α)).Builds [] :=
    .of_changes (changes_newClause e) fun _ => rfl
  show Builds _ ([] ++ e.relations.members)
  refine hnew.bind fun c p q hc => ?_
  have hrequired : c.required = e.relations := by
    cases hc.symm.trans (newClause_eq e p)
    exact required_analyze ..
  have hmembers := RelSet.members_of_membership e.relations
  rw [hrequired]
  generalize hrelids : e.relations.members = relids at hmembers ⊢
  cases hm : e.relations.membership with
  | empty =>
      rw [hm] at hmembers
      subst hmembers
      exact .of_changes (.bind (.modify fun p => .single (.constant p c)) fun _ => .pure c)
        fun _ => rfl
  | single relid =>
      rw [hm] at hmembers
      subst hmembers
      exact (builds_baseRelation relid).bind_nil fun id =>
        .of_changes (.bind (.modify fun _ => changes_revise id (.restriction c) trivial)
          fun _ => .pure c) fun _ => rfl
  | multiple =>
      -- When the columns are added, the clause is filed at all its relations.
      have hcolumns : e.vars.map (·.relation) ⊆ relids := by
        intro r hr
        obtain ⟨v, hv, rfl⟩ := List.mem_map.mp hr
        exact hrelids ▸ RelSet.mem_toFinset.mp (Expr.mem_relations_iff.mpr ⟨v, hv, rfl⟩)
      have hfile := Builds.forM (k := fun r => r) (builds_awaitOthers c) relids
      have htargets := Builds.forM (f := fun v => addTarget v.relation (.var v : Expr α))
        (fun v => builds_addTarget v.relation (.var v)) e.vars
      rw [List.map_id'] at hfile
      refine Builds.of_subset (hfile.bind fun _ _ _ _ => ?_) hcolumns
      exact htargets.bind_nil fun _ => .of_changes (.pure c) fun _ => rfl

end PlanM

/-! ## Requests -/

theorem Request.enlarged_serve (r : Request α) (hp : Grounded p) :
    Enlarged p (r.asks.takeWhile p.canBuild) (r.serve p).2 := by
  rw [serve_snd]
  have hchanges : Changes r.asks p (r.run.final p) := r.changes_run p
  cases r with
  | baseRelation relid =>
      rw [run, final_bind_pure]
      exact (builds_baseRelation relid).enlarged hp
  | addTarget relid e =>
      rw [run, final_bind_pure]
      exact (builds_addTarget relid e).enlarged hp
  | distribute e =>
      rw [run, final_bind_pure]
      exact (builds_distribute e).enlarged hp
  | estimateSize | joinRelation | addScans | addJoins | offer | requestOrder | search =>
      exact Changes.enlarged hchanges hp

theorem Planner.grounded_start (settings : Settings α) (operators : OperatorCatalog α)
    (catalog : RelationSource α) (statistics : StatisticsProvider α)
    (rangeTable : List RangeTableEntry) :
    Grounded (.start settings operators catalog statistics rangeTable) where
  consistent := consistent_nil
  canBuild x hx := by
    obtain ⟨o, ho, -⟩ := hx
    exact absurd ho List.not_mem_nil

/-- A session builds the base relations that its requests ask for, each
request up to the first that cannot be built. -/
theorem enlarged_session (requests : List (Request α)) (hp : Grounded p) :
    Enlarged p (requests.flatMap fun r => r.asks.takeWhile p.canBuild)
      (session requests p).2 := by
  induction requests generalizing p with
  | nil => exact .refl hp nofun
  | cons r rest ih =>
      have hserve := r.enlarged_serve hp
      have hrest := ih hserve.grounded
      rw [hserve.canBuild_eq] at hrest
      exact hserve.trans hrest

end QueryPlanner
