/-
  QueryPlanner.Proofs.Planner.Keeps

  What a session keeps true of its relations and their paths.

  A relation is sound if it shows nothing but what its members have, and its
  paths produce it, in orders of what its members have and by joins that fit
  their inputs.  `Keeps` says how little a path depends on of the relations
  that it is made of, so that a change of one relation spoils no path of
  another: what builders do to a sound session has to be looked at only where
  they do it.
-/

import QueryPlanner.Proofs.Path.Fit
import QueryPlanner.Proofs.Path.Frontier
import QueryPlanner.Proofs.Planner.Build

namespace QueryPlanner

open Outline

variable {α : Type} {p q : Planner α} {r s : Relation α} {id outer inner : Nat}
  {restrictions : List (Clause α)}

/-! ## What paths depend on -/

/-- The same members, and nothing less shown. -/
structure Relation.Refines (r s : Relation α) : Prop where
  relids_eq : s.relids = r.relids
  shows : r.target.exprs ⊆ s.target.exprs

theorem Relation.Refines.refl (r : Relation α) : r.Refines r := ⟨rfl, List.Subset.refl _⟩

theorem Relation.Refines.trans {t : Relation α} (h : r.Refines s) (h' : s.Refines t) :
    r.Refines t where
  relids_eq := h'.relids_eq.trans h.relids_eq
  shows := List.Subset.trans h.shows h'.shows

namespace Planner

/-- Every relation is there with its number, with the same members and showing
no less. -/
def Keeps (p q : Planner α) : Prop :=
  ∀ id r, p.relation id = .ok r → ∃ s, q.relation id = .ok s ∧ r.Refines s

theorem Keeps.refl (p : Planner α) : Keeps p p := fun _ r hr => ⟨r, hr, .refl r⟩

theorem Keeps.trans {q' : Planner α} (h : Keeps p q) (h' : Keeps q q') : Keeps p q' := by
  intro id r hr
  obtain ⟨s, hs, hrs⟩ := h id r hr
  obtain ⟨t, ht, hst⟩ := h' id s hs
  exact ⟨t, ht, hrs.trans hst⟩

theorem mem_of_relation (h : p.relation id = .ok r) : r ∈ p.relations :=
  List.mem_of_getElem? (relation_eq_ok_iff.mp h)

/-- Consistent relations have the numbers that they are found by. -/
theorem id_of_relation (hp : Consistent p.outlines) (hr : p.relation id = .ok r) : r.id = id :=
  hp.id_eq id r.outline (outlines_getElem? hr)

theorem relation_id (hp : Consistent p.outlines) (hr : r ∈ p.relations) :
    p.relation r.id = .ok r := by
  obtain ⟨id, hid⟩ := List.mem_iff_getElem?.mp hr
  rw [← relation_eq_ok_iff] at hid
  rwa [id_of_relation hp hid]

/-- There is one base relation for a position. -/
theorem eq_of_relid? {relid : RtIndex} (hp : Consistent p.outlines) (hr : r ∈ p.relations)
    (hs : s ∈ p.relations) (hrelid : r.relid? = some relid) (hrelid' : s.relid? = some relid) :
    r = s := by
  have hro : r.outline ∈ p.outlines := List.mem_map_of_mem hr
  have hso : s.outline ∈ p.outlines := List.mem_map_of_mem hs
  obtain ⟨hk, hrelids⟩ := (hp.relid?_eq_some_iff hro).mp hrelid
  obtain ⟨hk', hrelids'⟩ := (hp.relid?_eq_some_iff hso).mp hrelid'
  have heq := hp.eq_of_relids hro hso (hk.trans hk'.symm) (hrelids.trans hrelids'.symm)
  have hid : r.id = s.id := congrArg Outline.id heq
  exact Except.ok.inj ((relation_id hp hr).symm.trans (hid ▸ relation_id hp hs))

theorem relation_addRelation (h : p.relation id = .ok r) :
    (p.addRelation s).relation id = .ok r := by
  rw [relation_eq_ok_iff] at h ⊢
  obtain ⟨hlt, -⟩ := List.getElem?_eq_some_iff.mp h
  exact (List.getElem?_append_left hlt).trans h

theorem keeps_addRelation (s : Relation α) : Keeps p (p.addRelation s) :=
  fun _ r hr => ⟨r, relation_addRelation hr, .refl r⟩

theorem relation_modifyRelation [Number α] {f : Relation.Edit α} {k : Nat}
    (h : p.relation id = .ok r) :
    (modifyRelation k f p).relation id = .ok (if k = id then f r else r) := by
  rw [relation_eq_ok_iff] at h ⊢
  rw [modifyRelation, List.getElem?_modify, h]
  rfl

theorem keeps_modifyRelation [Number α] {f : Relation.Edit α}
    (hf : ∀ r : Relation α, r.Refines (f r)) (k : Nat) : Keeps p (modifyRelation k f p) := by
  intro id r hr
  refine ⟨_, relation_modifyRelation hr, ?_⟩
  split
  · exact hf r
  · exact .refl r

/-- A relation behind a change of one of them is as before, or is the one
changed. -/
theorem mem_modifyRelation [Number α] {f : Relation.Edit α}
    (h : s ∈ (modifyRelation id f p).relations) :
    s ∈ p.relations ∨ ∃ r, p.relation id = .ok r ∧ s = f r := by
  obtain ⟨k, hk⟩ := List.mem_iff_getElem?.mp h
  rw [modifyRelation, List.getElem?_modify] at hk
  obtain ⟨r, hr, hs⟩ := Option.map_eq_some_iff.mp hk
  by_cases hid : id = k
  · rw [if_pos hid] at hs
    exact .inr ⟨r, relation_eq_ok_iff.mpr (hid ▸ hr), hs.symm⟩
  · rw [if_neg hid] at hs
    exact .inl (hs ▸ List.mem_of_getElem? hr)

/-- Every relation shows only what its members have. -/
def TargetsOver (p : Planner α) : Prop := ∀ r ∈ p.relations, r.target.Over r.relids

/-- Two relations to be joined, and the clauses to apply at their join. -/
structure Joinable (p : Planner α) (outer inner : Nat) (restrictions : List (Clause α)) : Prop where
  inputs : ∃ o i, p.relation outer = .ok o ∧ p.relation inner = .ok i ∧
    Disjoint o.relids.toFinset i.relids.toFinset
  ids_nodup : (restrictions.map (·.id)).Nodup
  analyzed : ∀ c ∈ restrictions, c.Analyzed

theorem Joinable.keeps (h : Joinable p outer inner restrictions) (hk : Keeps p q) :
    Joinable q outer inner restrictions where
  inputs := by
    obtain ⟨o, i, ho, hi, hd⟩ := h.inputs
    obtain ⟨o', ho', hoo⟩ := hk _ _ ho
    obtain ⟨i', hi', hii⟩ := hk _ _ hi
    refine ⟨o', i', ho', hi', ?_⟩
    rw [hoo.relids_eq, hii.relids_eq]
    exact hd
  ids_nodup := h.ids_nodup
  analyzed := h.analyzed

theorem Joinable.symm (h : Joinable p outer inner restrictions) :
    Joinable p inner outer restrictions where
  inputs := by
    obtain ⟨o, i, ho, hi, hd⟩ := h.inputs
    exact ⟨i, o, hi, ho, hd.symm⟩
  ids_nodup := h.ids_nodup
  analyzed := h.analyzed

end Planner

open Planner

variable [Number α]

/-- A join fits its inputs as long as they are kept. -/
theorem PathOperator.Fits.keeps {operator : PathOperator α} (h : operator.Fits p) (hk : Keeps p q)
    (hp : p.TargetsOver) (hq : q.TargetsOver) : operator.Fits q := by
  have hinputs {join : Join α} {o i : Relation α} (h : join.Inputs p o i) :
      ∃ o' i', join.Inputs q o' i' ∧ o.Refines o' ∧ i.Refines i' := by
    obtain ⟨o', ho', hoo⟩ := hk _ _ h.outer
    obtain ⟨i', hi', hii⟩ := hk _ _ h.inner
    refine ⟨o', i', ⟨ho', hi', ?_⟩, hoo, hii⟩
    rw [hoo.relids_eq, hii.relids_eq]
    exact h.disjoint
  cases operator with
  | seqScan | indexScan => trivial
  | nestLoop join =>
      obtain ⟨o, i, h⟩ := h
      obtain ⟨o', i', h', -, -⟩ := hinputs h
      exact ⟨o', i', h'⟩
  | mergeJoin join clauses outerSort innerSort =>
      obtain ⟨o, i, h, hfits⟩ := h
      obtain ⟨o', i', h', hoo, hii⟩ := hinputs h
      have hot := hp o (mem_of_relation h.outer)
      have hit := hp i (mem_of_relation h.inner)
      have hot' := hoo.relids_eq ▸ hq o' (mem_of_relation h'.outer)
      have hit' := hii.relids_eq ▸ hq i' (mem_of_relation h'.inner)
      exact ⟨o', i', h', hfits.mono hoo.relids_eq hii.relids_eq h.disjoint hot hot' hit hit'
        hoo.shows hii.shows⟩
  | hashJoin join clauses =>
      obtain ⟨o, i, h, hfits⟩ := h
      obtain ⟨o', i', h', hoo, hii⟩ := hinputs h
      exact ⟨o', i', h', hfits.mono hoo.relids_eq hii.relids_eq⟩

/-! ## Sound sessions -/

/-- A relation with what its members have, and with paths that produce it. -/
structure Relation.Sound (p : Planner α) (r : Relation α) : Prop where
  target : r.target.Over r.relids
  analyzed : ∀ c, JoinInfo.Keeps r.joinInfo c → c.Analyzed
  parent : ∀ path ∈ r.paths, path.parent = r.id
  order : ∀ path ∈ r.paths, path.pathkeys.Over r.relids
  fits : ∀ path ∈ r.paths, path.operator.Fits p

namespace Relation.Sound

/-- A relation that has no path yet. -/
theorem of_no_paths (htarget : r.target.Over r.relids)
    (hanalyzed : ∀ c, JoinInfo.Keeps r.joinInfo c → c.Analyzed) (hpaths : r.paths = []) :
    r.Sound p where
  target := htarget
  analyzed := hanalyzed
  parent := by
    rw [hpaths]
    exact nofun
  order := by
    rw [hpaths]
    exact nofun
  fits := by
    rw [hpaths]
    exact nofun

theorem mem_offer {paths : List (Path α)} {path : Path α} (h : path ∈ (r.offer paths).paths) :
    path ∈ r.paths ∨ path ∈ paths := by
  refine List.foldlRecOn (motive := fun kept => path ∈ kept → path ∈ r.paths ∨ path ∈ paths)
    paths _ .inl (fun kept ih new hnew hpath => ?_) h
  rcases Path.mem_add hpath with rfl | hpath
  · exact .inr hnew
  · exact ih hpath

/-- Paths that produce the relation as well are offered to it. -/
theorem offer {paths : List (Path α)} (h : r.Sound p)
    (hpaths : ∀ path ∈ paths,
      path.parent = r.id ∧ path.pathkeys.Over r.relids ∧ path.operator.Fits p) :
    (r.offer paths).Sound p where
  target := h.target
  analyzed := h.analyzed
  parent path hpath := (mem_offer hpath).elim (h.parent path) fun hpath => (hpaths path hpath).1
  order path hpath := (mem_offer hpath).elim (h.order path) fun hpath => (hpaths path hpath).2.1
  fits path hpath := (mem_offer hpath).elim (h.fits path) fun hpath => (hpaths path hpath).2.2

end Relation.Sound

namespace Planner

/-- Consistent relations, each of them sound. -/
structure Sound (p : Planner α) : Prop where
  consistent : Consistent p.outlines
  relations : ∀ r ∈ p.relations, r.Sound p

namespace Sound

theorem targetsOver (h : p.Sound) : p.TargetsOver := fun r hr => (h.relations r hr).target

theorem relation (h : p.Sound) (hr : p.relation id = .ok r) : r.Sound p :=
  h.relations r (mem_of_relation hr)

theorem id_eq (h : p.Sound) (hr : p.relation id = .ok r) : r.id = id :=
  id_of_relation h.consistent hr

/-- The paths of a relation produce it. -/
theorem relation_parent (h : p.Sound) (hr : p.relation id = .ok r) {path : Path α}
    (hpath : path ∈ r.paths) : p.relation path.parent = .ok r := by
  rw [(h.relation hr).parent path hpath, h.id_eq hr]
  exact hr

/-- Relations that are sound by what was there before are sound by what is
there now. -/
theorem of_keeps (hp : p.Sound) (hk : Keeps p q) (hq : Consistent q.outlines)
    (h : ∀ s ∈ q.relations, s.Sound p) : q.Sound where
  consistent := hq
  relations s hs := by
    have hs' := h s hs
    exact {
      target := hs'.target
      analyzed := hs'.analyzed
      parent := hs'.parent
      order := hs'.order
      fits := fun path hpath =>
        (hs'.fits path hpath).keeps hk hp.targetsOver fun s hs => (h s hs).target }

end Sound

/-! ## Steps between sound sessions -/

/-- From a sound session to a sound one that keeps its relations. -/
def Steps (p q : Planner α) : Prop := p.Sound → Keeps p q ∧ q.Sound

instance : IsPreorder (Planner α) Steps where
  refl p hp := ⟨.refl p, hp⟩
  trans p q q' h h' hp := by
    obtain ⟨hk, hq⟩ := h hp
    obtain ⟨hk', hq'⟩ := h' hq
    exact ⟨hk.trans hk', hq'⟩

theorem steps_of_relations_eq (h : q.relations = p.relations) : Steps p q := by
  intro hp
  have hk : Keeps p q := by
    intro id r hr
    rw [relation_eq_ok_iff, ← h] at hr
    exact ⟨r, relation_eq_ok_iff.mpr hr, .refl r⟩
  have hq : Consistent q.outlines := by
    rw [outlines, h]
    exact hp.consistent
  exact ⟨hk, hp.of_keeps hk hq (h ▸ hp.relations)⟩

theorem steps_addRelation (hq : Extends p (p.addRelation r)) (hr : p.Sound → r.Sound p) :
    Steps p (p.addRelation r) := by
  intro hp
  have hk : Keeps p (p.addRelation r) := keeps_addRelation r
  refine ⟨hk, hp.of_keeps hk (hp.consistent.grows hq.1) ?_⟩
  exact List.forall_mem_append.mpr ⟨hp.relations, List.forall_mem_singleton.mpr (hr hp)⟩

theorem steps_modifyRelation {f : Relation.Edit α} (hf : ∀ r : Relation α, r.Refines (f r))
    (hq : p.Sound → Consistent (modifyRelation id f p).outlines)
    (hr : ∀ r, p.Sound → p.relation id = .ok r → (f r).Sound p) :
    Steps p (modifyRelation id f p) := by
  intro hp
  have hk : Keeps p (modifyRelation id f p) := keeps_modifyRelation hf id
  refine ⟨hk, hp.of_keeps hk (hq hp) fun s hs => ?_⟩
  rcases mem_modifyRelation hs with hs | ⟨r, hr', rfl⟩
  · exact hp.relations s hs
  · exact hr r hp hr'

/-- A change that the outline does not show. -/
theorem steps_modifyRelation_of_outline {f : Relation.Edit α}
    (hf : ∀ r, (f r).outline = r.outline) (hshows : ∀ r, r.target.exprs ⊆ (f r).target.exprs)
    (hr : ∀ r, p.Sound → p.relation id = .ok r → (f r).Sound p) :
    Steps p (modifyRelation id f p) := by
  refine steps_modifyRelation (fun r => ⟨congrArg Outline.relids (hf r), hshows r⟩)
    (fun hp => ?_) hr
  rw [outlines_modifyRelation_of_eq hf]
  exact hp.consistent

end Planner

end QueryPlanner
