/-
  QueryPlanner.Proofs.JoinGraph

  The graph of a query: relations linked where a clause reads both.

  The join search reads its links off the join info of base relations, from
  each relation only towards those built after it.  For a session that has its
  clauses in place these are the links of the clauses themselves.
-/

import Mathlib.Combinatorics.SimpleGraph.Acyclic
import QueryPlanner.JoinSearch
import QueryPlanner.Proofs.Planner.Distribution

namespace QueryPlanner

variable {α : Type} {G : SimpleGraph RtIndex} {s t : Finset RtIndex} {a b : RtIndex}

/-! ## Connected sets -/

/-- The members of a set are connected by links among themselves. -/
def ConnectedOn (G : SimpleGraph RtIndex) (s : Finset RtIndex) : Prop :=
  (G.induce (s : Set RtIndex)).Connected

namespace ConnectedOn

theorem singleton (G : SimpleGraph RtIndex) (a : RtIndex) : ConnectedOn G {a} := by
  have hsub : Subsingleton ↥((({a} : Finset RtIndex) : Set RtIndex)) := by
    rw [Finset.coe_singleton]
    infer_instance
  have hne : Nonempty ↥((({a} : Finset RtIndex) : Set RtIndex)) := ⟨⟨a, by simp⟩⟩
  exact .of_subsingleton

theorem nonempty (h : ConnectedOn G s) : s.Nonempty := by
  obtain ⟨a, ha⟩ := SimpleGraph.Connected.nonempty h
  exact ⟨a, ha⟩

/-- A set stays connected if a linked member joins it. -/
theorem insert (h : ConnectedOn G s) (hb : b ∈ s) (hab : G.Adj a b) :
    ConnectedOn G (insert a s) := by
  have ha := (singleton G a).preconnected
  have hunion := SimpleGraph.connected_induce_union ha h.preconnected
    (Finset.mem_coe.mpr (Finset.mem_singleton_self a)) (Finset.mem_coe.mpr hb) hab
  rw [ConnectedOn, Finset.insert_eq, Finset.coe_union]
  exact hunion

/-- Some member can be taken out of a connected set. -/
theorem exists_erase (h : ConnectedOn G s) (hs : 2 ≤ s.card) :
    ∃ a ∈ s, ConnectedOn G (s.erase a) := by
  have hnontrivial : Nontrivial ↥(s : Set RtIndex) := by
    rw [Set.nontrivial_coe_sort]
    exact Finset.one_lt_card_iff_nontrivial.mp hs
  obtain ⟨⟨a, ha⟩, hconn⟩ :=
    h.exists_connected_induce_compl_singleton_of_finite_nontrivial
  -- The graph without the vertex, with its vertices seen as members of the smaller set.
  let f : (G.induce (s : Set RtIndex)).induce {⟨a, ha⟩}ᶜ →g
      G.induce ((s.erase a : Finset RtIndex) : Set RtIndex) :=
    { toFun := fun x => ⟨x.1.1, Finset.mem_coe.mpr (Finset.mem_erase.mpr
        ⟨fun hx => x.2 (Subtype.ext hx), x.1.2⟩)⟩
      map_rel' := fun hadj => hadj }
  refine ⟨a, ha, hconn.map f fun x => ?_⟩
  obtain ⟨hxa, hxs⟩ := Finset.mem_erase.mp (Finset.mem_coe.mp x.2)
  exact ⟨⟨⟨x.1, hxs⟩, fun hx => hxa (congrArg Subtype.val hx)⟩, rfl⟩

/-- A proper part of a connected set has a link into the rest. -/
theorem exists_adj (h : ConnectedOn G s) (ht : t ⊆ s) (ha : a ∈ t) (hb : b ∈ s) (hbt : b ∉ t) :
    ∃ c ∈ t, ∃ d ∈ s, d ∉ t ∧ G.Adj c d := by
  obtain ⟨walk⟩ := h.preconnected ⟨a, ht ha⟩ ⟨b, hb⟩
  obtain ⟨d, _, hfst, hsnd⟩ := walk.exists_boundary_dart {x | x.1 ∈ t} ha hbt
  exact ⟨d.fst.1, hfst, d.snd.1, d.snd.2, hsnd, d.adj⟩

end ConnectedOn

/-! ## Links -/

/-- Relations are linked where some clause reads both. -/
def clauseGraph (all : List (Clause α)) : SimpleGraph RtIndex where
  Adj a b := a ≠ b ∧ ∃ c ∈ all, a ∈ c.required.toFinset ∧ b ∈ c.required.toFinset
  symm := ⟨fun _ _ ⟨hne, c, hc, ha, hb⟩ => ⟨hne.symm, c, hc, hb, ha⟩⟩
  loopless := ⟨fun _ h => h.1 rfl⟩

instance (all : List (Clause α)) : DecidableRel (clauseGraph all).Adj := fun a b =>
  inferInstanceAs (Decidable
    (a ≠ b ∧ ∃ c ∈ all, a ∈ c.required.toFinset ∧ b ∈ c.required.toFinset))

namespace JoinGraph

open Outline Planner

variable {all : List (Clause α)} {p : Planner α}

/-- A relation with exact join info misses the relations that it is linked to. -/
theorem mentions_iff {r : Relation α} (h : r.outline.Exact all)
    (hr : r.relids = .singleton a) : mentions r b = true ↔ (clauseGraph all).Adj a b := by
  have hset : r.outline.relids.toFinset = {a} := by
    show r.relids.toFinset = {a}
    rw [hr, RelSet.toFinset_singleton]
  rw [mentions, List.any_eq_true]
  constructor
  · rintro ⟨info, hi, hb⟩
    obtain ⟨c, hc⟩ := List.exists_mem_of_ne_nil _ (h.clauses_ne_nil info hi)
    obtain ⟨hall, hcross⟩ := (h.keeps_iff c).mp ⟨info, hi, hc⟩
    rw [h.unjoined_eq info hi c hc, RelSet.contains_iff, RelSet.toFinset_difference, hset,
      Finset.mem_sdiff, Finset.mem_singleton] at hb
    rw [hset] at hcross
    have ha : a ∈ c.required.toFinset := by
      have hmeet := hcross.1
      rwa [Finset.disjoint_singleton_right, not_not] at hmeet
    exact ⟨fun hab => hb.2 hab.symm, c, hall, ha, hb.1⟩
  · rintro ⟨hne, c, hall, ha, hb⟩
    have hcross : c.Crosses r.outline.relids.toFinset := by
      rw [hset]
      refine ⟨Finset.not_disjoint_iff.mpr ⟨a, ha, Finset.mem_singleton_self a⟩, fun hsub => ?_⟩
      exact hne (Finset.mem_singleton.mp (hsub hb)).symm
    obtain ⟨info, hi, hc⟩ := (h.keeps_iff c).mpr ⟨hall, hcross⟩
    refine ⟨info, hi, ?_⟩
    rw [h.unjoined_eq info hi c hc, RelSet.contains_iff, RelSet.toFinset_difference, hset,
      Finset.mem_sdiff, Finset.mem_singleton]
    exact ⟨hb, fun hba => hne hba.symm⟩

/-- Of two linked relations the earlier one has the link. -/
theorem mem_linksOf_iff {bases : List (Relation α × RtIndex)}
    (h : ∀ x ∈ bases, ∀ b, mentions x.1 b = true ↔ G.Adj x.2 b) :
    (a, b) ∈ linksOf bases ∨ (b, a) ∈ linksOf bases ↔
      a ∈ bases.map (·.2) ∧ b ∈ bases.map (·.2) ∧ G.Adj a b := by
  induction bases with
  | nil => simp [linksOf]
  | cons x rest ih =>
      obtain ⟨r, c⟩ := x
      obtain ⟨hx, hrest⟩ := List.forall_mem_cons.mp h
      have hfirst {a b : RtIndex} : (a, b) ∈ linksOf ((r, c) :: rest) ↔
          (a = c ∧ b ∈ rest.map (·.2) ∧ G.Adj c b) ∨ (a, b) ∈ linksOf rest := by
        rw [linksOf, List.mem_append, List.mem_map]
        simp only [List.mem_filter, hx, Prod.mk.injEq]
        constructor
        · rintro (⟨b', hb, rfl, rfl⟩ | h)
          · exact .inl ⟨rfl, hb⟩
          · exact .inr h
        · rintro (⟨rfl, hb⟩ | h)
          · exact .inl ⟨b, hb, rfl, rfl⟩
          · exact .inr h
      -- Each of the two is the first relation or one of the rest.
      rw [hfirst, hfirst, List.map_cons, List.mem_cons, List.mem_cons]
      constructor
      · rintro ((⟨rfl, hb, hadj⟩ | hab) | ⟨rfl, ha, hadj⟩ | hba)
        · exact ⟨.inl rfl, .inr hb, hadj⟩
        · obtain ⟨ha, hb, hadj⟩ := (ih hrest).mp (.inl hab)
          exact ⟨.inr ha, .inr hb, hadj⟩
        · exact ⟨.inr ha, .inl rfl, hadj.symm⟩
        · obtain ⟨ha, hb, hadj⟩ := (ih hrest).mp (.inr hba)
          exact ⟨.inr ha, .inr hb, hadj⟩
      · rintro ⟨rfl | ha, rfl | hb, hadj⟩
        · exact absurd rfl hadj.ne
        · exact .inl (.inl ⟨rfl, hb, hadj⟩)
        · exact .inr (.inl ⟨rfl, ha, hadj.symm⟩)
        · rcases (ih hrest).mpr ⟨ha, hb, hadj⟩ with hab | hba
          · exact .inl (.inr hab)
          · exact .inr (.inr hba)

/-- Clauses link relations that are built. -/
theorem built_of_adj {os : List (Outline α)} (h : Covers all os)
    (hadj : (clauseGraph all).Adj a b) : Built os a := by
  obtain ⟨hne, c, hc, ha, hb⟩ := hadj
  refine h.built c hc ?_ a ha
  rw [(h.ascending c hc).size_eq]
  exact Finset.one_lt_card.mpr ⟨a, ha, b, hb, hne⟩

/-- The base relations of a session with their positions. -/
theorem mem_bases_iff {x : Relation α × RtIndex} :
    x ∈ p.baseRelations.filterMap (fun r => r.relid?.map (r, ·)) ↔
      x.1 ∈ p.relations ∧ x.1.relid? = some x.2 := by
  rw [List.mem_filterMap]
  constructor
  · rintro ⟨r, hr, hx⟩
    obtain ⟨relid, hrelid, rfl⟩ := Option.map_eq_some_iff.mp hx
    exact ⟨(mem_baseRelations_iff.mp hr).1, hrelid⟩
  · rintro ⟨hr, hrelid⟩
    exact ⟨x.1, mem_baseRelations_iff.mpr ⟨hr, x.2, hrelid⟩, by rw [hrelid]; rfl⟩

section Sessions

variable [Number α]

theorem mem_nodes_iff : a ∈ (JoinSearch.graph p).nodes ↔ Built p.outlines a := by
  show a ∈ (p.baseRelations.filterMap fun r => r.relid?.map (r, ·)).map (·.2) ↔ _
  rw [List.mem_map, Built, outlines]
  simp only [mem_bases_iff, List.mem_map, exists_exists_and_eq_and, Relation.relid?_outline]
  constructor
  · rintro ⟨x, ⟨hx, hrelid⟩, rfl⟩
    exact ⟨x.1, hx, hrelid⟩
  · rintro ⟨r, hr, hrelid⟩
    exact ⟨(r, a), ⟨hr, hrelid⟩, rfl⟩

/-- The links of a session are those of its clauses. -/
theorem adjacent_iff (h : HasClauses all p) :
    (JoinSearch.graph p).adjacent a b = true ↔ (clauseGraph all).Adj a b := by
  have hmentions : ∀ x ∈ p.baseRelations.filterMap (fun r => r.relid?.map (r, ·)), ∀ b,
      mentions x.1 b = true ↔ (clauseGraph all).Adj x.2 b := by
    intro x hx b
    obtain ⟨hr, hrelid⟩ := mem_bases_iff.mp hx
    have ho : x.1.outline ∈ p.outlines := List.mem_map_of_mem hr
    obtain ⟨hk, hrelids⟩ := (h.consistent.relid?_eq_some_iff ho).mp hrelid
    exact mentions_iff (h.exact_base _ ho hk) hrelids
  have hnodes (hadj : (clauseGraph all).Adj a b) : a ∈ (JoinSearch.graph p).nodes :=
    mem_nodes_iff.mpr (built_of_adj h.covers hadj)
  have hnodes' (hadj : (clauseGraph all).Adj a b) : b ∈ (JoinSearch.graph p).nodes :=
    mem_nodes_iff.mpr (built_of_adj h.covers hadj.symm)
  rw [adjacent, Bool.or_eq_true, List.contains_iff_mem, List.contains_iff_mem]
  -- A clause links built relations only, and they all are nodes.
  refine (mem_linksOf_iff hmentions).trans ?_
  exact ⟨fun h => h.2.2, fun hadj => ⟨hnodes hadj, hnodes' hadj, hadj⟩⟩

theorem linked_iff (h : HasClauses all p) {s t : RelSet} :
    (JoinSearch.graph p).linked s t = true ↔
      ∃ a ∈ s.toFinset, ∃ b ∈ t.toFinset, (clauseGraph all).Adj a b := by
  rw [linked, List.any_eq_true]
  simp only [List.any_eq_true, adjacent_iff h, RelSet.mem_toFinset]

theorem hasOutsideLinks_iff (h : HasClauses all p) {s : RelSet} :
    (JoinSearch.graph p).hasOutsideLinks s = true ↔
      ∃ a ∈ s.toFinset, ∃ b, b ∉ s.toFinset ∧ (clauseGraph all).Adj a b := by
  rw [hasOutsideLinks, List.any_eq_true]
  simp only [List.any_eq_true, Bool.and_eq_true, Bool.not_eq_true', adjacent_iff h,
    ← Bool.not_eq_true, RelSet.contains_iff]
  constructor
  · rintro ⟨a, ha, b, -, hadj, hb⟩
    exact ⟨a, RelSet.mem_toFinset.mpr ha, b, hb, hadj⟩
  · rintro ⟨a, ha, b, hb, hadj⟩
    exact ⟨a, RelSet.mem_toFinset.mp ha, b,
      mem_nodes_iff.mpr (built_of_adj h.covers hadj.symm), hadj, hb⟩

end Sessions

end JoinGraph

end QueryPlanner
