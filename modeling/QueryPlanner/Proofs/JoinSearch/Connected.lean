/-
  QueryPlanner.Proofs.JoinSearch.Connected

  The join search over a connected query.

  If clauses connect all base relations, the search builds the joins of
  exactly the connected sets of them.  Level by level: a connected set has a
  member without which it is still connected, so its join is tried when the
  level below is extended by that member; and as long as relations are left
  over there are links to them, so no pair is tried without a link.
-/

import QueryPlanner.Proofs.JoinGraph
import QueryPlanner.Proofs.Planner.Session

namespace QueryPlanner.JoinSearch

open Planner PlanM

variable {α : Type} {G : SimpleGraph RtIndex} {bases s t : Finset RtIndex} {size : Nat}

/-! ## Connected sets by size -/

/-- A connected set of some base relations. -/
structure IsPart (G : SimpleGraph RtIndex) (bases : Finset RtIndex) (size : Nat)
    (s : Finset RtIndex) : Prop where
  subset : s ⊆ bases
  connected : ConnectedOn G s
  card_eq : s.card = size

namespace IsPart

theorem singleton {a : RtIndex} (ha : a ∈ bases) : IsPart G bases 1 {a} :=
  ⟨Finset.singleton_subset_iff.mpr ha, .singleton G a, Finset.card_singleton a⟩

theorem eq_singleton (h : IsPart G bases 1 s) : ∃ a ∈ bases, s = {a} := by
  obtain ⟨a, rfl⟩ := Finset.card_eq_one.mp h.card_eq
  exact ⟨a, Finset.singleton_subset_iff.mp h.subset, rfl⟩

/-- One relation more, with a link to it. -/
theorem union {a b : RtIndex} (hs : IsPart G bases size s) (ht : IsPart G bases 1 t)
    (hd : Disjoint s t) (ha : a ∈ s) (hb : b ∈ t) (hadj : G.Adj a b) :
    IsPart G bases (size + 1) (s ∪ t) := by
  refine ⟨Finset.union_subset hs.subset ht.subset, ?_, ?_⟩
  · obtain ⟨c, -, rfl⟩ := ht.eq_singleton
    rw [Finset.mem_singleton] at hb
    rw [Finset.union_comm, ← Finset.insert_eq]
    exact hs.connected.insert ha (hb ▸ hadj.symm)
  · rw [Finset.card_union_of_disjoint hd, hs.card_eq, ht.card_eq]

/-- A larger connected set is made of a smaller one and a linked relation. -/
theorem exists_union (hs : IsPart G bases (size + 1) s) (hsize : 1 ≤ size) :
    ∃ t u, IsPart G bases size t ∧ IsPart G bases 1 u ∧ Disjoint t u ∧ t ∪ u = s ∧
      ∃ a ∈ t, ∃ b ∈ u, G.Adj a b := by
  have hcard := hs.card_eq
  obtain ⟨b, hb, hconn⟩ := hs.connected.exists_erase (by omega)
  have hsub : s.erase b ⊆ s := Finset.erase_subset b s
  obtain ⟨a, ha⟩ := hconn.nonempty
  obtain ⟨c, hc, d, hd, hdt, hadj⟩ := hs.connected.exists_adj hsub ha hb (Finset.notMem_erase b s)
  -- Only the member taken out is outside the rest.
  have hdb : d = b := by
    by_contra hne
    exact hdt (Finset.mem_erase.mpr ⟨hne, hd⟩)
  refine ⟨s.erase b, {b}, ⟨hsub.trans hs.subset, hconn, ?_⟩, singleton (hs.subset hb), ?_, ?_,
    c, hc, b, Finset.mem_singleton_self b, hdb ▸ hadj⟩
  · rw [Finset.card_erase_of_mem hb]
    omega
  · exact Finset.disjoint_singleton_right.mpr (Finset.notMem_erase b s)
  · rw [Finset.union_comm, ← Finset.insert_eq, Finset.insert_erase hb]

/-- Of connected relations none is left over without a link. -/
theorem exists_adj {b : RtIndex} (hs : IsPart G bases size s) (hbases : ConnectedOn G bases)
    (hb : b ∈ bases) (hbs : b ∉ s) : ∃ c ∈ s, ∃ d ∈ bases, d ∉ s ∧ G.Adj c d := by
  obtain ⟨a, ha⟩ := hs.connected.nonempty
  exact hbases.exists_adj hs.subset ha hb hbs

theorem exists_succ (hs : IsPart G bases size s) (hbases : ConnectedOn G bases)
    (hsize : size < bases.card) : ∃ t, IsPart G bases (size + 1) t := by
  obtain ⟨b, hb, hbs⟩ := Finset.exists_mem_notMem_of_card_lt_card (hs.card_eq ▸ hsize)
  obtain ⟨c, hc, d, hd, hds, hadj⟩ := hs.exists_adj hbases hb hbs
  exact ⟨s ∪ {d}, hs.union (singleton hd) (Finset.disjoint_singleton_right.mpr hds) hc
    (Finset.mem_singleton_self d) hadj⟩

end IsPart

/-! ## Levels -/

/-- A level has a relation with these members. -/
def Lists (os : List (Outline α)) (level : List Nat) (s : Finset RtIndex) : Prop :=
  ∃ id ∈ level, ∃ o, os[id]? = some o ∧ o.relids.toFinset = s

theorem Lists.grows {os os' : List (Outline α)} {level level' : List Nat} (h : Lists os level s)
    (hg : Outline.Grows os os') (hsub : ∀ id ∈ level, id ∈ level') : Lists os' level' s := by
  obtain ⟨id, hid, o, ho, hs⟩ := h
  exact ⟨id, hsub id hid, o, hg.getElem? ho, hs⟩

/-- Joins are of connected sets, up to a size; a level has those of the size
only. -/
structure Sound (G : SimpleGraph RtIndex) (bases : Finset RtIndex) (size : Nat)
    (level : List Nat) (os : List (Outline α)) : Prop where
  consistent : Outline.Consistent os
  joins : ∀ o ∈ os, o.kind = .join → ∃ n, 2 ≤ n ∧ n ≤ size ∧ IsPart G bases n o.relids.toFinset
  parts : ∀ id ∈ level, ∃ o, os[id]? = some o ∧ IsPart G bases size o.relids.toFinset

/-- A level behind which all connected sets up to its size are joined. -/
structure Reached (G : SimpleGraph RtIndex) (bases : Finset RtIndex) (size : Nat)
    (level : List Nat) (os : List (Outline α)) : Prop extends Sound G bases size level os where
  complete : ∀ n s, 2 ≤ n → n ≤ size → IsPart G bases n s →
    ∃ o ∈ os, o.kind = .join ∧ o.relids.toFinset = s
  lists : ∀ s, IsPart G bases size s → Lists os level s
  nonempty : level ≠ []

/-- The next level before any pair has been tried. -/
theorem Reached.sound_succ {os : List (Outline α)} {level : List Nat}
    (h : Reached G bases size level os) : Sound G bases (size + 1) [] os where
  consistent := h.consistent
  joins o ho hk := by
    obtain ⟨n, htwo, hn, hpart⟩ := h.joins o ho hk
    exact ⟨n, htwo, by omega, hpart⟩
  parts := nofun

section Runs

variable [Number α] {p q : Planner α} {level level' previous ids : List Nat}
  {wanted : RelSet → RelSet → Bool}

/-- A pair that is tried in a level. -/
def tryPair (wanted : RelSet → RelSet → Bool) (outer : Nat) (level : List Nat) (inner : Nat) :
    PlanM α (List Nat) := do
  let o ← relids outer
  let i ← relids inner
  if o.overlaps i || !wanted o i then return level else joinPair outer inner level

theorem joinAll_eq_foldlM (wanted : RelSet → RelSet → Bool) (previous bases level : List Nat) :
    (joinAll wanted previous bases level : PlanM α (List Nat)) =
      previous.foldlM (fun level outer => bases.foldlM (tryPair wanted outer) level) level :=
  rfl

/-- What every pair keeps holds behind all of them. -/
theorem joinAll_keeps {I : List Nat → Planner α → Prop}
    (hpair : ∀ a ∈ previous, ∀ b ∈ ids, ∀ level r, I level r → ∀ level' r',
      tryPair wanted a level b r = .ok level' r' → I level' r')
    (hI : I level p) (hrun : joinAll wanted previous ids level p = .ok level' q) : I level' q := by
  rw [joinAll_eq_foldlM] at hrun
  refine foldlM_keeps (fun l r hl a ha l' r' hrow => ?_) hI hrun
  exact foldlM_keeps (fun l r hl b hb l' r' h => hpair a ha b hb l r hl l' r' h) hl hrow

/-- What one pair brings about, and the others keep, holds behind all of
them. -/
theorem joinAll_reaches {I Q : List Nat → Planner α → Prop} {a b : Nat}
    (hpair : ∀ a ∈ previous, ∀ b ∈ ids, ∀ level r, I level r → ∀ level' r',
      tryPair wanted a level b r = .ok level' r' → I level' r' ∧ (Q level r → Q level' r'))
    (ha : a ∈ previous) (hb : b ∈ ids)
    (hreach : ∀ level r, I level r → ∀ level' r', tryPair wanted a level b r = .ok level' r' →
      Q level' r')
    (hI : I level p) (hrun : joinAll wanted previous ids level p = .ok level' q) : Q level' q := by
  rw [joinAll_eq_foldlM] at hrun
  -- One relation with all base relations keeps what the pairs keep.
  have hrow : ∀ a ∈ previous, ∀ level r, I level r → ∀ level' r',
      ids.foldlM (tryPair wanted a) level r = .ok level' r' →
      I level' r' ∧ (Q level r → Q level' r') := by
    intro a ha level r hI level' r' hrow
    refine ⟨foldlM_keeps (fun l r hl b hb l' r' h => (hpair a ha b hb l r hl l' r' h).1) hI hrow,
      fun hQ => ?_⟩
    have hkeep := foldlM_keeps (I := fun l r => I l r ∧ Q l r)
      (fun l r hl b hb l' r' h => (hpair a ha b hb l r hl.1 l' r' h).imp_right (· hl.2))
      ⟨hI, hQ⟩ hrow
    exact hkeep.2
  refine foldlM_reaches (fun l r hl a ha l' r' h => hrow a ha l r hl l' r' h) ha
    (fun l r hl l' r' h => ?_) hI hrun
  exact foldlM_reaches (fun l r hl b hb l' r' h => hpair a ha b hb l r hl l' r' h) hb hreach hl h

/-- A pair is left alone if it overlaps or is not wanted. -/
theorem tryPair_eq (wanted : RelSet → RelSet → Bool) (level : List Nat) {a b : Nat}
    {o i : Outline α} (ho : p.outlines[a]? = some o) (hi : p.outlines[b]? = some i) :
    tryPair wanted a level b p =
      if o.relids.overlaps i.relids || !wanted o.relids i.relids then .ok level p
      else joinPair a b level p := by
  rw [tryPair, bind_of_ok (relids_of_outline ho), bind_of_ok (relids_of_outline hi)]
  exact apply_ite (fun m : PlanM α (List Nat) => m p) ..

/-- Joining a linked pair of the right sizes keeps a level sound and lists
the join. -/
theorem Sound.joinPair {a b : Nat} {o i : Outline α} (h : Sound G bases size level p.outlines)
    (hsize : 2 ≤ size) (ho : p.outlines[a]? = some o) (hi : p.outlines[b]? = some i)
    (hpart : Disjoint o.relids.toFinset i.relids.toFinset →
      IsPart G bases size (o.relids.toFinset ∪ i.relids.toFinset))
    (hrun : JoinSearch.joinPair a b level p = .ok level' q) :
    Sound G bases size level' q.outlines ∧ (∀ id ∈ level, id ∈ level') ∧
      Lists q.outlines level' (o.relids.toFinset ∪ i.relids.toFinset) := by
  obtain ⟨o', i', j, join, ho', hi', hd, hj, hkind, hrelids, hnew, rfl⟩ :=
    joinPair_eq_ok h.consistent hrun
  obtain rfl := Option.some.inj ((outlines_getElem? ho').symm.trans ho)
  obtain rfl := Option.some.inj ((outlines_getElem? hi').symm.trans hi)
  have hgrows := ((moves_joinPair a b level).of_ok hrun).1
  have hjpart : IsPart G bases size j.relids.toFinset := hrelids ▸ hpart hd
  refine ⟨⟨h.consistent.grows hgrows, fun o ho hk => ?_, fun id hid => ?_⟩,
    fun id hid => mem_listed.mpr (.inl hid), join, mem_listed.mpr (.inr rfl), j, hj, hrelids⟩
  · rcases hnew with hsame | hadd
    · exact h.joins o (hsame ▸ ho) hk
    · rw [hadd, List.mem_append, List.mem_singleton] at ho
      rcases ho with ho | rfl
      · exact h.joins o ho hk
      · exact ⟨size, hsize, le_rfl, hjpart⟩
  · rcases mem_listed.mp hid with hid | rfl
    · obtain ⟨o, ho, hpart⟩ := h.parts id hid
      exact ⟨o, hgrows.getElem? ho, hpart⟩
    · exact ⟨j, hj, hjpart⟩

/-- Exactly the linked ones among the pairs of a part and a relation are
wanted. -/
def WantsLinked (G : SimpleGraph RtIndex) (bases : Finset RtIndex) (size : Nat)
    (wanted : RelSet → RelSet → Bool) : Prop :=
  ∀ o i : RelSet, IsPart G bases size o.toFinset → IsPart G bases 1 i.toFinset →
    Disjoint o.toFinset i.toFinset →
    (wanted o i = true ↔ ∃ a ∈ o.toFinset, ∃ b ∈ i.toFinset, G.Adj a b)

/-- What trying a pair does to the level that is being built. -/
theorem Sound.tryPair {a b : Nat} {o i : Outline α} (hwanted : WantsLinked G bases size wanted)
    (h : Sound G bases (size + 1) level p.outlines) (hsize : 1 ≤ size)
    (ho : p.outlines[a]? = some o) (hi : p.outlines[b]? = some i)
    (hop : IsPart G bases size o.relids.toFinset) (hip : IsPart G bases 1 i.relids.toFinset)
    (hrun : JoinSearch.tryPair wanted a level b p = .ok level' q) :
    Sound G bases (size + 1) level' q.outlines ∧ Outline.Grows p.outlines q.outlines ∧
      (∀ id ∈ level, id ∈ level') ∧
      (Disjoint o.relids.toFinset i.relids.toFinset →
        (∃ x ∈ o.relids.toFinset, ∃ y ∈ i.relids.toFinset, G.Adj x y) →
        Lists q.outlines level' (o.relids.toFinset ∪ i.relids.toFinset)) := by
  rw [tryPair_eq wanted level ho hi] at hrun
  have hlinked := hwanted o.relids i.relids hop hip
  by_cases hskip : (o.relids.overlaps i.relids || !wanted o.relids i.relids) = true
  · rw [if_pos hskip] at hrun
    obtain ⟨rfl, rfl⟩ := pure_eq_ok.mp hrun
    refine ⟨h, .refl, fun _ hid => hid, fun hd hlink => ?_⟩
    -- The pair has been left out, so it is not linked.
    rw [RelSet.overlaps_eq_false_iff.mpr hd, (hlinked hd).mpr hlink] at hskip
    exact nomatch hskip
  · rw [if_neg hskip] at hrun
    rw [Bool.not_eq_true, Bool.or_eq_false_iff, Bool.not_eq_false'] at hskip
    obtain ⟨hsound, hsub, hlists⟩ := h.joinPair (by omega) ho hi (fun hd => by
      obtain ⟨x, hx, y, hy, hadj⟩ := (hlinked hd).mp hskip.2
      exact hop.union hip hd hx hy hadj) hrun
    exact ⟨hsound, ((moves_joinPair a b level).of_ok hrun).1, hsub, fun _ _ => hlists⟩

/-- All pairs of a level and the first one have been tried: the level behind
is sound and has every connected set of its size. -/
theorem joinAll_linked {os : List (Outline α)} (hwanted : WantsLinked G bases size wanted)
    (hsize : 1 ≤ size) (hfirst : Reached G bases 1 ids os)
    (hos : Outline.Grows os p.outlines)
    (h : Reached G bases size previous p.outlines)
    (hrun : joinAll wanted previous ids [] p = .ok level q) :
    Sound G bases (size + 1) level q.outlines ∧ Outline.Grows p.outlines q.outlines ∧
      ∀ s, IsPart G bases (size + 1) s → Lists q.outlines level s := by
  let I (level : List Nat) (r : Planner α) : Prop :=
    Sound G bases (size + 1) level r.outlines ∧ Outline.Grows p.outlines r.outlines
  have hstart : I [] p := ⟨h.sound_succ, .refl⟩
  -- One pair keeps the level sound and what it lists listed.
  have hpair : ∀ a ∈ previous, ∀ b ∈ ids, ∀ level r, I level r → ∀ level' r',
      tryPair wanted a level b r = .ok level' r' →
      I level' r' ∧ ∀ s, Lists r.outlines level s → Lists r'.outlines level' s := by
    intro a ha b hb level r hI level' r' hr
    obtain ⟨o, ho, hop⟩ := h.parts a ha
    obtain ⟨i, hi, hip⟩ := hfirst.parts b hb
    obtain ⟨hsound, hgrows, hsub, -⟩ := hI.1.tryPair hwanted hsize (hI.2.getElem? ho)
      ((hos.trans hI.2).getElem? hi) hop hip hr
    exact ⟨⟨hsound, hI.2.trans hgrows⟩, fun s hs => hs.grows hgrows hsub⟩
  obtain ⟨hsound, hgrows⟩ := joinAll_keeps
    (fun a ha b hb l r hl l' r' hlr => (hpair a ha b hb l r hl l' r' hlr).1) hstart hrun
  refine ⟨hsound, hgrows, fun s hs => ?_⟩
  -- A connected set is listed once its part and the relation missing have met.
  obtain ⟨t, u, ht, hu, hd, rfl, hlink⟩ := hs.exists_union hsize
  obtain ⟨a, ha, o, ho, rfl⟩ := h.lists t ht
  obtain ⟨b, hb, i, hi, rfl⟩ := hfirst.lists u hu
  refine joinAll_reaches (Q := fun l r => Lists r.outlines l _)
    (fun a ha b hb l r hl l' r' hlr => (hpair a ha b hb l r hl l' r' hlr).imp_right (· _)) ha hb
    (fun l r hl l' r' hlr => ?_) hstart hrun
  exact (hl.1.tryPair hwanted hsize (hl.2.getElem? ho) ((hos.trans hl.2).getElem? hi) ht hu
    hlr).2.2.2 hd hlink

/-- While relations are left over, each level has a level behind it, made of
linked pairs only. -/
theorem Reached.nextLevel {os : List (Outline α)} {g : JoinGraph}
    (hwanted : WantsLinked G bases size fun o i => !g.hasOutsideLinks o || g.linked o i)
    (hbases : ConnectedOn G bases) (hsize : 1 ≤ size) (hlt : size < bases.card)
    (hfirst : Reached G bases 1 ids os) (hos : Outline.Grows os p.outlines)
    (h : Reached G bases size previous p.outlines)
    (hrun : JoinSearch.nextLevel g ids previous p = .ok level q) :
    Reached G bases (size + 1) level q.outlines ∧ Outline.Grows p.outlines q.outlines := by
  obtain ⟨linked, p', hjoin, hrun⟩ := bind_eq_ok.mp hrun
  obtain ⟨hsound, hgrows, hlists⟩ := joinAll_linked hwanted hsize hfirst hos h hjoin
  -- Some set of the size is linked to a relation that is left over.
  have hne : linked ≠ [] := by
    obtain ⟨id, hid⟩ := List.exists_mem_of_ne_nil previous h.nonempty
    obtain ⟨o, -, hpart⟩ := h.parts id hid
    obtain ⟨t, ht⟩ := hpart.exists_succ hbases hlt
    obtain ⟨id, hid, -⟩ := hlists t ht
    exact List.ne_nil_of_mem hid
  rw [if_neg (by rwa [List.isEmpty_iff])] at hrun
  obtain ⟨rfl, rfl⟩ := pure_eq_ok.mp hrun
  refine ⟨⟨hsound, fun n s htwo hn hs => ?_, hlists, hne⟩, hgrows⟩
  -- Smaller sets have their joins already; those of this size are listed.
  by_cases hle : n ≤ size
  · obtain ⟨o, ho, hk, hrelids⟩ := h.complete n s htwo hle hs
    exact ⟨o, hgrows.mem ho, hk, hrelids⟩
  · obtain rfl : n = size + 1 := by omega
    obtain ⟨id, -, o, ho, rfl⟩ := hlists s hs
    have hmem := List.mem_of_getElem? ho
    refine ⟨o, hmem, ?_, rfl⟩
    cases hk : o.kind with
    | join => rfl
    | base =>
        obtain ⟨r, hr⟩ := hsound.consistent.relids_of_base o hmem hk
        have hcard := hs.card_eq
        rw [hr, RelSet.toFinset_singleton, Finset.card_singleton] at hcard
        omega

/-- Climbing as many levels as relations are left over ends with all of them
joined. -/
theorem Reached.climb {os : List (Outline α)} {g : JoinGraph} {steps : Nat}
    (hwanted : ∀ size, WantsLinked G bases size fun o i => !g.hasOutsideLinks o || g.linked o i)
    (hbases : ConnectedOn G bases) (hsize : 1 ≤ size) (hsteps : size + steps = bases.card)
    (hfirst : Reached G bases 1 ids os) (hos : Outline.Grows os p.outlines)
    (h : Reached G bases size level p.outlines)
    (hrun : JoinSearch.climb g ids steps level p = .ok level' q) :
    Reached G bases bases.card level' q.outlines := by
  -- Each step is one level; sizes and steps add up to the number of relations.
  induction steps generalizing size level p with
  | zero =>
      obtain ⟨rfl, rfl⟩ := pure_eq_ok.mp hrun
      exact hsteps ▸ h
  | succ steps ih =>
      obtain ⟨next, p', hnext, hrun⟩ := bind_eq_ok.mp hrun
      obtain ⟨hreached, hgrows⟩ :=
        nextLevel (hwanted size) hbases hsize (by omega) hfirst hos h hnext
      rw [if_neg (by rw [List.isEmpty_iff]; exact hreached.nonempty)] at hrun
      exact ih (by omega) (by omega) (hos.trans hgrows) hreached hrun

end Runs

/-! ## Base relations and joins -/

/-- The positions that have a base relation. -/
def positions (p : Planner α) : Finset RtIndex := (p.baseRelations.filterMap (·.relid?)).toFinset

section Kinds

variable {p : Planner α} {r : Relation α} {a : RtIndex}

/-- Among relations of one kind the members tell which is which. -/
theorem pairwise_relids (hp : Outline.Consistent p.outlines) (k : RelationKind) :
    (p.relations.filter fun r => r.kind = k).Pairwise
      fun r r' => r.relids.toFinset ≠ r'.relids.toFinset := by
  have hdistinct := hp.distinct
  rw [outlines, List.pairwise_map] at hdistinct
  refine (hdistinct.filter _).imp_of_mem fun {r r'} hr hr' hne hs => ?_
  obtain ⟨hmem, hk⟩ := List.mem_filter.mp hr
  obtain ⟨hmem', hk'⟩ := List.mem_filter.mp hr'
  have hasc := hp.ascending _ (List.mem_map_of_mem hmem)
  have hasc' := hp.ascending _ (List.mem_map_of_mem hmem')
  exact hne ((of_decide_eq_true hk).trans (of_decide_eq_true hk').symm) (hasc.ext hasc' hs)

theorem pairwise_baseRelations (hp : Outline.Consistent p.outlines) :
    p.baseRelations.Pairwise fun r r' => r.relids.toFinset ≠ r'.relids.toFinset := by
  rw [baseRelations_eq_of_consistent hp]
  exact pairwise_relids hp .base

theorem pairwise_joinRelations (hp : Outline.Consistent p.outlines) :
    p.joinRelations.Pairwise fun r r' => r.relids.toFinset ≠ r'.relids.toFinset := by
  rw [joinRelations_eq_filter]
  exact pairwise_relids hp .join

theorem nodup_joinRelations (hp : Outline.Consistent p.outlines) :
    (p.joinRelations.map (·.relids.toFinset)).Nodup :=
  List.pairwise_map.mpr (pairwise_joinRelations hp)

theorem mem_joinRelations_iff :
    s ∈ p.joinRelations.map (·.relids.toFinset) ↔
      ∃ o ∈ p.outlines, o.kind = .join ∧ o.relids.toFinset = s := by
  rw [joinRelations_eq_filter, outlines, List.mem_map]
  simp only [List.mem_filter, decide_eq_true_eq, List.mem_map, exists_exists_and_eq_and, and_assoc]
  exact Iff.rfl

/-- A base relation has its number and is the only member of itself. -/
theorem relid?_of_base (hp : Outline.Consistent p.outlines) (hr : r ∈ p.baseRelations) :
    p.outlines[r.id]? = some r.outline ∧ ∃ a, r.relid? = some a ∧ r.relids.toFinset = {a} := by
  obtain ⟨hmem, a, hrelid⟩ := mem_baseRelations_iff.mp hr
  have ho : r.outline ∈ p.outlines := List.mem_map_of_mem hmem
  have ha := ((hp.relid?_eq_some_iff ho).mp hrelid).2
  refine ⟨hp.getElem?_id ho, a, hrelid, ?_⟩
  exact (congrArg RelSet.toFinset ha).trans (RelSet.toFinset_singleton a)

theorem mem_positions_iff : a ∈ positions p ↔ ∃ r ∈ p.baseRelations, r.relid? = some a := by
  rw [positions, List.mem_toFinset, List.mem_filterMap]

/-- No position has two base relations. -/
theorem nodup_baseRelids (hp : Outline.Consistent p.outlines) :
    (p.baseRelations.filterMap (·.relid?)).Nodup := by
  refine List.pairwise_filterMap.mpr ((pairwise_baseRelations hp).imp_of_mem ?_)
  intro r r' hr hr' hne a ha a' ha' haa
  obtain ⟨-, b, hb, hs⟩ := relid?_of_base hp hr
  obtain ⟨-, b', hb', hs'⟩ := relid?_of_base hp hr'
  obtain rfl := Option.some.inj (ha.symm.trans hb)
  obtain rfl := Option.some.inj (ha'.symm.trans hb')
  exact hne (hs.trans (haa ▸ hs'.symm))

theorem length_baseRelations (hp : Outline.Consistent p.outlines) :
    p.baseRelations.length = (positions p).card := by
  have hlength : (p.baseRelations.filterMap (·.relid?)).length = p.baseRelations.length := by
    refine List.filterMap_length_eq_length.mpr fun r hr => ?_
    obtain ⟨-, a, ha, -⟩ := relid?_of_base hp hr
    rw [ha, Option.isSome_some]
  rw [positions, List.toFinset_card_of_nodup (nodup_baseRelids hp), hlength]

/-- Before the first join all relations are base relations. -/
theorem mem_baseRelations (hp : Outline.Consistent p.outlines) (hjoins : p.joinRelations = [])
    (hr : r ∈ p.relations) : r ∈ p.baseRelations := by
  refine (mem_baseRelations_iff_kind hp).mpr ⟨hr, ?_⟩
  cases hk : r.kind with
  | base => rfl
  | join =>
      have hmem : r ∈ p.joinRelations := Planner.mem_joinRelations_iff.mpr ⟨hr, hk⟩
      rw [hjoins] at hmem
      exact absurd hmem List.not_mem_nil

/-- The base relations are the first level. -/
theorem reached_one (hp : Outline.Consistent p.outlines) (hjoins : p.joinRelations = [])
    (hne : p.baseRelations.map (·.id) ≠ []) :
    Reached G (positions p) 1 (p.baseRelations.map (·.id)) p.outlines where
  consistent := hp
  joins o ho hk := by
    obtain ⟨r, hr, rfl⟩ := List.mem_map.mp ho
    have hmem : r ∈ p.joinRelations := Planner.mem_joinRelations_iff.mpr ⟨hr, hk⟩
    rw [hjoins] at hmem
    exact absurd hmem List.not_mem_nil
  parts := List.forall_mem_map.mpr fun r hr => by
    obtain ⟨hid, a, ha, hset⟩ := relid?_of_base hp hr
    refine ⟨r.outline, hid, ?_⟩
    show IsPart G _ 1 r.relids.toFinset
    rw [hset]
    exact .singleton (mem_positions_iff.mpr ⟨r, hr, ha⟩)
  complete n s htwo hone := absurd (htwo.trans hone) (by decide)
  lists s hs := by
    obtain ⟨a, ha, rfl⟩ := hs.eq_singleton
    obtain ⟨r, hr, hra⟩ := mem_positions_iff.mp ha
    obtain ⟨hid, b, hb, hset⟩ := relid?_of_base hp hr
    obtain rfl := Option.some.inj (hra.symm.trans hb)
    exact ⟨r.id, List.mem_map_of_mem hr, r.outline, hid, hset⟩
  nonempty := hne

end Kinds

/-! ## The whole search -/

section Search

variable [Number α] {p q : Planner α} {all : List (Clause α)} {ids : List Nat}

/-- With all relations connected, the links of a session are what decides
between the pairs of a level. -/
theorem wantsLinked_graph (hp : HasClauses all p) (hs : ConnectedOn (clauseGraph all) s) :
    WantsLinked (clauseGraph all) s size fun o i =>
      !(graph p).hasOutsideLinks o || (graph p).linked o i := by
  intro o i ho hi hd
  obtain ⟨b, hb, hib⟩ := hi.eq_singleton
  have hbo : b ∉ o.toFinset := by
    rwa [hib, Finset.disjoint_singleton_right] at hd
  obtain ⟨c, hc, d, -, hdo, hadj⟩ := ho.exists_adj hs hb hbo
  have houtside := (JoinGraph.hasOutsideLinks_iff hp).mpr ⟨c, hc, d, hdo, hadj⟩
  show (!(graph p).hasOutsideLinks o || (graph p).linked o i) = true ↔ _
  rw [houtside, Bool.not_true, Bool.false_or]
  exact JoinGraph.linked_iff hp

theorem start_eq_ok (h : start p = .ok ids q) :
    ids = p.baseRelations.map (·.id) ∧ ids ≠ [] ∧ ids.forM PlanM.addScans p = .ok ⟨⟩ q := by
  obtain ⟨_, _, hget, h⟩ := bind_eq_ok.mp h
  obtain ⟨rfl, rfl⟩ := get_eq_ok.mp hget
  dsimp only at h
  split at h
  · obtain ⟨_, _, hthrow, _⟩ := bind_eq_ok.mp h
    exact absurd hthrow throw_ne_ok
  · rename_i hne
    obtain ⟨_, _, hscans, h⟩ := bind_eq_ok.mp h
    obtain ⟨rfl, rfl⟩ := pure_eq_ok.mp h
    rw [List.isEmpty_iff] at hne
    exact ⟨rfl, hne, hscans⟩

theorem sameOutlines_start (h : start p = .ok ids q) : SameOutlines p q :=
  (start_moves moves_addScans).of_ok h

/-- A search that succeeds has climbed from the base relations to a level of one
relation. -/
theorem search_eq_ok {id : Nat} (h : search p = .ok id q) :
    ∃ p₁, start p = .ok (p.baseRelations.map (·.id)) p₁ ∧ p.baseRelations ≠ [] ∧
      climb (graph p₁) (p.baseRelations.map (·.id)) (p.baseRelations.length - 1)
        (p.baseRelations.map (·.id)) p₁ = .ok [id] q := by
  obtain ⟨ids, p₁, hstart, h⟩ := bind_eq_ok.mp h
  obtain ⟨_, _, hget, h⟩ := bind_eq_ok.mp h
  obtain ⟨rfl, rfl⟩ := get_eq_ok.mp hget
  obtain ⟨level, p₂, hclimb, hresult⟩ := bind_eq_ok.mp h
  obtain ⟨rfl, hne, -⟩ := start_eq_ok hstart
  rw [List.length_map] at hclimb
  refine ⟨p₁, hstart, fun hnil => hne (by rw [hnil, List.map_nil]), ?_⟩
  split at hresult
  · obtain ⟨rfl, rfl⟩ := pure_eq_ok.mp hresult
    exact hclimb
  · exact absurd hresult throw_ne_ok

/-- A search over connected relations ends with all of them joined. -/
theorem reached_of_search {id : Nat} (hp : HasClauses all p) (hjoins : p.joinRelations = [])
    (hconnected : ConnectedOn (clauseGraph all) (positions p)) (h : search p = .ok id q) :
    ∃ level, Reached (clauseGraph all) (positions p) (positions p).card level q.outlines := by
  obtain ⟨p₁, hstart, hne, hclimb⟩ := search_eq_ok h
  have hsame := sameOutlines_start hstart
  -- The scans of the first level are no relations.
  have hfirst : Reached (clauseGraph all) (positions p) 1 (p.baseRelations.map (·.id))
      p₁.outlines :=
    hsame.1 ▸ reached_one hp.consistent hjoins (mt List.map_eq_nil_iff.mp hne)
  have hlength := length_baseRelations hp.consistent
  have hpos := List.length_pos_iff.mpr hne
  refine ⟨[id],
    Reached.climb (fun size => ?_) hconnected le_rfl ?_ hfirst .refl hfirst hclimb⟩
  · exact wantsLinked_graph (hp.of_extends hsame.extends) hconnected
  · omega

end Search

/-- A search over connected relations joins exactly the connected sets of two
or more of them, each once. -/
theorem search_joins_connected [Number α] {settings : Settings α} {operators : OperatorCatalog α}
    {catalog : RelationSource α} {statistics : StatisticsProvider α}
    {rangeTable : List RangeTableEntry} {requests : List (Request α)} {log : List (Event α)}
    {p q : Planner α} {id : Nat}
    (hsession :
      session requests (.start settings operators catalog statistics rangeTable) = (log, p))
    (hdistributed : ∀ e err, .refused (.distribute e) err ∉ log) (hjoins : p.joinRelations = [])
    (hconnected : ConnectedOn (clauseGraph (clausesOf log)) (positions p))
    (hsearch : search p = .ok id q) :
    (q.joinRelations.map (·.relids.toFinset)).Nodup ∧
    ∀ s, s ∈ q.joinRelations.map (·.relids.toFinset) ↔
      s ⊆ positions p ∧ 2 ≤ s.card ∧ ConnectedOn (clauseGraph (clausesOf log)) s := by
  obtain ⟨rfl, rfl⟩ := Prod.ext_iff.mp hsession.symm
  have hclauses := hasClauses_session
    (.start settings operators catalog statistics rangeTable) hdistributed
  rw [List.nil_append] at hclauses
  obtain ⟨level, hreached⟩ := reached_of_search hclauses hjoins hconnected hsearch
  refine ⟨nodup_joinRelations hreached.consistent, fun s => mem_joinRelations_iff.trans ⟨?_, ?_⟩⟩
  · rintro ⟨o, ho, hk, rfl⟩
    obtain ⟨n, htwo, -, hpart⟩ := hreached.joins o ho hk
    exact ⟨hpart.subset, hpart.card_eq ▸ htwo, hpart.connected⟩
  · rintro ⟨hsub, htwo, hconn⟩
    exact hreached.complete s.card s htwo (Finset.card_le_card hsub) ⟨hsub, hconn, rfl⟩

/-- A chain of conditions over three relations. -/
def chainClauses : List (Request Float) :=
  [.distribute (conditionOn [1, 2]), .distribute (conditionOn [2, 3])]

/-- The ends of the chain are not joined without its middle. -/
theorem search_joins_connected_chain :
    ∃ log p id q, session chainClauses threeRelations = (log, p) ∧ positions p = {1, 2, 3} ∧
      ConnectedOn (clauseGraph (clausesOf log)) {1, 2, 3} ∧ search p = .ok id q ∧
      q.joinRelations.map (·.relids.toFinset) = [{1, 2}, {2, 3}, {1, 2, 3}] ∧
      ∀ s, s ∈ [{1, 2}, {2, 3}, {1, 2, 3}] ↔
        s ⊆ {1, 2, 3} ∧ 2 ≤ s.card ∧ ConnectedOn (clauseGraph (clausesOf log)) s := by
  obtain ⟨⟨log, p⟩, hsession⟩ : ∃ x, session chainClauses threeRelations = x := ⟨_, rfl⟩
  have hlog : log = (session chainClauses threeRelations).1 := by rw [hsession]
  have hp : p = (session chainClauses threeRelations).2 := by rw [hsession]
  have hdistributed : ∀ e err, .refused (.distribute e) err ∉ log := by
    have hall : log.all (fun event => event.clause?.isSome) = true := by
      rw [hlog]
      decide +kernel
    exact fun e err h => nomatch List.all_eq_true.mp hall _ h
  have hjoins : p.joinRelations = [] := by
    rw [hp, ← List.isEmpty_iff]
    decide +kernel
  have hpositions : positions p = {1, 2, 3} := by
    rw [hp]
    decide +kernel
  have hfirst : (clauseGraph (clausesOf log)).Adj 1 2 := by
    rw [hlog]
    decide +kernel
  have hsecond : (clauseGraph (clausesOf log)).Adj 2 3 := by
    rw [hlog]
    decide +kernel
  have hconnected : ConnectedOn (clauseGraph (clausesOf log)) {1, 2, 3} :=
    ((ConnectedOn.singleton _ 3).insert (Finset.mem_singleton_self 3) hsecond).insert
      (Finset.mem_insert_self 2 {3}) hfirst
  obtain ⟨id, q, hsearch⟩ : ∃ id q, search p = .ok id q := by
    refine exists_ok_of_succeeds ?_
    rw [hp]
    decide +kernel
  have hlist : q.joinRelations.map (·.relids.toFinset) = [{1, 2}, {2, 3}, {1, 2, 3}] := by
    rw [← final_of_ok hsearch, hp]
    decide +kernel
  have hjoined := search_joins_connected hsession hdistributed hjoins (hpositions ▸ hconnected)
    hsearch
  rw [hpositions, hlist] at hjoined
  exact ⟨log, p, id, q, hsession, hpositions, hconnected, hsearch, hlist, hjoined.2⟩

end QueryPlanner.JoinSearch
