/-
  QueryPlanner.Proofs.JoinSearch.Levels

  The levels of the join search, whatever the clauses of the query.

  A level joins one base relation more than the level before.  Links decide
  only which of the sets of a size are joined: where they leave a level empty
  every pair is tried, and some pair of a level and the first one is disjoint
  as long as relations are left over.  So the last level has a relation, and
  as it has all base relations for members, no second one.
-/

import QueryPlanner.Proofs.JoinSearch.Calls

namespace QueryPlanner.JoinSearch

open Planner PlanM

variable {α : Type} {bases : Finset RtIndex} {size : Nat} {level previous ids : List Nat}
  {o i : Outline α} {os os' : List (Outline α)}

/-! ## Levels -/

/-- A relation of so many of the base relations, and a base relation only if
it is one of them. -/
structure OfSize (bases : Finset RtIndex) (size : Nat) (o : Outline α) : Prop where
  subset : o.relids.toFinset ⊆ bases
  card_eq : o.relids.toFinset.card = size
  kind_iff : o.kind = .base ↔ size = 1

/-- Relations of one size, each listed once. -/
structure Level (bases : Finset RtIndex) (size : Nat) (level : List Nat)
    (os : List (Outline α)) : Prop where
  nodup : level.Nodup
  parts : ∀ id ∈ level, ∃ o, os[id]? = some o ∧ OfSize bases size o

/-- A level of base relations, and all of them. -/
structure Bases (bases : Finset RtIndex) (ids : List Nat) (os : List (Outline α)) : Prop
    extends Level bases 1 ids os where
  covers : ∀ r ∈ bases, ∃ id ∈ ids, ∃ o, os[id]? = some o ∧ o.relids.toFinset = {r}

/-- One relation more makes a join. -/
theorem OfSize.join {j : Outline α} (ho : OfSize bases size o) (hi : OfSize bases 1 i)
    (hd : Disjoint o.relids.toFinset i.relids.toFinset) (hsize : 1 ≤ size)
    (hj : j.relids.toFinset = o.relids.toFinset ∪ i.relids.toFinset) (hkind : j.kind = .join) :
    OfSize bases (size + 1) j where
  subset := hj ▸ Finset.union_subset ho.subset hi.subset
  card_eq := by rw [hj, Finset.card_union_of_disjoint hd, ho.card_eq, hi.card_eq]
  kind_iff := by
    rw [hkind]
    exact iff_of_false nofun (by omega)

namespace Level

theorem nil : Level bases size [] os := ⟨.nil, nofun⟩

theorem grows (h : Level bases size level os) (hg : Outline.Grows os os') :
    Level bases size level os' where
  nodup := h.nodup
  parts id hid := by
    obtain ⟨o, ho, hpart⟩ := h.parts id hid
    exact ⟨o, hg.getElem? ho, hpart⟩

/-- A level with all base relations for members has one relation. -/
theorem eq_singleton (h : Level bases bases.card level os) (hos : Outline.Consistent os)
    (hne : level ≠ []) : ∃ id o, level = [id] ∧ os[id]? = some o ∧ o.relids.toFinset = bases := by
  have hall : ∀ id ∈ level, ∃ o, os[id]? = some o ∧ o.relids.toFinset = bases ∧
      (o.kind = .base ↔ bases.card = 1) := by
    intro id hid
    obtain ⟨o, ho, hpart⟩ := h.parts id hid
    exact ⟨o, ho, Finset.eq_of_subset_of_card_le hpart.subset hpart.card_eq.ge, hpart.kind_iff⟩
  have hsame : ∀ id ∈ level, ∀ id' ∈ level, id = id' := by
    intro id hid id' hid'
    obtain ⟨o, ho, hrelids, hkind⟩ := hall id hid
    obtain ⟨o', ho', hrelids', hkind'⟩ := hall id' hid'
    have hmem := List.mem_of_getElem? ho
    have hmem' := List.mem_of_getElem? ho'
    have hk : o.kind = o'.kind := by
      have hiff := hkind.trans hkind'.symm
      cases hb : o.kind <;> cases hb' : o'.kind <;> simp_all
    have heq : o = o' := hos.eq_of_relids hmem hmem' hk
      ((hos.ascending o hmem).ext (hos.ascending o' hmem') (hrelids.trans hrelids'.symm))
    rw [← hos.id_eq id o ho, ← hos.id_eq id' o' ho', heq]
  obtain ⟨id, hid⟩ := List.exists_mem_of_ne_nil level hne
  obtain ⟨o, ho, hrelids, -⟩ := hall id hid
  have hrep := List.eq_replicate_of_mem fun id' hid' => hsame id' hid' id hid
  have hle : level.length ≤ 1 := List.nodup_replicate.mp (hrep ▸ h.nodup)
  have hpos : 0 < level.length := List.length_pos_of_mem hid
  rw [show level.length = 1 by omega] at hrep
  exact ⟨id, o, hrep, ho, hrelids⟩

end Level

theorem Bases.grows (h : Bases bases ids os) (hg : Outline.Grows os os') : Bases bases ids os' where
  toLevel := h.toLevel.grows hg
  covers r hr := by
    obtain ⟨id, hid, o, ho, hrelids⟩ := h.covers r hr
    exact ⟨id, hid, o, hg.getElem? ho, hrelids⟩

/-- As long as relations are left over, one of them is in no relation of a
level. -/
theorem Bases.exists_disjoint (h : Bases bases ids os) (ho : OfSize bases size o)
    (hlt : size < bases.card) :
    ∃ id ∈ ids, ∃ i, os[id]? = some i ∧ Disjoint o.relids.toFinset i.relids.toFinset := by
  obtain ⟨r, hr, hro⟩ := Finset.exists_mem_notMem_of_card_lt_card (ho.card_eq ▸ hlt)
  obtain ⟨id, hid, i, hi, hrelids⟩ := h.covers r hr
  exact ⟨id, hid, i, hi, hrelids ▸ Finset.disjoint_singleton_right.mpr hro⟩

/-- The base relations of a session are the first level. -/
theorem bases_baseRelations {p : Planner α} (hp : Outline.Consistent p.outlines) :
    Bases (positions p) (p.baseRelations.map (·.id)) p.outlines where
  nodup := by
    refine List.pairwise_map.mpr ((pairwise_baseRelations hp).imp_of_mem fun hr hr' hne hid => ?_)
    have ho := (relid?_of_base hp hr).1
    rw [hid, (relid?_of_base hp hr').1] at ho
    exact hne (congrArg (fun o => o.relids.toFinset) (Option.some.inj ho).symm)
  parts := List.forall_mem_map.mpr fun r hr => by
    obtain ⟨hid, a, ha, hset⟩ := relid?_of_base hp hr
    refine ⟨r.outline, hid, ?_, ?_, ?_⟩
    · show r.relids.toFinset ⊆ _
      rw [hset, Finset.singleton_subset_iff]
      exact mem_positions_iff.mpr ⟨r, hr, ha⟩
    · show r.relids.toFinset.card = 1
      rw [hset, Finset.card_singleton]
    · exact iff_of_true ((mem_baseRelations_iff_kind hp).mp hr).2 rfl
  covers a ha := by
    obtain ⟨r, hr, hra⟩ := mem_positions_iff.mp ha
    obtain ⟨hid, b, hb, hset⟩ := relid?_of_base hp hr
    obtain rfl := Option.some.inj (hra.symm.trans hb)
    exact ⟨r.id, List.mem_map_of_mem hr, r.outline, hid, hset⟩

/-! ## From level to level -/

section Runs

variable [Number α] {p q : Planner α} {wanted : RelSet → RelSet → Bool} {a b : Nat}
  {level' : List Nat} {I : Planner α → Prop} {C : Call α → Planner α → Prop}

/-- Where the invariant holds any relation can be joined with one of a single
member, or one of the calls for it fails that may. -/
structure Progress (I : Planner α → Prop) (C : Call α → Planner α → Prop) : Prop where
  consistent : ∀ p, I p → Outline.Consistent p.outlines
  joinPair : ∀ p a b level o i, I p → p.relation a = .ok o → p.relation b = .ok i →
    Disjoint o.relids.toFinset i.relids.toFinset → i.relids.toFinset.card = 1 →
    (pairScript a b level).Ends p (fun _ q => I q) C

/-- The join of a pair is listed, once. -/
theorem Level.of_joinPair (h : Level bases (size + 1) level p.outlines)
    (hp : Outline.Consistent p.outlines) (hsize : 1 ≤ size) (ho : p.outlines[a]? = some o)
    (hi : p.outlines[b]? = some i) (hos : OfSize bases size o) (his : OfSize bases 1 i)
    (hrun : joinPair a b level p = .ok level' q) :
    Level bases (size + 1) level' q.outlines ∧ level' ≠ [] := by
  have hgrows := ((moves_joinPair a b level).of_ok hrun).1
  obtain ⟨o', i', j, join, ho', hi', hd, hj, hkind, hrelids, -, rfl⟩ := joinPair_eq_ok hp hrun
  obtain rfl := Option.some.inj ((outlines_getElem? ho').symm.trans ho)
  obtain rfl := Option.some.inj ((outlines_getElem? hi').symm.trans hi)
  have hjoin : OfSize bases (size + 1) j := hos.join his hd hsize hrelids hkind
  refine ⟨⟨?_, fun id hid => ?_⟩, List.ne_nil_of_mem (mem_listed.mpr (.inr rfl))⟩
  · split
    · exact h.nodup
    · rename_i hnew
      rw [List.contains_iff_mem] at hnew
      rw [← List.concat_eq_append]
      exact List.Nodup.concat hnew h.nodup
  · rcases mem_listed.mp hid with hid | rfl
    · exact (h.grows hgrows).parts id hid
    · exact ⟨j, hj, hjoin⟩

namespace Progress

/-- Trying a pair adds at most its join to the level that is being built. -/
theorem tryPair (h : Progress I C) (hp : I p) (hlevel : Level bases (size + 1) level p.outlines)
    (hsize : 1 ≤ size) (ho : p.outlines[a]? = some o) (hi : p.outlines[b]? = some i)
    (hos : OfSize bases size o) (his : OfSize bases 1 i) :
    (tryScript wanted a level b).Ends p (fun level' q =>
      I q ∧ Level bases (size + 1) level' q.outlines ∧ Outline.Grows p.outlines q.outlines) C := by
  refine Script.Ends.bind (Q := fun s q => s = o.relids ∧ p = q)
    (.of_ok (relids_of_outline ho) ⟨rfl, rfl⟩) ?_
  rintro _ _ - ⟨rfl, rfl⟩
  refine Script.Ends.bind (Q := fun s q => s = i.relids ∧ p = q)
    (.of_ok (relids_of_outline hi) ⟨rfl, rfl⟩) ?_
  rintro _ _ - ⟨rfl, rfl⟩
  refine .ite (fun _ => .pure ⟨hp, hlevel, .refl⟩) fun htried => ?_
  rw [Bool.not_eq_true, Bool.or_eq_false_iff, RelSet.overlaps_eq_false_iff] at htried
  obtain ⟨r, hr, rfl⟩ := exists_relation ho
  obtain ⟨s, hs, rfl⟩ := exists_relation hi
  refine (h.joinPair _ a b level r s hp hr hs htried.1 his.card_eq).imp_of_ok ?_
  intro level' q hrun hq
  exact ⟨hq, (hlevel.of_joinPair (h.consistent _ hp) hsize ho hi hos his hrun).1,
    ((moves_joinPair a b level).of_ok hrun).1⟩

/-- Trying all pairs of a level and the first one builds the relations of the
next size. -/
theorem joinAll (h : Progress I C) (hp : I p) (hsize : 1 ≤ size)
    (hfirst : Bases bases ids p.outlines) (hprevious : Level bases size previous p.outlines) :
    (joinAllScript wanted previous ids []).Ends p (fun level q =>
      I q ∧ Level bases (size + 1) level q.outlines ∧ Outline.Grows p.outlines q.outlines) C := by
  refine Script.Ends.foldlM (fun level r hr a ha => Script.Ends.foldlM (fun level r hr b hb => ?_) hr)
    ⟨hp, .nil, .refl⟩
  obtain ⟨hr, hlevel, hgrows⟩ := hr
  obtain ⟨o, ho, hos⟩ := hprevious.parts a ha
  obtain ⟨i, hi, his⟩ := hfirst.parts b hb
  refine (h.tryPair hr hlevel hsize (hgrows.getElem? ho) (hgrows.getElem? hi) hos his).imp_of_ok ?_
  rintro level' q - ⟨hq, hlevel', hgrows'⟩
  exact ⟨hq, hlevel', hgrows.trans hgrows'⟩

end Progress

/-- Trying a pair that has to be joined leaves the level with a relation. -/
theorem ne_nil_of_tryPair (hp : Outline.Consistent p.outlines) (ho : p.outlines[a]? = some o)
    (hi : p.outlines[b]? = some i)
    (hrun : tryPair (fun _ _ => true) a level b p = .ok level' q) :
    Outline.Grows p.outlines q.outlines ∧
      (level ≠ [] ∨ Disjoint o.relids.toFinset i.relids.toFinset → level' ≠ []) := by
  rw [tryPair_eq _ level ho hi] at hrun
  split at hrun
  · rename_i hskip
    obtain ⟨rfl, rfl⟩ := pure_eq_ok.mp hrun
    rw [Bool.not_true, Bool.or_false] at hskip
    refine ⟨.refl, ?_⟩
    rintro (hne | hd)
    · exact hne
    · rw [RelSet.overlaps_eq_false_iff.mpr hd] at hskip
      exact nomatch hskip
  · obtain ⟨_, _, _, join, -, -, -, -, -, -, -, rfl⟩ := joinPair_eq_ok hp hrun
    exact ⟨((moves_joinPair a b level).of_ok hrun).1,
      fun _ => List.ne_nil_of_mem (mem_listed.mpr (.inr rfl))⟩

/-- As long as relations are left over, trying every pair makes a join. -/
theorem joinAll_ne_nil (hp : Outline.Consistent p.outlines) (hfirst : Bases bases ids p.outlines)
    (hprevious : Level bases size previous p.outlines) (hne : previous ≠ [])
    (hlt : size < bases.card) (hrun : joinAll (fun _ _ => true) previous ids [] p = .ok level q) :
    level ≠ [] := by
  let Built (_ : List Nat) (r : Planner α) : Prop := Outline.Grows p.outlines r.outlines
  have hpair : ∀ a ∈ previous, ∀ b ∈ ids, ∀ level r, Built level r → ∀ level' r',
      tryPair (fun _ _ => true) a level b r = .ok level' r' →
      Built level' r' ∧ (level ≠ [] → level' ≠ []) := by
    intro a ha b hb level r hr level' r' hrun
    obtain ⟨o, ho, -⟩ := hprevious.parts a ha
    obtain ⟨i, hi, -⟩ := hfirst.parts b hb
    obtain ⟨hgrows, hkeep⟩ :=
      ne_nil_of_tryPair (hp.grows hr) (hr.getElem? ho) (hr.getElem? hi) hrun
    exact ⟨hr.trans hgrows, fun hne => hkeep (.inl hne)⟩
  -- The first relation of the level has one to be joined with.
  obtain ⟨a, ha⟩ := List.exists_mem_of_ne_nil previous hne
  obtain ⟨o, ho, hos⟩ := hprevious.parts a ha
  obtain ⟨b, hb, i, hi, hd⟩ := hfirst.exists_disjoint hos hlt
  refine joinAll_reaches (Q := fun l _ => l ≠ []) hpair ha hb (fun l r hl l' r' h => ?_) .refl hrun
  exact (ne_nil_of_tryPair (hp.grows hl) (hl.getElem? ho) (hl.getElem? hi) h).2 (.inr hd)

namespace Progress

/-- A level has a level behind it as long as relations are left over. -/
theorem nextLevel {g : JoinGraph} (h : Progress I C) (hp : I p) (hsize : 1 ≤ size)
    (hlt : size < bases.card) (hfirst : Bases bases ids p.outlines)
    (hprevious : Level bases size previous p.outlines) (hne : previous ≠ []) :
    (nextScript g ids previous).Ends p (fun level q =>
      (I q ∧ Level bases (size + 1) level q.outlines ∧ Outline.Grows p.outlines q.outlines) ∧
        level ≠ []) C := by
  refine (h.joinAll hp hsize hfirst hprevious).bind fun linked r _ hr => ?_
  obtain ⟨hr, hlevel, hgrows⟩ := hr
  refine .ite (fun _ => ?_) fun hlinked => ?_
  · -- Without links every pair is tried.
    refine (h.joinAll hr hsize (hfirst.grows hgrows) (hprevious.grows hgrows)).imp_of_ok ?_
    rintro level q hrun ⟨hq, hlevel, hgrows'⟩
    exact ⟨⟨hq, hlevel, hgrows.trans hgrows'⟩, joinAll_ne_nil (h.consistent r hr)
      (hfirst.grows hgrows) (hprevious.grows hgrows) hne hlt hrun⟩
  · rw [List.isEmpty_iff] at hlinked
    exact .pure ⟨⟨hr, hlevel, hgrows⟩, hlinked⟩

/-- As many levels as relations are left over can be climbed. -/
theorem climb {g : JoinGraph} {steps : Nat} (h : Progress I C) (hp : I p) (hsize : 1 ≤ size)
    (hsteps : size + steps ≤ bases.card) (hfirst : Bases bases ids p.outlines)
    (hlevel : Level bases size level p.outlines) (hne : level ≠ []) :
    (climbScript g ids steps level).Ends p (fun level q =>
      I q ∧ Level bases (size + steps) level q.outlines ∧ level ≠ []) C := by
  -- Each step is one level, and its relations have one member more.
  induction steps generalizing size level p with
  | zero => exact .pure ⟨hp, hlevel, hne⟩
  | succ steps ih =>
      refine (h.nextLevel hp hsize (by omega) hfirst hlevel hne).bind fun next r _ hr => ?_
      obtain ⟨⟨hr, hnext, hgrows⟩, hne⟩ := hr
      have hrest := ih hr (by omega) (by omega) (hfirst.grows hgrows) hnext hne
      rw [Nat.add_right_comm] at hrest
      exact .ite (fun hempty => absurd (List.isEmpty_iff.mp hempty) hne) fun _ => hrest

/-- The search finds a relation that joins all base relations, or one of its
calls fails that may. -/
theorem search (h : Progress I C) (hp : Outline.Consistent p.outlines)
    (hstart : startScript.Ends p (fun _ q => I q) C) :
    script.Ends p (fun id q =>
      I q ∧ ∃ r, q.relation id = .ok r ∧ r.relids.toFinset = positions p) C := by
  refine hstart.bind fun ids p₁ hrun hp₁ => ?_
  have hsame := sameOutlines_start hrun
  obtain ⟨rfl, hne, -⟩ := start_eq_ok hrun
  -- The scans of the first level are no relations.
  have hfirst : Bases (positions p) (p.baseRelations.map (·.id)) p₁.outlines :=
    hsame.1 ▸ bases_baseRelations hp
  have hlength := length_baseRelations hp
  have hpos := List.length_pos_iff.mpr hne
  rw [List.length_map] at hpos
  refine Script.Ends.bind (Q := fun q q' => q' = p₁ ∧ q = p₁) (.of_ok rfl ⟨rfl, rfl⟩) ?_
  rintro _ _ - ⟨rfl, rfl⟩
  rw [List.length_map]
  refine (h.climb hp₁ le_rfl (by omega) hfirst hfirst.toLevel hne).bind fun level q _ hq => ?_
  obtain ⟨hq, hlevel, hne⟩ := hq
  rw [show 1 + (p.baseRelations.length - 1) = (positions p).card by omega] at hlevel
  obtain ⟨id, o, rfl, ho, hrelids⟩ := hlevel.eq_singleton (h.consistent q hq) hne
  obtain ⟨r, hr, rfl⟩ := exists_relation ho
  exact .pure ⟨hq, r, hr, hrelids⟩

end Progress

end Runs

end QueryPlanner.JoinSearch
