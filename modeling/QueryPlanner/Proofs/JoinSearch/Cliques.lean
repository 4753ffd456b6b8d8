/-
  QueryPlanner.Proofs.JoinSearch.Cliques

  Relations that are all linked to each other.

  The search joins every set of them, and for each set it tries every member
  as the relation that is joined last.  So whatever is known of all pairs that
  a search has joined is known of a member and any others.
-/

import QueryPlanner.Proofs.JoinSearch.Levels

namespace QueryPlanner.JoinSearch

open Planner PlanM

variable {α : Type} [Number α] {p q : Planner α} {clique bases s : Finset RtIndex}
  {size a b : Nat} {level level' previous ids : List Nat} {wanted : RelSet → RelSet → Bool}
  {y : RtIndex} {i : Relation α} {I : Planner α → Prop} {J : Finset RtIndex → RtIndex → Prop}

/-- Some relations of a set are always to be joined with another one of it. -/
def WantsClique (clique : Finset RtIndex) (wanted : RelSet → RelSet → Bool) : Prop :=
  ∀ (o i : RelSet) (y : RtIndex), o.toFinset ⊆ clique → o.toFinset.Nonempty → i.toFinset = {y} →
    y ∈ clique → y ∉ o.toFinset → wanted o i = true

/-- What joining a relation with one of a single member shows, where the
invariant holds. -/
structure Accounts (I : Planner α → Prop) (J : Finset RtIndex → RtIndex → Prop) : Prop where
  consistent : ∀ p, I p → Outline.Consistent p.outlines
  joinPair : ∀ p q a b level level' o i y, I p → p.relation a = .ok o → p.relation b = .ok i →
    i.relids.toFinset = {y} → joinPair a b level p = .ok level' q →
    I q ∧ J o.relids.toFinset y

/-- A pair can be tried only if its relations are there. -/
theorem exists_of_tryPair (hrun : tryPair wanted a level b p = .ok level' q) :
    ∃ o i, p.relation a = .ok o ∧ p.relation b = .ok i := by
  have hrelids {id : Nat} {s : RelSet} {p p' : Planner α} (h : relids id p = .ok s p') :
      p = p' ∧ ∃ r, p.relation id = .ok r := by
    obtain ⟨_, _, hget, h⟩ := bind_eq_ok.mp h
    obtain ⟨rfl, rfl⟩ := get_eq_ok.mp hget
    obtain ⟨r, _, hread, h⟩ := bind_eq_ok.mp h
    obtain ⟨hr, rfl⟩ := ofExcept_eq_ok.mp hread
    exact ⟨(pure_eq_ok.mp h).2, r, hr⟩
  obtain ⟨_, p', ho, hrun⟩ := bind_eq_ok.mp hrun
  obtain ⟨_, p'', hi, -⟩ := bind_eq_ok.mp hrun
  obtain ⟨rfl, o, ho⟩ := hrelids ho
  obtain ⟨-, i, hi⟩ := hrelids hi
  exact ⟨o, i, ho, hi⟩

namespace Accounts

/-- What trying a pair shows, and does to the level that is being built. -/
theorem tryPair (h : Accounts I J) (hp : I p) (hi : p.relation b = .ok i)
    (hiy : i.relids.toFinset = {y})
    (hrun : JoinSearch.tryPair wanted a level b p = .ok level' q) :
    I q ∧ Outline.Grows p.outlines q.outlines ∧ (∀ id ∈ level, id ∈ level') ∧
      ∀ o, p.relation a = .ok o → wanted o.relids i.relids = true → y ∉ o.relids.toFinset →
        J o.relids.toFinset y ∧ Lists q.outlines level' (insert y o.relids.toFinset) := by
  obtain ⟨o, i', ho, hi'⟩ := exists_of_tryPair hrun
  obtain rfl := Except.ok.inj (hi.symm.trans hi')
  rw [tryPair_eq wanted level (outlines_getElem? ho) (outlines_getElem? hi)] at hrun
  split at hrun
  · rename_i hskip
    obtain ⟨rfl, rfl⟩ := pure_eq_ok.mp hrun
    refine ⟨hp, .refl, fun _ hid => hid, fun o' ho' hwanted hyo => ?_⟩
    -- The pair would not have been left out.
    obtain rfl := Except.ok.inj (ho.symm.trans ho')
    have hd : Disjoint o.relids.toFinset i.relids.toFinset :=
      hiy ▸ Finset.disjoint_singleton_right.mpr hyo
    have hover : o.relids.overlaps i.relids = false := RelSet.overlaps_eq_false_iff.mpr hd
    rw [Relation.outline, Relation.outline, hover, hwanted] at hskip
    exact absurd hskip Bool.false_ne_true
  · obtain ⟨hq, hJ⟩ := h.joinPair p q a b level level' o i y hp ho hi hiy hrun
    obtain ⟨o', i', j, join, ho', hi', -, hj, -, hrelids, -, rfl⟩ :=
      joinPair_eq_ok (h.consistent p hp) hrun
    refine ⟨hq, ((moves_joinPair a b level).of_ok hrun).1, fun _ hid => mem_listed.mpr (.inl hid),
      fun o'' ho'' _ _ => ?_⟩
    obtain rfl := Except.ok.inj (ho.symm.trans ho')
    obtain rfl := Except.ok.inj (hi.symm.trans hi')
    obtain rfl := Except.ok.inj (ho.symm.trans ho'')
    refine ⟨hJ, join, mem_listed.mpr (.inr rfl), j, hj, ?_⟩
    rw [hrelids, hiy, Finset.union_comm, Finset.insert_eq]

/-- Any so many of a clique have been joined with each of the others. -/
theorem joinAll (h : Accounts I J) (hp : I p) (hsize : 1 ≤ size)
    (hfirst : Bases bases ids p.outlines) (hclique : clique ⊆ bases)
    (hlists : ∀ s ⊆ clique, s.card = size → Lists p.outlines previous s)
    (hwanted : WantsClique clique wanted)
    (hrun : JoinSearch.joinAll wanted previous ids [] p = .ok level q) :
    I q ∧ Outline.Grows p.outlines q.outlines ∧
      ∀ s ⊆ clique, s.card = size → ∀ y ∈ clique, y ∉ s →
        J s y ∧ Lists q.outlines level (insert y s) := by
  let K (_ : List Nat) (r : Planner α) : Prop := I r ∧ Outline.Grows p.outlines r.outlines
  have hpair : ∀ a ∈ previous, ∀ b ∈ ids, ∀ level r, K level r → ∀ level' r',
      JoinSearch.tryPair wanted a level b r = .ok level' r' →
      K level' r' ∧ ∀ s, Lists r.outlines level s → Lists r'.outlines level' s := by
    intro a ha b hb level r hK level' r' hr
    obtain ⟨o, ho, hob⟩ := hfirst.parts b hb
    obtain ⟨y, hy⟩ := Finset.card_eq_one.mp hob.card_eq
    obtain ⟨i, hi, rfl⟩ := exists_relation (hK.2.getElem? ho)
    obtain ⟨hr', hgrows, hsub, -⟩ := h.tryPair hK.1 hi hy hr
    exact ⟨⟨hr', hK.2.trans hgrows⟩, fun s hs => hs.grows hgrows hsub⟩
  obtain ⟨hq, hgrows⟩ := joinAll_keeps
    (fun a ha b hb l r hl l' r' hr => (hpair a ha b hb l r hl l' r' hr).1) ⟨hp, .refl⟩ hrun
  refine ⟨hq, hgrows, fun s hs hcard y hy hys => ?_⟩
  obtain ⟨a, ha, o, ho, rfl⟩ := hlists s hs hcard
  obtain ⟨b, hb, i, hi, hiy⟩ := hfirst.covers y (hclique hy)
  have hne : o.relids.toFinset.Nonempty := Finset.card_pos.mp (by omega)
  refine joinAll_reaches (I := K)
    (Q := fun l r => J o.relids.toFinset y ∧ Lists r.outlines l (insert y o.relids.toFinset))
    (fun a ha b hb l r hl l' r' hr => ?_) ha hb (fun l r hl l' r' hr => ?_) ⟨hp, .refl⟩ hrun
  · obtain ⟨hK, hkeep⟩ := hpair a ha b hb l r hl l' r' hr
    exact ⟨hK, fun hQ => ⟨hQ.1, hkeep _ hQ.2⟩⟩
  · -- The pair itself.
    obtain ⟨o', ho', rfl⟩ := exists_relation (hl.2.getElem? ho)
    obtain ⟨i', hi', rfl⟩ := exists_relation (hl.2.getElem? hi)
    obtain ⟨-, -, -, hshows⟩ := h.tryPair hl.1 hi' hiy hr
    exact hshows o' ho' (hwanted _ _ y hs hne hiy hy hys) hys

/-- Below its own size the level behind a level has all sets of the clique. -/
theorem nextLevel {g : JoinGraph} (h : Accounts I J) (hp : I p) (hsize : 1 ≤ size)
    (hlt : size < clique.card) (hfirst : Bases bases ids p.outlines) (hclique : clique ⊆ bases)
    (hlists : ∀ s ⊆ clique, s.card = size → Lists p.outlines previous s)
    (hwanted : WantsClique clique fun o i => !g.hasOutsideLinks o || g.linked o i)
    (hrun : JoinSearch.nextLevel g ids previous p = .ok level q) :
    I q ∧ Outline.Grows p.outlines q.outlines ∧
      (∀ s ⊆ clique, s.card = size → ∀ y ∈ clique, y ∉ s → J s y) ∧
      ∀ s ⊆ clique, s.card = size + 1 → Lists q.outlines level s := by
  obtain ⟨linked, p', hjoin, hrun⟩ := bind_eq_ok.mp hrun
  obtain ⟨hq, hgrows, hpairs⟩ := h.joinAll hp hsize hfirst hclique hlists hwanted hjoin
  have hnext : ∀ s ⊆ clique, s.card = size + 1 → Lists p'.outlines linked s := by
    intro s hs hcard
    -- Any member will do as the one that is joined last.
    obtain ⟨y, hy⟩ : s.Nonempty := Finset.card_pos.mp (by omega)
    have herase : (s.erase y).card = size := by rw [Finset.card_erase_of_mem hy, hcard]; rfl
    have hpair := hpairs (s.erase y) ((Finset.erase_subset y s).trans hs) herase y (hs hy)
      (Finset.notMem_erase y s)
    exact Finset.insert_erase hy ▸ hpair.2
  -- So the level is not one where every pair is tried for want of links.
  have hne : linked ≠ [] := by
    obtain ⟨s, hs, hcard⟩ := Finset.exists_subset_card_eq (n := size + 1) (s := clique) hlt
    obtain ⟨id, hid, -⟩ := hnext s hs hcard
    exact List.ne_nil_of_mem hid
  rw [if_neg (by rwa [List.isEmpty_iff])] at hrun
  obtain ⟨rfl, rfl⟩ := pure_eq_ok.mp hrun
  exact ⟨hq, hgrows, fun s hs hcard y hy hys => (hpairs s hs hcard y hy hys).1, hnext⟩

/-- The levels behind a level have met all larger sets of the clique. -/
theorem climb {g : JoinGraph} {steps : Nat} (h : Accounts I J) (hp : I p) (hsize : 1 ≤ size)
    (hsteps : clique.card ≤ size + steps) (hfirst : Bases bases ids p.outlines)
    (hclique : clique ⊆ bases)
    (hlists : ∀ s ⊆ clique, s.card = size → Lists p.outlines level s)
    (hwanted : WantsClique clique fun o i => !g.hasOutsideLinks o || g.linked o i)
    (hrun : JoinSearch.climb g ids steps level p = .ok level' q) :
    ∀ s ⊆ clique, size ≤ s.card → ∀ y ∈ clique, y ∉ s → J s y := by
  -- A set without a member of the clique is smaller than the clique.
  have hsmaller {s : Finset RtIndex} (hs : s ⊆ clique) {y : RtIndex} (hy : y ∈ clique)
      (hys : y ∉ s) : s.card < clique.card :=
    Finset.card_lt_card ((Finset.ssubset_iff_of_subset hs).mpr ⟨y, hy, hys⟩)
  -- Each step is one level; a set meets the other members on the level of its size.
  induction steps generalizing size level p with
  | zero =>
      intro s hs hle y hy hys
      have hlt := hsmaller hs hy hys
      omega
  | succ steps ih =>
      intro s hs hle y hy hys
      have hlt := hsmaller hs hy hys
      obtain ⟨next, p', hnext, hrun⟩ := bind_eq_ok.mp hrun
      obtain ⟨hp', hgrows, hpairs, hlists'⟩ :=
        h.nextLevel hp hsize (by omega) hfirst hclique hlists hwanted hnext
      split at hrun
      · exact absurd hrun throw_ne_ok
      · by_cases hcard : s.card = size
        · exact hpairs s hs hcard y hy hys
        · exact ih hp' (by omega) (by omega) (hfirst.grows hgrows) hlists' hrun s hs (by omega) y hy
            hys

/-- A search that succeeds has joined any relations of a clique with each of
the others. -/
theorem search {id : Nat} (h : Accounts I J) (hp : Outline.Consistent p.outlines)
    (hstart : start p = .ok ids q) (hq : I q) (hclique : clique ⊆ positions p)
    (hwanted : WantsClique clique fun o i => !(graph q).hasOutsideLinks o || (graph q).linked o i)
    {q' : Planner α} (hrun : JoinSearch.search p = .ok id q') :
    ∀ s ⊆ clique, s.Nonempty → ∀ y ∈ clique, y ∉ s → J s y := by
  obtain ⟨p₁, hstart', hne, hclimb⟩ := search_eq_ok hrun
  cases hstart.symm.trans hstart'
  have hsame := sameOutlines_start hstart
  have hfirst : Bases (positions p) (p.baseRelations.map (·.id)) q.outlines :=
    hsame.1 ▸ bases_baseRelations hp
  have hlength := length_baseRelations hp
  have hpos := List.length_pos_iff.mpr hne
  have hcard := Finset.card_le_card hclique
  intro s hs hsne
  refine h.climb hq le_rfl (by omega) hfirst hclique (fun s hs hcard => ?_) hwanted hclimb s hs
    hsne.card_pos
  obtain ⟨y, rfl⟩ := Finset.card_eq_one.mp hcard
  obtain ⟨id, hid, o, ho, hrelids⟩ := hfirst.covers y (hclique (Finset.singleton_subset_iff.mp hs))
  exact ⟨id, hid, o, ho, hrelids⟩

end Accounts

end QueryPlanner.JoinSearch
