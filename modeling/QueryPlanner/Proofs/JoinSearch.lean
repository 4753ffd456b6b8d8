/-
  QueryPlanner.Proofs.JoinSearch

  What the steps of the join search do to a session.

  A pair of relations is tried both ways round, which makes one join; trying
  all pairs of two lists makes some joins, and the search as a whole nothing
  but joins.
-/

import QueryPlanner.JoinSearch
import QueryPlanner.Proofs.Planner.Build

namespace QueryPlanner.JoinSearch

open Planner PlanM

variable {α : Type} {p q : Planner α}

section Moves

variable [Number α]

/-! ## What the search leaves alone -/

section Preorder

variable {R : Planner α → Planner α → Prop} [IsPreorder (Planner α) R]

/-- A pair goes wherever its join and their paths do. -/
theorem joinPair_moves
    (hjoin : ∀ a b, (PlanM.joinRelation a b : PlanM α (Nat × List (Clause α))).Moves R)
    (hpaths : ∀ join a b restrictions type,
      (PlanM.addJoins join a b restrictions type : PlanM α Unit).Moves R)
    (a b : Nat) (level : List Nat) : (joinPair a b level : PlanM α (List Nat)).Moves R :=
  .bind (hjoin a b) fun (join, forward) => .bind (hpaths join a b forward .inner) fun _ =>
    .bind (hjoin b a) fun (_, backward) => .bind (hpaths join b a backward .inner) fun _ => .pure _

theorem joinAll_moves (hpair : ∀ a b level, (joinPair a b level : PlanM α (List Nat)).Moves R)
    (wanted : RelSet → RelSet → Bool) (previous bases level : List Nat) :
    (joinAll wanted previous bases level : PlanM α (List Nat)).Moves R := by
  refine .foldlM (fun level outer => .foldlM (fun level inner => ?_) bases level) previous level
  refine .bind (.bind .get fun _ => .bind (.ofExcept _) fun _ => .pure _) fun o => ?_
  refine .bind (.bind .get fun _ => .bind (.ofExcept _) fun _ => .pure _) fun i => ?_
  split
  · exact .pure _
  · exact hpair outer inner level

theorem climb_moves (hpair : ∀ a b level, (joinPair a b level : PlanM α (List Nat)).Moves R)
    (g : JoinGraph) (bases : List Nat) (steps : Nat) (level : List Nat) :
    (climb g bases steps level : PlanM α (List Nat)).Moves R := by
  induction steps generalizing level with
  | zero => exact .pure level
  | succ steps ih =>
      refine .bind (.bind (joinAll_moves hpair _ level bases []) fun linked => ?_) fun next => ?_
      · split
        · exact joinAll_moves hpair _ level bases []
        · exact .pure linked
      · split
        · exact .bind (.throw _) fun _ => ih next
        · exact ih next

theorem start_moves (hscans : ∀ id, (PlanM.addScans id : PlanM α Unit).Moves R) :
    (start : PlanM α (List Nat)).Moves R := by
  refine .bind .get fun p => ?_
  dsimp only
  split
  · exact .bind (.throw _) fun _ => .bind (.forM hscans _) fun _ => .pure _
  · exact .bind (.forM hscans _) fun _ => .pure _

/-- The search goes wherever scans and pairs go. -/
theorem search_moves (hscans : ∀ id, (PlanM.addScans id : PlanM α Unit).Moves R)
    (hpair : ∀ a b level, (joinPair a b level : PlanM α (List Nat)).Moves R) :
    (search : PlanM α Nat).Moves R := by
  refine .bind (start_moves hscans) fun bases => .bind .get fun p =>
    .bind (climb_moves hpair _ bases _ bases) fun level => ?_
  split
  · exact .pure _
  · exact .throw _

end Preorder

theorem moves_joinPair (a b : Nat) (level : List Nat) :
    (joinPair a b level : PlanM α (List Nat)).Moves Extends :=
  joinPair_moves PlanM.moves_joinRelation (fun join a b restrictions type =>
    (PlanM.moves_addJoins join a b restrictions type).mono fun _ _ => SameOutlines.extends) a b level

end Moves

/-! ## Pairs -/

theorem relids_of_outline {id : Nat} {o : Outline α} (h : p.outlines[id]? = some o) :
    relids id p = .ok o.relids p := by
  obtain ⟨r, hr, rfl⟩ := exists_relation h
  exact bind_eq_ok.mpr ⟨p, p, rfl, bind_eq_ok.mpr ⟨r, p, ofExcept_eq_ok.mpr ⟨hr, rfl⟩, rfl⟩⟩

theorem mem_listed {level : List Nat} {join id : Nat} :
    id ∈ (if level.contains join then level else level ++ [join]) ↔ id ∈ level ∨ id = join := by
  split
  · rename_i h
    rw [List.contains_iff_mem] at h
    exact ⟨.inl, fun hid => hid.elim (fun hid => hid) fun hid => hid ▸ h⟩
  · rw [List.mem_append, List.mem_singleton]

/-- The join of the inputs the other way round is the join there is. -/
theorem joinRelation_swap [Number α] {a b join join' : Nat} {cs cs' : List (Clause α)}
    {q' r : Planner α} (hp : Outline.Consistent p.outlines)
    (h : PlanM.joinRelation a b p = .ok (join, cs) q) (hsame : SameOutlines q q')
    (h' : PlanM.joinRelation b a q' = .ok (join', cs') r) : r.outlines = q.outlines := by
  obtain ⟨hext, o, i, j, ho, hi, -, -, hj, hkind, hrelids, -⟩ := joinRelation_eq_ok hp h
  have hq : Outline.Consistent q'.outlines := hsame.1 ▸ hp.grows hext.1
  obtain ⟨hext', i', o', j', hi', ho', -, -, -, hkind', hrelids', hnew⟩ := joinRelation_eq_ok hq h'
  -- The inputs are the ones before, and so are the members of their join.
  have heq : o'.outline = o.outline := Option.some.inj
    ((outlines_getElem? ho').symm.trans (hsame.1 ▸ hext.1.getElem? (outlines_getElem? ho)))
  have heq' : i'.outline = i.outline := Option.some.inj
    ((outlines_getElem? hi').symm.trans (hsame.1 ▸ hext.1.getElem? (outlines_getElem? hi)))
  have hor : o'.relids = o.relids := congrArg Outline.relids heq
  have hir : i'.relids = i.relids := congrArg Outline.relids heq'
  have hasc := hp.ascending _ (outline_mem ho)
  have hasc' := hp.ascending _ (outline_mem hi)
  have hjoins : j.relids = j'.relids := by
    rw [hrelids, hrelids', hor, hir]
    exact hasc.union_comm hasc'
  rcases hnew with hnew | hnew
  · exact hnew.trans hsame.1
  · -- A second join of the same relations cannot be new.
    have hdistinct := (hq.grows hext'.1).distinct
    rw [hnew, List.pairwise_append] at hdistinct
    exact absurd hjoins (hdistinct.2.2 j (hsame.1 ▸ List.mem_of_getElem? hj) j'
      (List.mem_singleton_self j') (hkind.trans hkind'.symm))

/-- A pair has one join, found again when its inputs change places. -/
theorem joinPair_eq_ok [Number α] {a b : Nat} {level level' : List Nat}
    (hp : Outline.Consistent p.outlines) (h : joinPair a b level p = .ok level' q) :
    ∃ o i j, ∃ join : Nat, p.relation a = .ok o ∧ p.relation b = .ok i ∧
      Disjoint o.relids.toFinset i.relids.toFinset ∧ q.outlines[join]? = some j ∧
      j.kind = .join ∧ j.relids.toFinset = o.relids.toFinset ∪ i.relids.toFinset ∧
      (q.outlines = p.outlines ∨ q.outlines = p.outlines ++ [j]) ∧
      level' = if level.contains join then level else level ++ [join] := by
  obtain ⟨⟨join, forward⟩, p₁, hjoin, h⟩ := bind_eq_ok.mp h
  obtain ⟨_, p₂, hpaths, h⟩ := bind_eq_ok.mp h
  obtain ⟨⟨join', backward⟩, p₃, hjoin', h⟩ := bind_eq_ok.mp h
  obtain ⟨_, p₄, hpaths', h⟩ := bind_eq_ok.mp h
  obtain ⟨rfl, rfl⟩ := pure_eq_ok.mp h
  obtain ⟨-, o, i, j, ho, hi, hd, -, hj, hkind, hrelids, hnew⟩ := joinRelation_eq_ok hp hjoin
  have hsame : SameOutlines p₁ p₂ := (moves_addJoins join a b forward .inner).of_ok hpaths
  have hsame' : SameOutlines p₃ p₄ := (moves_addJoins join b a backward .inner).of_ok hpaths'
  have hlast : p₄.outlines = p₁.outlines :=
    hsame'.1.trans (joinRelation_swap hp hjoin hsame hjoin')
  refine ⟨o, i, j, join, ho, hi, RelSet.overlaps_eq_false_iff.mp hd, hlast ▸ hj, hkind, ?_,
    hlast ▸ hnew, rfl⟩
  rw [hrelids, RelSet.toFinset_union]

end QueryPlanner.JoinSearch
