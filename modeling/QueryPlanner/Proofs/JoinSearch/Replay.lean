/-
  QueryPlanner.Proofs.JoinSearch.Replay

  Planning again changes nothing.

  A second search makes the same calls as the first one.  Each of its joins is
  found, and each call for paths comes to the same ones: its inputs have had
  their last path when the join was tried first, as later calls only went to
  larger joins.  These paths were offered before, so kept ones cover them, and
  the relation keeps its list.

  `Replay` says this of one run of a program, and is proved along its script:
  for each of the three builders, then for a pair, a level and the climb.
-/

import QueryPlanner.Proofs.JoinSearch.Complete
import QueryPlanner.Proofs.Path.View
import QueryPlanner.Proofs.Planner.Later
import QueryPlanner.Proofs.Planner.Register

namespace QueryPlanner

open Planner PlanM

variable {α : Type} [Number α] {β γ : Type} {p q p' : Planner α} {n : Nat}

/-! ## Paths on offer -/

namespace Call

/-- The paths that a call comes to. -/
def paths? (c : Call α) (p : Planner α) : Except (PlanError α) (List (Path α)) :=
  match c with
  | .scans id => do Path.scans p (← p.relation id)
  | .join .. => return []
  | .paths id outer inner restrictions type => do
    let r ← p.relation id
    let o ← p.relation outer
    let i ← p.relation inner
    Pairing.paths p ⟨r, o, i, type, restrictions⟩

/-- The paths that a call offers to a relation: all that it comes to, or none
if it fails. -/
def offered (c : Call α) (p : Planner α) : List (Path α) :=
  match c.paths? p with
  | .ok made => made
  | .error _ => []

theorem offered_of_ok {c : Call α} {made : List (Path α)} (h : c.paths? p = .ok made) :
    c.offered p = made := by
  rw [offered, h]

end Call

/-! ## Runs that can be repeated -/

/-- A run that plans relations of at least so many members.  In any state
behind it that has planned no smaller ones since, it can be repeated: it comes
to the same result, and changes nothing. -/
structure Replay (n : Nat) (m : PlanM α β) (p : Planner α) (b : β) (p' : Planner α) : Prop where
  later : Later n p p'
  tidy : p'.Tidy
  again : ∀ q, q.Tidy → Later n p' q → m q = .ok b q

namespace Script

/-- Every path that a run offers has costs that can be compared. -/
def Costed {m : PlanM α β} (s : Script m) (p : Planner α) : Prop :=
  ∀ call ∈ s.calls p, ∀ path ∈ call.1.offered call.2, path.IsCosted

/-- If it succeeds, and all it offers is costed, a run can be repeated. -/
def Replays {m : PlanM α β} (n : Nat) (s : Script m) (p : Planner α) : Prop :=
  s.Costed p → ∀ b p', m p = .ok b p' → Replay n m p b p'

namespace Costed

variable {x : PlanM α β} {f : β → PlanM α γ} {sx : Script x} {sf : ∀ b, Script (f b)} {b : β}

theorem first (h : (Script.bind sx sf).Costed p) : sx.Costed p := by
  intro call hmem
  refine h call ?_
  rw [calls]
  exact List.mem_append_left _ hmem

theorem rest (h : (Script.bind sx sf).Costed p) (hb : x p = .ok b q) : (sf b).Costed q := by
  intro call hmem
  refine h call ?_
  rw [calls, hb]
  exact List.mem_append_right _ hmem

/-- What a call comes to is costed. -/
theorem call {c : Call α} {made : List (Path α)} (h : (Script.call c).Costed p)
    (hmade : c.paths? p = .ok made) : ∀ path ∈ made, path.IsCosted := by
  intro path hpath
  refine h (c, p) (List.mem_singleton_self _) path ?_
  rwa [Call.offered_of_ok hmade]

/-- Where the condition fails the other program is run. -/
theorem else_ {c : Prop} [inst : Decidable c] {x y : PlanM α β} {sx : Script x} {sy : Script y}
    (h : (Script.ite sx sy : Script (if c then x else y)).Costed p) (hc : ¬c) : sy.Costed p := by
  cases inst with
  | isTrue hyes => exact absurd hyes hc
  | isFalse _ => exact h

end Costed

namespace Replays

variable {m : PlanM α β} {s : Script m}

/-- A program that reads what stays. -/
theorem read {b : β} (hp : p.Tidy) (h : ∀ q, Later n p q → m q = .ok b q) : s.Replays n p := by
  intro _ b' p' hrun
  cases (h p (.refl n p)).symm.trans hrun
  exact ⟨.refl n p, hp, fun q _ hlater => h q hlater⟩

theorem pure {b : β} (hp : p.Tidy) : (Script.pure b).Replays n p := read hp fun _ _ => rfl

theorem bind {x : PlanM α β} {f : β → PlanM α γ} {sx : Script x} {sf : ∀ b, Script (f b)}
    (hx : sx.Replays n p) (hf : ∀ b q, x p = .ok b q → Replay n x p b q → (sf b).Replays n q) :
    (Script.bind sx sf).Replays n p := by
  intro hcosted c p' hrun
  obtain ⟨b, r, hb, hc⟩ := bind_eq_ok.mp hrun
  have hfirst := hx hcosted.first b r hb
  have hrest := hf b r hb hfirst (hcosted.rest hb) c p' hc
  refine ⟨hfirst.later.trans hrest.later, hrest.tidy, fun q hq hlater => ?_⟩
  -- What is behind the second part is behind the first one.
  have hagain := hfirst.again q hq (hrest.later.trans hlater)
  exact bind_eq_ok.mpr ⟨b, q, hagain, hrest.again q hq hlater⟩

theorem ite {c : Prop} [inst : Decidable c] {x y : PlanM α β} {sx : Script x} {sy : Script y}
    (hx : c → sx.Replays n p) (hy : ¬c → sy.Replays n p) :
    (Script.ite sx sy : Script (if c then x else y)).Replays n p := by
  cases inst with
  | isTrue h => exact hx h
  | isFalse h => exact hy h

/-- A loop can be repeated if each of its steps can behind those before. -/
theorem foldlM {f : β → γ → PlanM α β} {step : ∀ b x, Script (f b x)} {l : List γ} {b : β}
    (hp : p.Tidy)
    (hf : ∀ b q, q.Tidy → Later n p q → ∀ x ∈ l, (step b x).Replays n q) :
    (Script.foldlM step l b).Replays n p := by
  induction l generalizing p b with
  | nil => exact pure hp
  | cons x rest ih =>
      refine (hf b p hp (.refl n p) x List.mem_cons_self).bind fun c q _ hc => ?_
      refine ih hc.tidy fun b r hr hlater y hy => ?_
      exact hf b r hr (hc.later.trans hlater) y (List.mem_cons_of_mem x hy)

theorem forM {f : γ → PlanM α PUnit} {step : ∀ x, Script (f x)} {l : List γ} (hp : p.Tidy)
    (hf : ∀ q, q.Tidy → Later n p q → ∀ x ∈ l, (step x).Replays n q) :
    (Script.forM step l).Replays n p := by
  induction l generalizing p with
  | nil => exact pure hp
  | cons x rest ih =>
      refine (hf p hp (.refl n p) x List.mem_cons_self).bind fun _ q _ hq => ?_
      refine ih hq.tidy fun r hr hlater y hy => ?_
      exact hf r hr (hq.later.trans hlater) y (List.mem_cons_of_mem x hy)

end Replays

end Script

/-! ## The graph later -/

namespace JoinGraph

omit [Number α] in
theorem linksOf_bare (bases : List (Relation α × RtIndex)) :
    linksOf (bases.map fun x => (x.1.bare, x.2)) = linksOf bases := by
  induction bases with
  | nil => rfl
  | cons x rest ih =>
      have hrest : (rest.map fun x => (x.1.bare, x.2)).map (·.2) = rest.map (·.2) :=
        List.map_map
      rw [List.map_cons, linksOf, linksOf, ih, hrest]
      rfl

/-- Paths are no part of the graph. -/
theorem ofRelations_bare (rs : List (Relation α)) :
    ofRelations (rs.map Relation.bare) = ofRelations rs := by
  have hbases : (rs.map Relation.bare).filterMap (fun r => r.relid?.map (r, ·)) =
      (rs.filterMap fun r => r.relid?.map (r, ·)).map fun x => (x.1.bare, x.2) := by
    rw [List.filterMap_map, List.map_filterMap]
    refine congrArg (List.filterMap · rs) (funext fun r => ?_)
    show (r.relid?.map fun x => (r.bare, x)) = _
    cases r.relid? with
    | none => rfl
    | some relid => rfl
  rw [ofRelations, ofRelations, hbases, linksOf_bare, List.map_map]
  rfl

end JoinGraph

namespace Planner.Later

theorem graph_eq (h : Later n p q) : JoinSearch.graph q = JoinSearch.graph p := by
  rw [JoinSearch.graph, JoinSearch.graph, ← JoinGraph.ofRelations_bare, h.map_bare_baseRelations,
    JoinGraph.ofRelations_bare]

theorem map_id_baseRelations (h : Later n p q) :
    q.baseRelations.map (·.id) = p.baseRelations.map (·.id) := by
  have hbare := congrArg (List.map Relation.id) h.map_bare_baseRelations
  rwa [List.map_map, List.map_map] at hbare

end Planner.Later

/-! ## Joins and their inputs -/

section Inputs

variable {o i : Relation α} {a b join : Nat}

/-- Two relations of so many members, which none of them shares. -/
structure Inputs (n a b : Nat) (o i : Relation α) (p : Planner α) : Prop where
  outer : p.relation a = .ok o
  inner : p.relation b = .ok i
  disjoint : Disjoint o.relids.toFinset i.relids.toFinset
  card_add : o.relids.toFinset.card + i.relids.toFinset.card = n

namespace Inputs

omit [Number α] in
theorem symm (h : Inputs n a b o i p) : Inputs n b a i o p where
  outer := h.inner
  inner := h.outer
  disjoint := h.disjoint.symm
  card_add := (Nat.add_comm ..).trans h.card_add

omit [Number α] in
theorem card_union (h : Inputs n a b o i p) :
    (o.relids.toFinset ∪ i.relids.toFinset).card = n := by
  rw [Finset.card_union_of_disjoint h.disjoint, h.card_add]

/-- The inputs of a join stay as they are while relations of its size are
planned. -/
theorem later (h : Inputs n a b o i p) (hp : p.Tidy) (hlater : Later n p q) :
    Inputs n a b o i q := by
  have ho : 0 < o.relids.toFinset.card := hp.card_pos h.outer
  have hi : 0 < i.relids.toFinset.card := hp.card_pos h.inner
  have hadd := h.card_add
  exact ⟨hlater.small a o h.outer (by omega), hlater.small b i h.inner (by omega), h.disjoint, hadd⟩

end Inputs

/-- A join of two relations. -/
def IsJoin (join : Nat) (o i : Relation α) (p : Planner α) : Prop :=
  ∃ j, p.relation join = .ok j ∧ j.kind = .join ∧
    j.relids.toFinset = o.relids.toFinset ∪ i.relids.toFinset

theorem IsJoin.later (h : IsJoin join o i p) (hlater : Later n p q) : IsJoin join o i q := by
  obtain ⟨j, hj, hkind, hset⟩ := h
  obtain ⟨j', hj', hbare⟩ := hlater.exists_relation hj
  have hkind' : j'.bare.kind = j.bare.kind := by rw [hbare]
  have hset' : j'.bare.relids = j.bare.relids := by rw [hbare]
  exact ⟨j', hj', hkind'.trans hkind, (congrArg RelSet.toFinset hset').trans hset⟩

omit [Number α] in
theorem IsJoin.symm (h : IsJoin join o i p) : IsJoin join i o p := by
  obtain ⟨j, hj, hkind, hset⟩ := h
  exact ⟨j, hj, hkind, hset.trans (Finset.union_comm ..)⟩

end Inputs

/-! ## Builders -/

section Builders

variable {r o i j : Relation α} {id a b join : Nat} {cs : List (Clause α)}

/-- What joining two relations returns: their join, and clauses that read no
others. -/
theorem isJoin_of_joinRelation (hp : p.Tidy) (hin : Inputs n a b o i p)
    (h : joinRelation a b p = .ok (join, cs) q) :
    IsJoin join o i q ∧
      ∀ c ∈ cs, c.expr.relations.toFinset ⊆ o.relids.toFinset ∪ i.relids.toFinset := by
  obtain ⟨-, o', i', j, ho, hi, -, rfl, hj, hkind, hrelids, -⟩ :=
    joinRelation_eq_ok hp.consistent h
  cases ho.symm.trans hin.outer
  cases hi.symm.trans hin.inner
  obtain ⟨r, hr, rfl⟩ := exists_relation hj
  -- A clause applied here waited at one of the inputs.
  refine ⟨⟨r, hr, hkind, (congrArg RelSet.toFinset hrelids).trans (RelSet.toFinset_union ..)⟩,
    fun c hc => ?_⟩
  obtain ⟨all, hfiling, -⟩ := hp.filed
  have hanalyzed : c.Analyzed := by
    rcases Relation.keeps_of_mem_restrictionsOfJoin hc with hc | hc
    · exact hp.analyzed _ (outline_mem ho) c hc
    · exact hp.analyzed _ (outline_mem hi) c hc
  rw [← hanalyzed.required_eq]
  exact (hfiling.spans (outline_mem ho) (outline_mem hi) hc).subset

/-- A join that is built is found from then on. -/
theorem replays_join (hp : p.Tidy) (hin : Inputs n a b o i p) :
    (Script.call (.join a b)).Replays n p := by
  rintro - ⟨join, cs⟩ p' hrun
  change joinRelation a b p = .ok (join, cs) p' at hrun
  have hext : Extends p p' := (moves_joinRelation a b).of_ok hrun
  have hpart : Later n p p' ∧ ∀ r ∈ p'.relations, r.Tidy := by
    -- A join that is new is of the size that is being planned.
    rcases joinRelation_cases a b p with
      ⟨e, h⟩ | ⟨o', i', ho, hi, -, ⟨r, -, -, -, h⟩ | ⟨-, fraction, width, -, h⟩⟩
    · exact nomatch hrun.symm.trans h
    · cases hrun.symm.trans h
      exact ⟨.refl n p, hp.relations⟩
    · cases hrun.symm.trans h
      cases ho.symm.trans hin.outer
      cases hi.symm.trans hin.inner
      have hcard : (o.relids.union i.relids).toFinset.card = n := by
        rw [RelSet.toFinset_union, hin.card_union]
      refine ⟨.of_addRelation rfl hcard.ge, List.forall_mem_append.mpr ⟨hp.relations, ?_⟩⟩
      exact List.forall_mem_singleton.mpr (Relation.tidy_of_no_paths rfl)
  refine ⟨hpart.1, hp.of_extends hext hpart.2, fun q hq hlater => ?_⟩
  exact joinRelation_of_kept hp.consistent hrun hq.consistent
    fun _ _ ho => hlater.outlines_getElem? ho

/-- The members of a path's relation are found where this stays as it is. -/
theorem relids_later {k : Nat} (hp : p.Tidy) (hr : p.relation k = .ok r)
    (hr' : q.relation k = .ok r) : ∀ path ∈ r.paths, Path.relids p path = Path.relids q path := by
  intro path hpath
  have hk : path.parent = k :=
    ((hp.relation hr).parent path hpath).trans (id_of_relation hp.consistent hr)
  rw [Path.relids, Path.relids, hk, hr, hr']

/-- A join of the same inputs comes to the same paths later. -/
theorem paths_later {type : JoinType} (hp : p.Tidy) (hin : Inputs n a b o i p)
    (hj : p.relation join = .ok j) (hkind : j.kind = .join)
    (hset : j.relids.toFinset = o.relids.toFinset ∪ i.relids.toFinset)
    (hcs : ∀ c ∈ cs, c.expr.relations.toFinset ⊆ o.relids.toFinset ∪ i.relids.toFinset)
    (hq : q.Tidy) (hlater : Later n p q) (hbare : r.bare = j.bare) :
    Pairing.paths q ⟨r, o, i, type, cs⟩ = Pairing.paths p ⟨j, o, i, type, cs⟩ := by
  have hin' := hin.later hp hlater
  have hcard : j.relids.toFinset.card = n := by rw [hset, hin.card_union]
  -- Of the joins of its own size the pairing sees the one that it is for.
  have hsame : Pairing.SameView j.relids p q ⟨j, o, i, type, cs⟩ := {
    view := hlater.view_eq hq.consistent (.inr ⟨hcard, j.outline, outline_mem hj, hkind, rfl⟩)
    clauses := fun c hc => (hcs c hc).trans hset.ge
    outer := relids_later hp hin.outer hin'.outer
    inner := relids_later hp hin.inner hin'.inner }
  have hpairing : (⟨r, o, i, type, cs⟩ : Pairing α).bare = (⟨j, o, i, type, cs⟩ : Pairing α).bare := by
    rw [Pairing.bare, Pairing.bare, hbare]
  rw [← Pairing.paths_bare, hpairing, Pairing.paths_bare, hsame.paths_eq]

variable [Number.Ordered α]

/-- An offer of costed paths can be repeated as long as it comes to the same
paths: by then they are all covered. -/
theorem replay_offer {m : PlanM α Unit} {paths : List (Path α)} (hp : p.Tidy)
    (hr : p.relation id = .ok r) (hn : n ≤ r.relids.toFinset.card)
    (hparent : ∀ path ∈ paths, path.parent = r.id) (hcosted : ∀ path ∈ paths, path.IsCosted)
    (hagain : ∀ q s, q.Tidy → Later n p q → q.relation id = .ok s → s.bare = r.bare →
      m q = .ok () (modifyRelation id (.offer paths) q)) :
    Replay n m p () (modifyRelation id (.offer paths) p) := by
  have hlater : Later n p (modifyRelation id (.offer paths) p) :=
    .of_offer hr hn (hp.relation hr) hcosted
  refine ⟨hlater, hp.modifyRelation_offer hr hparent hcosted, fun q hq hlater' => ?_⟩
  have hoffered : (modifyRelation id (.offer paths) p).relation id = .ok (r.offer paths) := by
    rw [relation_modifyRelation hr, if_pos rfl]
    rfl
  -- The relation has gone on since, but covers what it has covered.
  obtain ⟨s, hs, hsr⟩ := hlater'.exists_relation hoffered
  have hcovers : ∀ path ∈ paths, s.Covers path := by
    intro path hpath
    have hfrontier := (hp.relation hr).frontier_offer hcosted
    exact hlater'.covers id _ s hoffered hs path
      (hfrontier.covers path (List.mem_append_right _ hpath))
  have hsame : (Relation.Edit.offer paths).apply s = s :=
    (hq.relation hs).offer_eq_self hcosted hcovers
  rw [hagain q s hq (hlater.trans hlater') hs hsr, modifyRelation_eq_self hs hsame]

/-- The scans of a relation are the same whatever joins there are. -/
theorem replays_scans (hp : p.Tidy) (id : Nat) : (Script.call (.scans id)).Replays 1 p := by
  intro hcosted b p' hrun
  rcases addScans_cases id p with ⟨e, h⟩ | ⟨r, paths, hr, hpaths, h⟩
  · exact nomatch hrun.symm.trans h
  · cases hrun.symm.trans h
    have hmade : (Call.scans id).paths? p = .ok paths := by
      rw [Call.paths?, hr]
      exact hpaths
    have hparent : ∀ path ∈ paths, path.parent = r.id := by
      intro path hpath
      obtain ⟨_, _, _, -, -, hbuild⟩ := Path.scan_of_mem_scans hpaths hpath
      exact Path.parent_of_build hbuild
    have hpos : 0 < r.relids.toFinset.card := hp.card_pos hr
    refine replay_offer hp hr hpos hparent (hcosted.call hmade) fun q s hq hlater hs hsr => ?_
    -- A scan looks at no join at all.
    have hview : p.view .empty = q.view .empty := hlater.view_eq hq.consistent (.inl (by decide))
    exact addScans_of_ok hs ((Path.scans_congr hview hsr.symm).symm.trans hpaths)

/-- The paths of a join are the same as long as its inputs are. -/
theorem replays_paths (hp : p.Tidy) (hin : Inputs n a b o i p) (hjoin : IsJoin join o i p)
    (hcs : ∀ c ∈ cs, c.expr.relations.toFinset ⊆ o.relids.toFinset ∪ i.relids.toFinset)
    (type : JoinType) : (Script.call (.paths join a b cs type)).Replays n p := by
  intro hcosted b' p' hrun
  obtain ⟨j, hj, hkind, hset⟩ := hjoin
  rcases addJoins_cases join a b cs type p with ⟨e, h⟩ | ⟨r, o', i', paths, hr, ho, hi, hpaths, h⟩
  · exact nomatch hrun.symm.trans h
  · cases hrun.symm.trans h
    cases hr.symm.trans hj
    cases ho.symm.trans hin.outer
    cases hi.symm.trans hin.inner
    have hmade : (Call.paths join a b cs type).paths? p = .ok paths := by
      rw [Call.paths?, hj, ho, hi]
      exact hpaths
    have hparent : ∀ path ∈ paths, path.parent = j.id := by
      intro path hpath
      obtain ⟨_, _, -, hbuild⟩ := Pairing.offers_of_mem_paths hpaths hpath
      exact Path.parent_of_build hbuild
    have hcard : j.relids.toFinset.card = n := by rw [hset, hin.card_union]
    refine replay_offer hp hj hcard.ge hparent (hcosted.call hmade) fun q s hq hlater hs hsr => ?_
    have hin' := hin.later hp hlater
    have hpaths' : Pairing.paths q ⟨s, o, i, type, cs⟩ = .ok paths := by
      rw [paths_later hp hin hj hkind hset hcs hq hlater hsr, hpaths]
    exact addJoins_of_ok hs hin'.outer hin'.inner hpaths'

end Builders

/-! ## The search -/

namespace JoinSearch

variable {bases : Finset RtIndex} {size a b : Nat} {o i : Relation α} {u v : Outline α}
  {wanted : RelSet → RelSet → Bool} {level level' previous ids : List Nat} {g : JoinGraph}

theorem replays_relids (hp : p.Tidy) (hu : p.outlines[a]? = some u) :
    (relidsScript a).Replays n p :=
  .read hp fun _ hlater => relids_of_outline (hlater.outlines_getElem? hu)

theorem start_of_ok (hne : p.baseRelations.map (·.id) ≠ [])
    (h : (p.baseRelations.map (·.id)).forM PlanM.addScans p = .ok ⟨⟩ q) :
    start p = .ok (p.baseRelations.map (·.id)) q := by
  have hempty : ¬ (p.baseRelations.map (·.id)).isEmpty = true := by rwa [List.isEmpty_iff]
  rw [start, get_bind]
  dsimp only
  rw [if_neg hempty]
  exact bind_eq_ok.mpr ⟨⟨⟩, q, h, rfl⟩

theorem search_of_ok {id : Nat} {r : Planner α} (hstart : start p = .ok ids q)
    (hclimb : climb (graph q) ids (ids.length - 1) ids q = .ok [id] r) : search p = .ok id r :=
  bind_eq_ok.mpr ⟨ids, q, hstart, bind_eq_ok.mpr ⟨q, q, get_eq_ok.mpr ⟨rfl, rfl⟩,
    bind_eq_ok.mpr ⟨[id], r, hclimb, rfl⟩⟩⟩

variable [Number.Ordered α]

theorem replays_pair (hp : p.Tidy) (hin : Inputs n a b o i p) (level : List Nat) :
    (pairScript a b level).Replays n p := by
  refine (replays_join hp hin).bind ?_
  rintro ⟨join, forward⟩ p₁ hforward h₁
  obtain ⟨hjoin, hcs⟩ := isJoin_of_joinRelation hp hin hforward
  have hin₁ := hin.later hp h₁.later
  refine (replays_paths h₁.tidy hin₁ hjoin hcs .inner).bind ?_
  rintro _ p₂ - h₂
  -- The other way round the inputs are the same, and so is the join.
  have hin₂ := (hin₁.later h₁.tidy h₂.later).symm
  refine (replays_join h₂.tidy hin₂).bind ?_
  rintro ⟨join', backward⟩ p₃ hbackward h₃
  obtain ⟨-, hcs'⟩ := isJoin_of_joinRelation h₂.tidy hin₂ hbackward
  have hin₃ := hin₂.later h₂.tidy h₃.later
  have hjoin₃ := ((hjoin.later h₂.later).later h₃.later).symm
  exact (replays_paths h₃.tidy hin₃ hjoin₃ hcs' .inner).bind fun _ _ _ h₄ => .pure h₄.tidy

theorem replays_try (hp : p.Tidy) (hu : p.outlines[a]? = some u) (hv : p.outlines[b]? = some v)
    (hcard : u.relids.toFinset.card + v.relids.toFinset.card = n) :
    (tryScript wanted a level b).Replays n p := by
  refine (replays_relids hp hu).bind fun s p₁ hs _ => ?_
  cases (relids_of_outline hu).symm.trans hs
  refine (replays_relids hp hv).bind fun t p₂ ht _ => ?_
  cases (relids_of_outline hv).symm.trans ht
  -- Which pairs are left out depends on their members only.
  refine .ite (fun _ => .pure hp) fun htried => ?_
  rw [Bool.not_eq_true, Bool.or_eq_false_iff, RelSet.overlaps_eq_false_iff] at htried
  obtain ⟨o, ho, rfl⟩ := exists_relation hu
  obtain ⟨i, hi, rfl⟩ := exists_relation hv
  exact replays_pair hp ⟨ho, hi, htried.1, hcard⟩ level

/-- The pairs of a level have one member more than its relations. -/
theorem replays_joinAll (hp : p.Tidy) (hfirst : Level bases 1 ids p.outlines)
    (hprevious : Level bases size previous p.outlines) :
    (joinAllScript wanted previous ids []).Replays (size + 1) p := by
  refine .foldlM hp fun level q hq hlater a ha => .foldlM hq fun level r hr hlater' b hb => ?_
  obtain ⟨u, hu, hus⟩ := hprevious.parts a ha
  obtain ⟨v, hv, hvs⟩ := hfirst.parts b hb
  have hlater := hlater.trans hlater'
  refine replays_try hr (hlater.outlines_getElem? hu) (hlater.outlines_getElem? hv) ?_
  rw [hus.card_eq, hvs.card_eq]

theorem replays_nextLevel (hp : p.Tidy) (hfirst : Level bases 1 ids p.outlines)
    (hprevious : Level bases size previous p.outlines) :
    (nextScript g ids previous).Replays (size + 1) p := by
  refine (replays_joinAll hp hfirst hprevious).bind fun linked q hrun hq => ?_
  have hgrows := ((joinAll_moves moves_joinPair _ previous ids []).of_ok hrun).1
  exact .ite (fun _ => replays_joinAll hq.tidy (hfirst.grows hgrows) (hprevious.grows hgrows))
    fun _ => .pure hq.tidy

/-- A climb can be repeated at its end.  No level has touched the relations of
those below it. -/
theorem climb_again {steps : Nat} (hp : p.Tidy) (hsize : 1 ≤ size)
    (hsteps : size + steps ≤ bases.card) (hfirst : Bases bases ids p.outlines)
    (hlevel : Level bases size level p.outlines) (hne : level ≠ [])
    (hcosted : (climbScript g ids steps level).Costed p)
    (hrun : climb g ids steps level p = .ok level' q) :
    Later (size + 1) p q ∧ q.Tidy ∧ climb g ids steps level q = .ok level' q := by
  -- Each step plans the next size, and the steps behind it larger ones.
  induction steps generalizing size level p with
  | zero =>
      obtain ⟨rfl, rfl⟩ := pure_eq_ok.mp hrun
      exact ⟨.refl _ p, hp, rfl⟩
  | succ steps ih =>
      obtain ⟨next, r, hnext, hrest⟩ := bind_eq_ok.mp hrun
      have hreplay := replays_nextLevel hp hfirst.toLevel hlevel hcosted.first next r hnext
      obtain ⟨⟨-, hlevel', hgrows⟩, hne'⟩ := PlanM.Ends.result
        (progress_consistent.nextLevel hp.consistent hsize (by omega) hfirst hlevel hne) hnext
      have hempty : ¬ next.isEmpty = true := by rwa [List.isEmpty_iff]
      rw [if_neg hempty] at hrest
      have hlevels : size + 1 + steps ≤ bases.card := by omega
      obtain ⟨hlater, hq, hagain⟩ := ih hreplay.tidy (by omega) hlevels (hfirst.grows hgrows) hlevel'
        hne' ((hcosted.rest hnext).else_ hempty) hrest
      have hlater' : Later (size + 1) r q := hlater.mono (by omega)
      refine ⟨hreplay.later.trans hlater', hq, ?_⟩
      refine bind_eq_ok.mpr ⟨next, q, hreplay.again q hq hlater', ?_⟩
      rw [if_neg hempty]
      exact hagain

theorem replay_start (hp : p.Tidy) (hcosted : startScript.Costed p) (hrun : start p = .ok ids q) :
    Replay 1 start p ids q := by
  obtain ⟨rfl, hne, hscans⟩ := start_eq_ok hrun
  have hempty : ¬ (p.baseRelations.map (·.id)).isEmpty = true := by rwa [List.isEmpty_iff]
  have hloop : (Script.forM (fun id => .call (.scans id)) (p.baseRelations.map (·.id))).Costed p :=
    ((hcosted.rest (get_eq_ok.mpr ⟨rfl, rfl⟩)).else_ hempty).first
  have hreplay : Replay 1 ((p.baseRelations.map (·.id)).forM PlanM.addScans) p ⟨⟩ q :=
    Script.Replays.forM hp (fun r hr _ id _ => replays_scans hr id) hloop ⟨⟩ q hscans
  refine ⟨hreplay.later, hreplay.tidy, fun r hr hlater => ?_⟩
  -- The base relations are the same, so the same scans are asked for.
  have hids := (hreplay.later.trans hlater).map_id_baseRelations
  rw [← hids]
  refine start_of_ok (hids ▸ hne) ?_
  rw [hids]
  exact hreplay.again r hr hlater

/-- A search can be repeated at its end. -/
theorem search_again_of_tidy {id : Nat} (hp : p.Tidy) (hcosted : script.Costed p)
    (hrun : search p = .ok id q) : search q = .ok id q := by
  obtain ⟨r, hstart, hne, hclimb⟩ := search_eq_ok hrun
  have hfirst := replay_start hp hcosted.first hstart
  have hbases : Bases (positions p) (p.baseRelations.map (·.id)) r.outlines :=
    (sameOutlines_start hstart).1 ▸ bases_baseRelations hp.consistent
  have hids : p.baseRelations.map (·.id) ≠ [] := mt List.map_eq_nil_iff.mp hne
  have hlength := length_baseRelations hp.consistent
  have hpos := List.length_pos_iff.mpr hne
  have hcount : (p.baseRelations.map (·.id)).length = p.baseRelations.length := List.length_map ..
  rw [← hcount] at hclimb hlength hpos
  have hclimbed := ((hcosted.rest hstart).rest (get_eq_ok.mpr ⟨rfl, rfl⟩)).first
  obtain ⟨hlater, hq, hagain⟩ := climb_again hfirst.tidy le_rfl (by omega) hbases hbases.toLevel
    hids hclimbed hclimb
  -- The first level and the graph are those of the run before.
  have hstart' := hfirst.again q hq (hlater.mono (by omega))
  rw [← hlater.graph_eq] at hagain
  exact search_of_ok hstart' hagain

/-! ## Sessions -/

/-- Whatever a session has asked for, as long as no path has been made: if a
search succeeds, and all paths that it offers have costs that can be compared,
a second search right behind it returns the same relation and leaves everything
as it is, every relation with its paths in their order. -/
theorem search_again {settings : Settings α} {operators : OperatorCatalog α}
    {catalog : RelationSource α} {statistics : StatisticsProvider α}
    {rangeTable : List RangeTableEntry} {requests : List (Request α)} {log : List (Event α)}
    {id : Nat}
    (hsession :
      session requests (.start settings operators catalog statistics rangeTable) = (log, p))
    (hpaths : ∀ r ∈ p.relations, r.paths = [])
    (hcosted : ∀ call ∈ calls p, ∀ path ∈ call.1.offered call.2, path.IsCosted)
    (hsearch : search p = .ok id q) : search q = .ok id q := by
  have hp : (session requests (.start settings operators catalog statistics rangeTable)).2 = p :=
    congrArg Prod.snd hsession
  have hstart : (Planner.start settings operators catalog statistics rangeTable).WaitAnalyzed :=
    nofun
  have htidy : p.Tidy := {
    filed := hp ▸ filed_session (.start settings operators catalog statistics rangeTable) requests
    analyzed := hp ▸ waitAnalyzed_session hstart requests
    relations := fun r hr => Relation.tidy_of_no_paths (hpaths r hr) }
  exact search_again_of_tidy htidy hcosted hsearch

/-- Three relations are planned twice, with the same paths at all of them. -/
theorem search_again_linkedAndApart :
    ∃ log p id q, session linkedAndApart threeRelations = (log, p) ∧
      (∀ r ∈ p.relations, r.paths = []) ∧
      (∀ call ∈ calls p, ∀ path ∈ call.1.offered call.2, path.IsCosted) ∧
      search p = .ok id q ∧ p.relations.length < q.relations.length ∧
      (∀ r ∈ q.relations, r.paths ≠ []) ∧ search q = .ok id q := by
  obtain ⟨⟨log, p⟩, hsession⟩ : ∃ x, session linkedAndApart threeRelations = x := ⟨_, rfl⟩
  have hp : p = (session linkedAndApart threeRelations).2 := by rw [hsession]
  have hpaths : ∀ r ∈ p.relations, r.paths = [] := by
    rw [hp]
    decide +kernel
  have hcosted : ∀ call ∈ calls p, ∀ path ∈ call.1.offered call.2, path.IsCosted := by
    rw [hp]
    decide +kernel
  obtain ⟨id, q, hsearch⟩ : ∃ id q, search p = .ok id q := by
    refine exists_ok_of_succeeds ?_
    rw [hp]
    decide +kernel
  have hjoins : p.relations.length < q.relations.length := by
    rw [← final_of_ok hsearch, hp]
    decide +kernel
  have hplanned : ∀ r ∈ q.relations, r.paths ≠ [] := by
    rw [← final_of_ok hsearch, hp]
    decide +kernel
  exact ⟨log, p, id, q, hsession, hpaths, hcosted, hsearch, hjoins, hplanned,
    search_again hsession hpaths hcosted hsearch⟩

end JoinSearch

end QueryPlanner
