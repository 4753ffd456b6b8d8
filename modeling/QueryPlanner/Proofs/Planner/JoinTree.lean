/-
  QueryPlanner.Proofs.Planner.JoinTree

  The clauses applied by a tree of joins.

  A join relation is built once, for whichever split into inputs comes first,
  and is reused for every other one; which clauses a join applies depends on
  its split all the same.  Over a whole tree of joins the clauses come out
  right: whatever is inside the leaves has been applied once, and whatever
  reaches out of them still waits at the root.
-/

import Mathlib.Data.List.Perm.Basic
import QueryPlanner.Proofs.Planner.Session

namespace QueryPlanner

open Planner

variable {α : Type} {all : List (Clause α)} {c : Clause α}

/-! ## Clauses over two sets -/

namespace Clause

variable {s t : Finset RtIndex}

theorem not_subset_of_disjoint (hasc : c.required.Ascending) (hsize : 2 ≤ c.required.size)
    (hd : Disjoint s t) (hs : c.required.toFinset ⊆ s) : ¬ c.required.toFinset ⊆ t := by
  intro ht
  have hempty : c.required.toFinset = ∅ := Finset.disjoint_self_iff_empty _ |>.mp (hd.mono hs ht)
  rw [hasc.size_eq, hempty, Finset.card_empty] at hsize
  omega

/-- The clauses inside a union are those inside a part, and those that take
both parts. -/
theorem within_union_iff (hasc : c.required.Ascending) (hd : Disjoint s t) :
    2 ≤ c.required.size ∧ c.required.toFinset ⊆ s ∪ t ↔
      (2 ≤ c.required.size ∧ c.required.toFinset ⊆ s ∨
        2 ≤ c.required.size ∧ c.required.toFinset ⊆ t) ∨
      c.required.toFinset ⊆ s ∪ t ∧ ¬ c.required.toFinset ⊆ s ∧ ¬ c.required.toFinset ⊆ t := by
  constructor
  · rintro ⟨hsize, hsub⟩
    by_cases hs : c.required.toFinset ⊆ s
    · exact .inl (.inl ⟨hsize, hs⟩)
    · by_cases ht : c.required.toFinset ⊆ t
      · exact .inl (.inr ⟨hsize, ht⟩)
      · exact .inr ⟨hsub, hs, ht⟩
  · rintro ((⟨hsize, hs⟩ | ⟨hsize, ht⟩) | ⟨hsub, hout⟩)
    · exact ⟨hsize, hs.trans Finset.subset_union_left⟩
    · exact ⟨hsize, ht.trans Finset.subset_union_right⟩
    · refine ⟨?_, hsub⟩
      rcases (crosses_within_union_iff hd hsub).mpr hout with hcross | hcross
      · exact hcross.two_le_size hasc
      · exact hcross.two_le_size hasc

end Clause

/-! ## One join -/

/-- A join of two relations, with the clauses that it applies. -/
structure Outline.Joins (all : List (Clause α)) (o i j : Outline α)
    (restrictions : List (Clause α)) : Prop where
  disjoint : Disjoint o.relids.toFinset i.relids.toFinset
  relids_eq : j.relids.toFinset = o.relids.toFinset ∪ i.relids.toFinset
  nodup : restrictions.Nodup
  mem_iff : ∀ c, c ∈ restrictions ↔ c ∈ all ∧
    c.required.toFinset ⊆ o.relids.toFinset ∪ i.relids.toFinset ∧
    ¬ c.required.toFinset ⊆ o.relids.toFinset ∧ ¬ c.required.toFinset ⊆ i.relids.toFinset

theorem Outline.Joins.symm {o i j : Outline α} {restrictions : List (Clause α)}
    (h : Joins all o i j restrictions) : Joins all i o j restrictions where
  disjoint := h.disjoint.symm
  relids_eq := h.relids_eq.trans (Finset.union_comm ..)
  nodup := h.nodup
  mem_iff c := by
    rw [h.mem_iff, Finset.union_comm]
    exact and_congr_right fun _ => and_congr_right fun _ => and_comm

/-- The clauses over several relations that are all in a set, each once. -/
structure Clause.Applied (all cs : List (Clause α)) (s : Finset RtIndex) : Prop where
  nodup : cs.Nodup
  mem_iff : ∀ c, c ∈ cs ↔ c ∈ all ∧ 2 ≤ c.required.size ∧ c.required.toFinset ⊆ s

/-- One relation has no clause over several to apply. -/
theorem Clause.applied_singleton (hasc : ∀ c ∈ all, c.required.Ascending) (a : RtIndex) :
    Applied all [] {a} where
  nodup := .nil
  mem_iff c := by
    refine iff_of_false List.not_mem_nil fun ⟨hc, hsize, hsub⟩ => ?_
    have hcard := Finset.card_le_card hsub
    rw [← (hasc c hc).size_eq, Finset.card_singleton] at hcard
    omega

/-- A join applies what its inputs have left. -/
theorem Outline.Joins.applied {o i j : Outline α} {cs ds restrictions : List (Clause α)}
    (h : Joins all o i j restrictions) (hasc : ∀ c ∈ all, c.required.Ascending)
    (ho : Clause.Applied all cs o.relids.toFinset) (hi : Clause.Applied all ds i.relids.toFinset) :
    Clause.Applied all (cs ++ ds ++ restrictions) j.relids.toFinset where
  nodup := by
    rw [List.nodup_append, List.nodup_append]
    refine ⟨⟨ho.nodup, hi.nodup, ?_⟩, h.nodup, ?_⟩
    · -- A clause inside both inputs would read nothing.
      rintro c hc _ hc' rfl
      obtain ⟨hall, hsize, hs⟩ := (ho.mem_iff c).mp hc
      obtain ⟨-, -, ht⟩ := (hi.mem_iff c).mp hc'
      exact Clause.not_subset_of_disjoint (hasc c hall) hsize h.disjoint hs ht
    · rintro c hc _ hc' rfl
      obtain ⟨-, -, hs, ht⟩ := (h.mem_iff c).mp hc'
      rcases List.mem_append.mp hc with hc | hc
      · exact hs ((ho.mem_iff c).mp hc).2.2
      · exact ht ((hi.mem_iff c).mp hc).2.2
  mem_iff c := by
    rw [List.mem_append, List.mem_append, ho.mem_iff, hi.mem_iff, h.mem_iff, h.relids_eq,
      ← and_or_left, ← and_or_left]
    exact and_congr_right fun hc => (Clause.within_union_iff (hasc c hc) h.disjoint).symm

/-- A logged join is a join of relations that are built. -/
def Event.Holds (all : List (Clause α)) (os : List (Outline α)) : Event α → Prop
  | .joined outer inner join restrictions => ∃ o i j, os[outer]? = some o ∧
      os[inner]? = some i ∧ os[join]? = some j ∧ Outline.Joins all o i j restrictions
  | _ => True

theorem Event.Holds.grows {event : Event α} {os os' : List (Outline α)}
    (h : event.Holds all os) (hg : Outline.Grows os os') : event.Holds all os' := by
  cases event with
  | joined outer inner join restrictions =>
      obtain ⟨o, i, j, ho, hi, hj, hjoins⟩ := h
      exact ⟨o, i, j, hg.getElem? ho, hg.getElem? hi, hg.getElem? hj, hjoins⟩
  | _ => trivial

section Serving

variable [Number α] {p : Planner α}

theorem Request.holds_serve (hp : Settled all p) (r : Request α) :
    (r.serve p).1.Holds all (r.serve p).2.outlines := by
  rw [serve]
  cases h : r.run p with
  | error e q => trivial
  | ok event q =>
      cases r with
      | joinRelation outer inner =>
          obtain ⟨⟨join, restrictions⟩, q', hjoin, h⟩ := PlanM.bind_eq_ok.mp h
          obtain ⟨rfl, rfl⟩ := PlanM.pure_eq_ok.mp h
          obtain ⟨hext, o, i, j, ho, hi, hd, hcs, hj, _, hrelids, _⟩ :=
            PlanM.joinRelation_eq_ok hp.consistent hjoin
          rw [RelSet.overlaps_eq_false_iff] at hd
          -- What is applied depends on the inputs alone, and these have exact join info.
          refine ⟨o.outline, i.outline, j, hext.1.getElem? (outlines_getElem? ho),
            hext.1.getElem? (outlines_getElem? hi), hj, hd, ?_, ?_, fun c => ?_⟩
          · rw [hrelids, RelSet.toFinset_union]
            rfl
          · rw [hcs]
            exact .of_map _ (Relation.nodup_restrictionsOfJoin ..)
          · rw [hcs]
            exact Relation.mem_restrictionsOfJoin hp.covers.ids_nodup
              (hp.exact _ (outline_mem ho)) (hp.exact _ (outline_mem hi)) hd
      | requestOrder order =>
          cases h
          trivial
      | offer id paths =>
          obtain ⟨_, _, _, h⟩ := PlanM.bind_eq_ok.mp h
          obtain ⟨_, _, _, h⟩ := PlanM.bind_eq_ok.mp h
          cases h
          trivial
      | _ =>
          obtain ⟨_, _, _, h⟩ := PlanM.bind_eq_ok.mp h
          cases h
          trivial

/-- Joins made once all clauses have come apply what they should, whatever else
the session does. -/
theorem holds_session {requests : List (Request α)} (hp : Settled all p)
    (hr : ∀ e, .distribute e ∉ requests) :
    ∀ event ∈ (session requests p).1, event.Holds all (session requests p).2.outlines := by
  induction requests generalizing p with
  | nil => exact fun _ he => absurd he List.not_mem_nil
  | cons r rest ih =>
      have hserve := r.extends_serve (fun e he => hr e (he ▸ List.mem_cons_self)) p
      have hrest : ∀ e, .distribute e ∉ rest := fun e he => hr e (List.mem_cons_of_mem r he)
      intro event he
      rcases List.mem_cons.mp he with rfl | he
      · exact (r.holds_serve hp).grows (extends_session hrest _).1
      · exact ih (hp.of_extends hserve) hrest event he

end Serving

/-! ## Trees of joins -/

/-- The shape of a plan: base relations joined two by two. -/
inductive JoinTree where
  | leaf (relid : RtIndex)
  | node (outer inner : JoinTree)

namespace JoinTree

def leaves : JoinTree → List RtIndex
  | leaf relid => [relid]
  | node outer inner => outer.leaves ++ inner.leaves

/-- The joins in a log build a tree from its leaves up, with its inputs in
either order at each join: the number of the relation at its root, and the
clauses applied at its joins. -/
inductive Assembles (log : List (Event α)) (p : Planner α) :
    JoinTree → Nat → List (Clause α) → Prop where
  | leaf {relid : RtIndex} {a : Nat} (h : (p.baseRelation? relid).map (·.id) = some a) :
      Assembles log p (leaf relid) a []
  | node {outer inner : JoinTree} {a b join : Nat} {cs ds restrictions : List (Clause α)}
      (ho : Assembles log p outer a cs) (hi : Assembles log p inner b ds)
      (h : .joined a b join restrictions ∈ log ∨ .joined b a join restrictions ∈ log) :
      Assembles log p (node outer inner) join (cs ++ ds ++ restrictions)

/-- The leaves of a tree are distinct, and the clauses applied inside it are
those over several relations that are all among them. -/
theorem assembles_applied {log : List (Event α)} {p : Planner α} {tree : JoinTree} {root : Nat}
    {cs : List (Clause α)} (hp : Settled all p) (hlog : ∀ event ∈ log, event.Holds all p.outlines)
    (h : tree.Assembles log p root cs) :
    tree.leaves.Nodup ∧ ∃ o, p.outlines[root]? = some o ∧
      o.relids.toFinset = tree.leaves.toFinset ∧ Clause.Applied all cs o.relids.toFinset := by
  induction h with
  | leaf h =>
      obtain ⟨r, hr, rfl⟩ := Option.map_eq_some_iff.mp h
      obtain ⟨hmem, hrelid⟩ := baseRelation?_eq_some hr
      have hrelids := ((hp.consistent.relid?_eq_some_iff hmem).mp hrelid).2
      refine ⟨List.nodup_singleton _, r.outline, hp.consistent.getElem?_id hmem, hrelids ▸ rfl, ?_⟩
      rw [hrelids, RelSet.toFinset_singleton]
      exact Clause.applied_singleton hp.covers.ascending _
  | node ho hi h iho ihi =>
      rename_i outer inner a b join cs ds restrictions
      obtain ⟨hno, o, hoa, hos, hcs⟩ := iho
      obtain ⟨hni, i, hib, hit, hds⟩ := ihi
      -- The inputs may have been given in either order.
      have hjoined : (Event.joined a b join restrictions).Holds all p.outlines := by
        rcases h with h | h
        · exact hlog _ h
        · obtain ⟨i, o, j, hi, ho, hj, hjoins⟩ := hlog _ h
          exact ⟨o, i, j, ho, hi, hj, hjoins.symm⟩
      obtain ⟨o', i', j, ho', hi', hj, hjoins⟩ := hjoined
      obtain rfl := Option.some.inj (ho'.symm.trans hoa)
      obtain rfl := Option.some.inj (hi'.symm.trans hib)
      refine ⟨hno.append hni ?_, j, hj, ?_, hjoins.applied hp.covers.ascending hcs hds⟩
      · rw [← List.disjoint_toFinset_iff_disjoint, ← hos, ← hit]
        exact hjoins.disjoint
      · rw [hjoins.relids_eq, hos, hit, leaves, List.toFinset_append]

/-- A tree of joins applies every clause inside it exactly once, and its root
waits with every clause that reaches out of it exactly once; which joins were
made before, and which split a relation was first built of, does not matter. -/
theorem assembles_perm [Number α] {settings : Settings α} {operators : OperatorCatalog α}
    {catalog : RelationSource α} {statistics : StatisticsProvider α}
    {rangeTable : List RangeTableEntry} {before after : List (Request α)}
    {log log' : List (Event α)} {p q : Planner α} {tree : JoinTree} {root : Nat}
    {cs : List (Clause α)}
    (hbefore : session before (.start settings operators catalog statistics rangeTable) = (log, p))
    (hdistributed : ∀ e err, .refused (.distribute e) err ∉ log)
    (hp : p.joinRelations = [])
    (hafter : session after p = (log', q)) (hjoins : ∀ e, .distribute e ∉ after)
    (h : tree.Assembles log' q root cs) :
    ((clausesOf log).map (·.id)).Nodup ∧ tree.leaves.Nodup ∧
    ∃ r, q.relation root = .ok r ∧ r.relids.toFinset = tree.leaves.toFinset ∧
      cs.Perm ((clausesOf log).filter fun c =>
        2 ≤ c.required.size ∧ c.required.toFinset ⊆ tree.leaves.toFinset) ∧
      (r.joinInfo.flatMap (·.clauses)).Perm ((clausesOf log).filter fun c =>
        c.Crosses tree.leaves.toFinset) := by
  obtain ⟨rfl, rfl⟩ := Prod.ext_iff.mp hbefore.symm
  obtain ⟨rfl, rfl⟩ := Prod.ext_iff.mp hafter.symm
  have hclauses := hasClauses_session
    (.start settings operators catalog statistics rangeTable) hdistributed
  rw [List.nil_append] at hclauses
  have hsettled := hclauses.settled hp
  have hlog := holds_session hsettled hjoins
  have hq := hsettled.of_extends (extends_session hjoins _)
  have hnodup : (clausesOf _).Nodup := .of_map _ hq.covers.ids_nodup
  obtain ⟨hleaves, o, ho, hrelids, happlied⟩ := assembles_applied hq hlog h
  obtain ⟨r, hr, rfl⟩ := exists_relation ho
  have hexact := hq.exact _ (outline_mem hr)
  refine ⟨hq.covers.ids_nodup, hleaves, r, hr, hrelids, ?_, ?_⟩
  · refine (List.perm_ext_iff_of_nodup happlied.nodup (hnodup.filter _)).mpr fun c => ?_
    rw [happlied.mem_iff, List.mem_filter, decide_eq_true_eq, hrelids]
  · refine (List.perm_ext_iff_of_nodup hexact.nodup_flatMap (hnodup.filter _)).mpr fun c => ?_
    rw [List.mem_flatMap, List.mem_filter, decide_eq_true_eq, ← hrelids]
    exact hexact.keeps_iff c

/-- Conditions over two and over three relations. -/
def threeRelationClauses : List (Request Float) :=
  [.distribute (conditionOn [1, 2]), .distribute (conditionOn [1, 2, 3])]

/-- The three relations joined twice: the second time from the other end, and
with the number of the join that the first one has made. -/
def threeRelationJoins : List (Request Float) :=
  [.joinRelation 0 1, .joinRelation 3 2, .joinRelation 2 1, .joinRelation 5 0]

/-- A join in a log, with the identities of the clauses it applies. -/
def isJoin (outer inner join : Nat) (ids : List Nat) : Event α → Bool
  | .joined o i j cs => o == outer && i == inner && j == join && cs.map (·.id) == ids
  | _ => false

theorem joined_mem_of_any {log : List (Event α)} {outer inner join : Nat} {ids : List Nat}
    (h : log.any (isJoin outer inner join ids) = true) :
    ∃ cs, cs.map (·.id) = ids ∧ .joined outer inner join cs ∈ log := by
  obtain ⟨event, hmem, hjoin⟩ := List.any_eq_true.mp h
  cases event with
  | joined o i j cs =>
      simp only [isJoin, Bool.and_eq_true, beq_iff_eq] at hjoin
      obtain ⟨⟨⟨rfl, rfl⟩, rfl⟩, hids⟩ := hjoin
      exact ⟨cs, hids, hmem⟩
  | _ => exact nomatch hjoin

/-- Both conditions are applied at the last join, and nothing waits at it. -/
theorem assembles_perm_threeRelations :
    ∃ log p log' q cs r, session threeRelationClauses threeRelations = (log, p) ∧
      p.joinRelations = [] ∧ session threeRelationJoins p = (log', q) ∧
      Assembles log' q (node (node (leaf 2) (leaf 3)) (leaf 1)) 4 cs ∧
      cs.map (·.id) = [1, 0] ∧ q.relation 4 = .ok r ∧
      cs.Perm ((clausesOf log).filter fun c =>
        2 ≤ c.required.size ∧ c.required.toFinset ⊆ [2, 3, 1].toFinset) := by
  obtain ⟨⟨log, p⟩, hbefore⟩ : ∃ x, session threeRelationClauses threeRelations = x := ⟨_, rfl⟩
  obtain ⟨⟨log', q⟩, hafter⟩ : ∃ x, session threeRelationJoins p = x := ⟨_, rfl⟩
  have hlog : log = (session threeRelationClauses threeRelations).1 := by rw [hbefore]
  have hp : p = (session threeRelationClauses threeRelations).2 := by rw [hbefore]
  have hlog' : log' = (session threeRelationJoins p).1 := by rw [hafter]
  have hq : q = (session threeRelationJoins p).2 := by rw [hafter]
  have hdistributed : ∀ e err, .refused (.distribute e) err ∉ log := by
    have hall : log.all (fun event => event.clause?.isSome) = true := by
      rw [hlog]
      decide +kernel
    exact fun e err h => nomatch List.all_eq_true.mp hall _ h
  have hnone : p.joinRelations = [] := by
    rw [hp, ← List.isEmpty_iff]
    decide +kernel
  have hjoins : ∀ e, .distribute e ∉ threeRelationJoins := by
    intro e
    simp [threeRelationJoins]
  obtain ⟨cs, hcs, hinner⟩ : ∃ cs, cs.map (·.id) = [] ∧ .joined 2 1 5 cs ∈ log' :=
    joined_mem_of_any (by rw [hlog', hp]; decide +kernel)
  obtain ⟨ds, hds, houter⟩ : ∃ ds, ds.map (·.id) = [1, 0] ∧ .joined 5 0 4 ds ∈ log' :=
    joined_mem_of_any (by rw [hlog', hp]; decide +kernel)
  have htree : Assembles log' q (node (node (leaf 2) (leaf 3)) (leaf 1)) 4
      ([] ++ [] ++ cs ++ [] ++ ds) :=
    .node (.node (.leaf (by rw [hq, hp]; decide +kernel)) (.leaf (by rw [hq, hp]; decide +kernel))
      (.inr hinner)) (.leaf (by rw [hq, hp]; decide +kernel)) (.inl houter)
  obtain ⟨-, -, r, hr, -, hperm, -⟩ :=
    assembles_perm hbefore hdistributed hnone hafter hjoins htree
  refine ⟨log, p, log', q, _, r, hbefore, hnone, hafter, htree, ?_, hr, hperm⟩
  rw [List.map_eq_nil_iff.mp hcs]
  exact hds

end JoinTree

end QueryPlanner
