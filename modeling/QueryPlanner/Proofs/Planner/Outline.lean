/-
  QueryPlanner.Proofs.Planner.Outline

  What a session builds, without estimates and paths.

  The outline of a relation is the part of it that joins are made of.  The
  list of outlines only grows, by a base relation that was not built yet or by
  the join of two built relations that had none: `Grows` says so once, and
  what a session keeps consistent is proved from it.
-/

import Mathlib.Data.List.Pairwise
import QueryPlanner.Proofs.Planner.JoinInfo

namespace QueryPlanner

variable {α : Type}

/-- The number and the members of a relation, and the clauses that wait at
it. -/
structure Outline (α : Type) where
  id : Nat
  kind : RelationKind
  relids : RelSet
  joinInfo : List (JoinInfo α)

def Relation.outline (r : Relation α) : Outline α := ⟨r.id, r.kind, r.relids, r.joinInfo⟩

/-- The outlines of the relations, in the order they were built. -/
def Planner.outlines (p : Planner α) : List (Outline α) := p.relations.map (·.outline)

namespace Outline

variable {o : Outline α} {os os' : List (Outline α)} {r : RtIndex}

/-- A base relation before clauses are distributed. -/
def ofBase (id : Nat) (relid : RtIndex) : Outline α := ⟨id, .base, .singleton relid, []⟩

/-- The join of two relations. -/
def ofJoin (id : Nat) (outer inner : Relation α) : Outline α :=
  let relids := outer.relids.union inner.relids
  ⟨id, .join, relids, Relation.carryOn relids (Relation.carryOn relids [] outer) inner⟩

/-- The range table position of a base relation. -/
def relid? (o : Outline α) : Option RtIndex :=
  match o.kind with
  | .base => o.relids.members.head?
  | .join => none

/-- The base relation of a range table position is built. -/
def Built (os : List (Outline α)) (r : RtIndex) : Prop := ∃ o ∈ os, o.relid? = some r

/-! ## Growth -/

/-- The relations that can be built next. -/
inductive Addition (os : List (Outline α)) : Outline α → Prop where
  | base (relid : RtIndex) (hnew : ¬ Built os relid) : Addition os (ofBase os.length relid)
  | join (outer inner : Relation α) (ho : outer.outline ∈ os) (hi : inner.outline ∈ os)
      (hd : outer.relids.overlaps inner.relids = false)
      (hnew : ∀ o ∈ os, o.kind = .join → o.relids ≠ outer.relids.union inner.relids) :
      Addition os (ofJoin os.length outer inner)

/-- Some relations more. -/
inductive Grows (os : List (Outline α)) : List (Outline α) → Prop where
  | refl : Grows os os
  | add {os' : List (Outline α)} {o : Outline α} (h : Grows os os') (ho : Addition os' o) :
      Grows os (os' ++ [o])

namespace Grows

theorem trans {os'' : List (Outline α)} (h : Grows os os') (h' : Grows os' os'') :
    Grows os os'' := by
  induction h' with
  | refl => exact h
  | add _ ho ih => exact ih.add ho

theorem isPrefix (h : Grows os os') : os <+: os' := by
  induction h with
  | refl => exact List.prefix_refl os
  | add _ _ ih => exact ih.trans (List.prefix_append ..)

theorem getElem? {i : Nat} (h : Grows os os') (hi : os[i]? = some o) : os'[i]? = some o := by
  obtain ⟨rest, rfl⟩ := h.isPrefix
  obtain ⟨hlt, _⟩ := List.getElem?_eq_some_iff.mp hi
  rw [List.getElem?_append_left hlt, hi]

theorem mem (h : Grows os os') (ho : o ∈ os) : o ∈ os' := h.isPrefix.subset ho

theorem built (h : Grows os os') (hr : Built os r) : Built os' r := by
  obtain ⟨o, ho, hr⟩ := hr
  exact ⟨o, h.mem ho, hr⟩

end Grows

/-! ## Consistency -/

/-- Relations are numbered by their place; base relations have one member and
joins are made of built base relations; no two relations of a kind have the
same members. -/
structure Consistent (os : List (Outline α)) : Prop where
  id_eq : ∀ (i : Nat) (o : Outline α), os[i]? = some o → o.id = i
  relids_of_base : ∀ o ∈ os, o.kind = .base → ∃ r, o.relids = .singleton r
  ascending : ∀ o ∈ os, o.relids.Ascending
  nonempty : ∀ o ∈ os, o.relids.toFinset.Nonempty
  built : ∀ o ∈ os, ∀ r ∈ o.relids.toFinset, Built os r
  distinct : os.Pairwise fun o o' => o.kind = o'.kind → o.relids ≠ o'.relids

theorem relid?_ofBase (id : Nat) (relid : RtIndex) :
    (ofBase id relid : Outline α).relid? = some relid := rfl

/-- A change of the join info does not show in which relations are built. -/
theorem built_map {f : Outline α → Outline α} (hf : ∀ o, (f o).relid? = o.relid?) :
    Built (os.map f) r ↔ Built os r := by
  simp only [Built, List.mem_map, exists_exists_and_eq_and, hf]

theorem consistent_nil : Consistent ([] : List (Outline α)) where
  id_eq := nofun
  relids_of_base := nofun
  ascending := nofun
  nonempty := nofun
  built := nofun
  distinct := .nil

namespace Consistent

/-- A base relation is known by its position. -/
theorem relid?_eq_some_iff (h : Consistent os) (ho : o ∈ os) :
    o.relid? = some r ↔ o.kind = .base ∧ o.relids = .singleton r := by
  rw [relid?]
  cases hk : o.kind with
  | join => simp
  | base =>
      obtain ⟨s, hs⟩ := h.relids_of_base o ho hk
      rw [hs]
      simp [RelSet.singleton, RelSet.insert, RelSet.empty, insertAscending]

/-- Relations of a kind are told apart by their members. -/
theorem eq_of_relids {o' : Outline α} (h : Consistent os) (ho : o ∈ os) (ho' : o' ∈ os)
    (hk : o.kind = o'.kind) (hr : o.relids = o'.relids) : o = o' := by
  by_contra hne
  have hsymm : Std.Symm fun o o' : Outline α => o.kind = o'.kind → o.relids ≠ o'.relids :=
    ⟨fun _ _ hd hk hr => hd hk.symm hr.symm⟩
  exact h.distinct.forall ho ho' hne hk hr

theorem getElem?_id (h : Consistent os) (ho : o ∈ os) : os[o.id]? = some o := by
  obtain ⟨i, hi⟩ := List.mem_iff_getElem?.mp ho
  rwa [h.id_eq i o hi]

/-- A change of the relation with a number, as one of all relations. -/
theorem modify_eq_map (h : Consistent os) (f : Outline α → Outline α) (id : Nat) :
    os.modify id f = os.map fun o => if o.id = id then f o else o := by
  refine List.ext_getElem? fun i => ?_
  rw [List.getElem?_modify, List.getElem?_map]
  cases hi : os[i]? with
  | none => rfl
  | some o =>
      show some (if id = i then f o else o) = some (if o.id = id then f o else o)
      rw [h.id_eq i o hi]
      by_cases hid : id = i
      · rw [if_pos hid, if_pos hid.symm]
      · rw [if_neg hid, if_neg (Ne.symm hid)]

/-- What is built of consistent relations is consistent with them. -/
theorem add (h : Consistent os) (ha : Addition os o) : Consistent (os ++ [o]) := by
  have hbuilt {r : RtIndex} (hr : Built os r) : Built (os ++ [o]) r := by
    obtain ⟨o', ho', hr⟩ := hr
    exact ⟨o', List.mem_append_left _ ho', hr⟩
  have hid : o.id = os.length := by
    cases ha <;> rfl
  -- What the older relations have it is enough to show for the new one.
  have hforall {P : Outline α → Prop} (hold : ∀ o ∈ os, P o) (hnew : P o) :
      ∀ o' ∈ os ++ [o], P o' :=
    List.forall_mem_append.mpr ⟨hold, List.forall_mem_singleton.mpr hnew⟩
  refine ⟨?_, hforall h.relids_of_base ?_, hforall h.ascending ?_, hforall h.nonempty ?_,
    hforall (fun o ho r hr => hbuilt (h.built o ho r hr)) ?_, ?_⟩
  · -- Numbers are places, and the new relation has the last one.
    intro i o' ho'
    rcases Nat.lt_trichotomy i os.length with hi | rfl | hi
    · rw [List.getElem?_append_left hi] at ho'
      exact h.id_eq i o' ho'
    · rw [List.getElem?_concat_length] at ho'
      exact Option.some.inj ho' ▸ hid
    · rw [List.getElem?_eq_none] at ho'
      · exact nomatch ho'
      · rw [List.length_append, List.length_singleton]
        exact hi
  · cases ha with
    | base relid => exact fun _ => ⟨relid, rfl⟩
    | join => exact nofun
  · cases ha with
    | base relid => exact RelSet.ascending_singleton relid
    | join outer inner ho => exact (h.ascending _ ho).union inner.relids
  · cases ha with
    | base relid => exact Finset.singleton_nonempty relid
    | join outer inner ho => exact (h.nonempty _ ho).mono RelSet.subset_toFinset_union_left
  · cases ha with
    | base relid =>
        intro r hr
        rw [ofBase, RelSet.toFinset_singleton, Finset.mem_singleton] at hr
        exact ⟨_, List.mem_append_right _ (List.mem_singleton_self _), hr ▸ relid?_ofBase ..⟩
    | join outer inner ho hi =>
        intro r hr
        rw [ofJoin, RelSet.toFinset_union, Finset.mem_union] at hr
        exact hbuilt (hr.elim (h.built _ ho r) (h.built _ hi r))
  · -- The new relation is none that was there before.
    rw [List.pairwise_append]
    refine ⟨h.distinct, List.pairwise_singleton .., fun o' ho' n hn => ?_⟩
    rw [List.mem_singleton.mp hn]
    cases ha with
    | base relid hnew =>
        exact fun hk hr => hnew ⟨o', ho', (h.relid?_eq_some_iff ho').mpr ⟨hk, hr⟩⟩
    | join outer inner ho hi hd hnew => exact hnew o' ho'

theorem grows (h : Consistent os) (hg : Grows os os') : Consistent os' := by
  induction hg with
  | refl => exact h
  | add _ ho ih => exact ih.add ho

/-- Only the number, the kind and the members matter. -/
theorem map (h : Consistent os) {f : Outline α → Outline α} (hid : ∀ o, (f o).id = o.id)
    (hkind : ∀ o, (f o).kind = o.kind) (hrelids : ∀ o, (f o).relids = o.relids) :
    Consistent (os.map f) := by
  have hrelid (o : Outline α) : (f o).relid? = o.relid? := by
    rw [relid?, relid?, hkind, hrelids]
  refine ⟨fun i o ho => ?_, List.forall_mem_map.mpr fun o ho hk => ?_,
    List.forall_mem_map.mpr fun o ho => ?_, List.forall_mem_map.mpr fun o ho => ?_,
    List.forall_mem_map.mpr fun o ho r hr => ?_, ?_⟩
  · rw [List.getElem?_map, Option.map_eq_some_iff] at ho
    obtain ⟨o, ho, rfl⟩ := ho
    rw [hid, h.id_eq i o ho]
  · rw [hkind] at hk
    rw [hrelids]
    exact h.relids_of_base o ho hk
  · rw [hrelids]
    exact h.ascending o ho
  · rw [hrelids]
    exact h.nonempty o ho
  · rw [hrelids] at hr
    obtain ⟨b, hb, hbr⟩ := h.built o ho r hr
    exact ⟨f b, List.mem_map_of_mem hb, (hrelid b).trans hbr⟩
  · rw [List.pairwise_map]
    simp only [hkind, hrelids]
    exact h.distinct

section Modify

variable {f : Outline α → Outline α}

theorem modify (h : Consistent os) (hid : ∀ o, (f o).id = o.id) (hkind : ∀ o, (f o).kind = o.kind)
    (hrelids : ∀ o, (f o).relids = o.relids) (id : Nat) : Consistent (os.modify id f) := by
  rw [h.modify_eq_map]
  refine h.map (fun o => ?_) (fun o => ?_) (fun o => ?_)
  · rw [apply_ite Outline.id, hid, ite_self]
  · rw [apply_ite Outline.kind, hkind, ite_self]
  · rw [apply_ite Outline.relids, hrelids, ite_self]

theorem built_modify (h : Consistent os) (hf : ∀ o, (f o).relid? = o.relid?) (id : Nat) :
    Built (os.modify id f) r ↔ Built os r := by
  rw [h.modify_eq_map]
  refine built_map fun o => ?_
  rw [apply_ite Outline.relid?, hf, ite_self]

/-- A property of all relations but the changed one, and of that one. -/
theorem forall_mem_modify {P : Outline α → Prop} (h : Consistent os) (hid : os[o.id]? = some o)
    (hnew : P (f o)) (hold : ∀ o' ∈ os, o' ≠ o → P o') : ∀ o' ∈ os.modify o.id f, P o' := by
  rw [h.modify_eq_map]
  refine List.forall_mem_map.mpr fun o' ho' => ?_
  by_cases he : o' = o
  · rw [he, if_pos rfl]
    exact hnew
  · have hne : o'.id ≠ o.id := fun heq =>
      he (Option.some.inj ((heq ▸ h.getElem?_id ho').symm.trans hid))
    rw [if_neg hne]
    exact hold o' ho' he

end Modify

end Consistent

end Outline

end QueryPlanner
