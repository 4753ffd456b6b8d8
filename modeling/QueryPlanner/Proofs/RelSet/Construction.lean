/-
  QueryPlanner.Proofs.RelSet.Construction

  Every set that can be built, as a finite set.

  A set is built from nothing, from one position or from a list, by putting in
  positions, by uniting and by taking away.  However it was built, its members
  are listed in ascending order, so it is one value for each finite set and
  every question to it is answered by that finite set.  As the order is kept
  all along, it is also the set that a vector searched by halving comes to.
-/

import QueryPlanner.Proofs.RelSet.Places

namespace QueryPlanner.RelSet

variable {s t : RelSet} {m n : Finset RtIndex}

/-! ## Readings -/

/-- The set is the one value for a finite set, and its answers are those of
the finite set. -/
structure Represents (s : RelSet) (m : Finset RtIndex) : Prop where
  ascending : s.members.Pairwise (· < ·)
  mem : ∀ r, r ∈ s.members ↔ r ∈ m
  contains : ∀ r, s.contains r = true ↔ r ∈ m
  size : s.size = m.card
  isEmpty : s.isEmpty = true ↔ m = ∅
  empty : s.membership = .empty ↔ m = ∅
  single : ∀ r, s.membership = .single r ↔ m = {r}
  multiple : s.membership = .multiple ↔ 1 < m.card

theorem Ascending.represents (h : s.Ascending) : s.Represents s.toFinset where
  ascending := h
  mem _ := mem_toFinset.symm
  contains _ := contains_iff
  size := h.size_eq
  isEmpty := isEmpty_iff
  empty := membership_eq_empty_iff
  single r := by
    rw [membership_eq_single_iff, ← toFinset_singleton]
    constructor
    · exact fun hmembers => congrArg List.toFinset hmembers
    · exact fun hset => congrArg members (h.ext (ascending_singleton r) hset)
  multiple := by rw [membership_eq_multiple_iff, h.size_eq]

/-- Two sets lie to each other as two finite sets, and come to what these come
to. -/
structure Compares (s t : RelSet) (m n : Finset RtIndex) : Prop where
  isSubset : s.isSubset t = true ↔ m ⊆ n
  overlaps : s.overlaps t = true ↔ (m ∩ n).Nonempty
  eq : s = t ↔ m = n
  union : (s.union t).Represents (m ∪ n)
  difference : (s.difference t).Represents (m \ n)

theorem Ascending.compares (hs : s.Ascending) (ht : t.Ascending) :
    s.Compares t s.toFinset t.toFinset where
  isSubset := isSubset_iff
  overlaps := by
    rw [overlaps_iff]
    simp only [Finset.Nonempty, Finset.mem_inter]
  eq := ⟨congrArg toFinset, hs.ext ht⟩
  union := toFinset_union s t ▸ (hs.union t).represents
  difference := toFinset_difference s t ▸ (hs.difference t).represents

/-- Along the list or by places, the operations do the same to two sets. -/
structure SameByPlace (s t : RelSet) : Prop where
  contains : ∀ r, ByPlace.contains s r = s.contains r
  insert : ∀ r, ByPlace.insert s r = s.insert r
  union : ByPlace.union s t = s.union t
  difference : ByPlace.difference s t = s.difference t
  isSubset : ByPlace.isSubset s t = s.isSubset t
  overlaps : ByPlace.overlaps s t = s.overlaps t

theorem Ascending.sameByPlace (hs : s.Ascending) (ht : t.Ascending) : s.SameByPlace t where
  contains := hs.byPlace_contains
  insert := hs.byPlace_insert
  union := hs.byPlace_union t
  difference := hs.byPlace_difference ht
  isSubset := ht.byPlace_isSubset s
  overlaps := ht.byPlace_overlaps s

/-! ## Constructions -/

/-- A way to build a set. -/
inductive Construction where
  | empty
  | singleton (r : RtIndex)
  | insert (c : Construction) (r : RtIndex)
  | union (c d : Construction)
  | difference (c d : Construction)
  | ofList (rs : List RtIndex)

namespace Construction

/-- The set that is built. -/
def build : Construction → RelSet
  | .empty => RelSet.empty
  | .singleton r => RelSet.singleton r
  | .insert c r => c.build.insert r
  | .union c d => c.build.union d.build
  | .difference c d => c.build.difference d.build
  | .ofList rs => RelSet.ofList rs

/-- The set that is built by places. -/
def buildByPlace : Construction → RelSet
  | .empty => RelSet.empty
  | .singleton r => ByPlace.singleton r
  | .insert c r => ByPlace.insert c.buildByPlace r
  | .union c d => ByPlace.union c.buildByPlace d.buildByPlace
  | .difference c d => ByPlace.difference c.buildByPlace d.buildByPlace
  | .ofList rs => ByPlace.ofList rs

/-- The finite set that is meant. -/
def meaning : Construction → Finset RtIndex
  | .empty => ∅
  | .singleton r => {r}
  | .insert c r => Insert.insert r c.meaning
  | .union c d => c.meaning ∪ d.meaning
  | .difference c d => c.meaning \ d.meaning
  | .ofList rs => rs.toFinset

theorem ascending_build (c : Construction) : c.build.Ascending := by
  induction c with
  | empty => exact ascending_empty
  | singleton r => exact ascending_singleton r
  | insert c r ih => exact ih.insert r
  | union c d ihc ihd => exact ihc.union d.build
  | difference c d ihc ihd => exact ihc.difference d.build
  | ofList rs => exact ascending_ofList rs

theorem toFinset_build (c : Construction) : c.build.toFinset = c.meaning := by
  induction c with
  | empty => rfl
  | singleton r => exact toFinset_singleton r
  | insert c r ih => rw [build, toFinset_insert, ih, meaning]
  | union c d ihc ihd => rw [build, toFinset_union, ihc, ihd, meaning]
  | difference c d ihc ihd => rw [build, toFinset_difference, ihc, ihd, meaning]
  | ofList rs => exact toFinset_ofList rs

/-- What is built by places is the same, since every operand is ascending. -/
theorem buildByPlace_eq (c : Construction) : c.buildByPlace = c.build := by
  induction c with
  | empty => rfl
  | singleton r => exact byPlace_singleton r
  | insert c r ih => rw [buildByPlace, ih, c.ascending_build.byPlace_insert, build]
  | union c d ihc ihd => rw [buildByPlace, ihc, ihd, c.ascending_build.byPlace_union, build]
  | difference c d ihc ihd =>
      rw [buildByPlace, ihc, ihd, c.ascending_build.byPlace_difference d.ascending_build, build]
  | ofList rs => exact byPlace_ofList rs

/-- A set is the finite set that its construction means, alone and beside any
other; whether places are found by halving or along the list makes no
difference. -/
theorem build_represents (c d : Construction) :
    c.build.Represents c.meaning ∧ c.build.Compares d.build c.meaning d.meaning ∧
      c.buildByPlace = c.build ∧ c.build.SameByPlace d.build := by
  have hc := c.ascending_build
  have hd := d.ascending_build
  rw [← c.toFinset_build, ← d.toFinset_build]
  exact ⟨hc.represents, hc.compares hd, c.buildByPlace_eq, hc.sameByPlace hd⟩

end Construction

end QueryPlanner.RelSet
