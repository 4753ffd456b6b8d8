/-
  QueryPlanner.Proofs.RelSet

  Sets of range table positions as finite sets.

  `toFinset` is the view of a `RelSet`: every operation does to it what its
  name says, whatever order the members are listed in.  A set that is built
  by the operations is `Ascending`, and an ascending set is determined by its
  view.
-/

import Mathlib.Data.Finset.Card
import Mathlib.Data.List.Sort
import QueryPlanner.RelSet

namespace QueryPlanner.RelSet

/-- The members, without their order. -/
def toFinset (s : RelSet) : Finset RtIndex := s.members.toFinset

/-- The members are listed in strictly ascending order. -/
def Ascending (s : RelSet) : Prop := s.members.Pairwise (· < ·)

variable {r x : RtIndex} {s t : RelSet}

/-! ## The view -/

theorem mem_toFinset : r ∈ s.toFinset ↔ r ∈ s.members := List.mem_toFinset

theorem contains_iff : s.contains r = true ↔ r ∈ s.toFinset := by
  rw [contains, List.contains_iff_mem, mem_toFinset]

theorem mem_insertAscending {l : List Nat} : x ∈ insertAscending r l ↔ x = r ∨ x ∈ l := by
  induction l with
  | nil => simp [insertAscending]
  | cons s rest ih =>
      rw [insertAscending]
      split
      · exact List.mem_cons
      · split
        · rename_i h
          simp [h]
        · rw [List.mem_cons, ih, List.mem_cons]
          exact or_left_comm

@[simp] theorem toFinset_insert (s : RelSet) (r : RtIndex) :
    (s.insert r).toFinset = Insert.insert r s.toFinset := by
  ext x
  rw [mem_toFinset, insert, mem_insertAscending, Finset.mem_insert, mem_toFinset]

@[simp] theorem toFinset_singleton (r : RtIndex) : (singleton r).toFinset = {r} := rfl

theorem toFinset_foldl_insert (l : List RtIndex) (s : RelSet) :
    (l.foldl insert s).toFinset = s.toFinset ∪ l.toFinset := by
  induction l generalizing s with
  | nil => simp
  | cons r rest ih =>
      rw [List.foldl_cons, ih, toFinset_insert, List.toFinset_cons, Finset.insert_union,
        Finset.union_insert]

@[simp] theorem toFinset_ofList (l : List RtIndex) : (ofList l).toFinset = l.toFinset := by
  rw [ofList, toFinset_foldl_insert]
  exact Finset.empty_union _

@[simp] theorem toFinset_union (s t : RelSet) :
    (s.union t).toFinset = s.toFinset ∪ t.toFinset :=
  toFinset_foldl_insert t.members s

theorem subset_toFinset_union_left : s.toFinset ⊆ (s.union t).toFinset := by
  rw [toFinset_union]
  exact Finset.subset_union_left

theorem subset_toFinset_union_right : t.toFinset ⊆ (s.union t).toFinset := by
  rw [toFinset_union]
  exact Finset.subset_union_right

@[simp] theorem toFinset_difference (s t : RelSet) :
    (s.difference t).toFinset = s.toFinset \ t.toFinset := by
  ext x
  rw [mem_toFinset, difference, List.mem_filter, Finset.mem_sdiff, mem_toFinset, ← contains_iff]
  simp

theorem isSubset_iff : s.isSubset t = true ↔ s.toFinset ⊆ t.toFinset := by
  rw [isSubset, List.all_eq_true]
  simp only [contains_iff, ← mem_toFinset (s := s)]
  exact Iff.rfl

theorem overlaps_iff : s.overlaps t = true ↔ ∃ r ∈ s.toFinset, r ∈ t.toFinset := by
  rw [overlaps, List.any_eq_true]
  simp only [contains_iff, mem_toFinset]

theorem overlaps_eq_false_iff : s.overlaps t = false ↔ Disjoint s.toFinset t.toFinset := by
  rw [← Bool.not_eq_true, overlaps_iff, Finset.disjoint_left]
  simp

theorem isEmpty_iff : s.isEmpty = true ↔ s.toFinset = ∅ := by
  rw [isEmpty, List.isEmpty_iff, toFinset, List.toFinset_eq_empty_iff]

theorem isEmpty_difference_iff : (s.difference t).isEmpty = true ↔ s.toFinset ⊆ t.toFinset := by
  rw [isEmpty_iff, toFinset_difference, Finset.sdiff_eq_empty_iff_subset]

theorem size_of_membership (s : RelSet) :
    match s.membership with
    | .empty => s.size = 0
    | .single _ => s.size = 1
    | .multiple => 2 ≤ s.size := by
  rw [membership, size]
  match s.members with
  | [] => rfl
  | [_] => rfl
  | _ :: _ :: _ => exact Nat.le_add_left ..

theorem members_of_membership (s : RelSet) :
    match s.membership with
    | .empty => s.members = []
    | .single r => s.members = [r]
    | .multiple => True := by
  rw [membership]
  match s.members with
  | [] => rfl
  | [_] => rfl
  | _ :: _ :: _ => trivial

theorem membership_eq_empty_iff : s.membership = .empty ↔ s.toFinset = ∅ := by
  rw [← isEmpty_iff, membership, isEmpty]
  match s.members with
  | [] => exact iff_of_true rfl rfl
  | [_] => exact iff_of_false nofun nofun
  | _ :: _ :: _ => exact iff_of_false nofun nofun

theorem membership_eq_single_iff : s.membership = .single r ↔ s.members = [r] := by
  rw [membership]
  match s.members with
  | [] => exact iff_of_false nofun nofun
  | [a] => rw [Membership.single.injEq, List.cons.injEq, and_iff_left rfl]
  | _ :: _ :: _ => exact iff_of_false nofun nofun

theorem membership_eq_multiple_iff : s.membership = .multiple ↔ 1 < s.size := by
  rw [membership, size]
  match s.members with
  | [] => exact iff_of_false nofun (Nat.not_lt_zero 1)
  | [_] => exact iff_of_false nofun (Nat.lt_irrefl 1)
  | _ :: _ :: _ => exact iff_of_true rfl (Nat.le_add_left ..)

theorem mem_of_membership (h : s.membership = .single r) : r ∈ s.toFinset := by
  rw [mem_toFinset]
  rw [membership] at h
  split at h
  · exact nomatch h
  · rename_i hs
    cases h
    rw [hs]
    exact List.mem_cons_self
  · exact nomatch h

/-- A set that has `t` already has all of `s` once it has what `t` lacks. -/
theorem isSubset_difference_iff {u : RelSet} (h : t.toFinset ⊆ u.toFinset) :
    (s.difference t).isSubset u = true ↔ s.toFinset ⊆ u.toFinset := by
  rw [isSubset_iff, toFinset_difference]
  constructor
  · intro hs x hx
    by_cases ht : x ∈ t.toFinset
    · exact h ht
    · exact hs (Finset.mem_sdiff.mpr ⟨hx, ht⟩)
  · exact Finset.sdiff_subset.trans

/-- What a larger set takes away, a smaller one need not take before. -/
theorem difference_difference {u : RelSet} (h : t.toFinset ⊆ u.toFinset) :
    (s.difference t).difference u = s.difference u := by
  refine congrArg mk ?_
  show (s.members.filter _).filter _ = s.members.filter _
  rw [List.filter_filter]
  refine List.filter_congr fun r _ => ?_
  cases hu : u.contains r with
  | true => rfl
  | false =>
      have ht : t.contains r = false := by
        rw [← Bool.not_eq_true, contains_iff] at hu ⊢
        exact fun hr => hu (h hr)
      rw [ht]
      rfl

/-! ## Ascending sets -/

theorem ascending_empty : empty.Ascending := .nil

theorem pairwise_insertAscending {l : List Nat} (h : l.Pairwise (· < ·)) :
    (insertAscending r l).Pairwise (· < ·) := by
  induction l with
  | nil => exact List.pairwise_singleton ..
  | cons a rest ih =>
      obtain ⟨ha, hrest⟩ := List.pairwise_cons.mp h
      rw [insertAscending]
      split
      · rename_i hra
        refine List.pairwise_cons.mpr ⟨fun b hb => ?_, h⟩
        rcases List.mem_cons.mp hb with rfl | hb
        · exact hra
        · exact hra.trans (ha b hb)
      · split
        · exact h
        · refine List.pairwise_cons.mpr ⟨fun b hb => ?_, ih hrest⟩
          rcases mem_insertAscending.mp hb with rfl | hb
          · omega
          · exact ha b hb

theorem Ascending.insert (h : s.Ascending) (r : RtIndex) : (s.insert r).Ascending :=
  pairwise_insertAscending h

theorem Ascending.foldl_insert (h : s.Ascending) (l : List RtIndex) :
    (l.foldl RelSet.insert s).Ascending := by
  induction l generalizing s with
  | nil => exact h
  | cons r rest ih => exact ih (h.insert r)

theorem ascending_singleton (r : RtIndex) : (singleton r).Ascending := ascending_empty.insert r

theorem ascending_ofList (l : List RtIndex) : (ofList l).Ascending := ascending_empty.foldl_insert l

theorem Ascending.union (h : s.Ascending) (t : RelSet) : (s.union t).Ascending :=
  h.foldl_insert t.members

theorem Ascending.difference (h : s.Ascending) (t : RelSet) : (s.difference t).Ascending :=
  h.filter _

theorem Ascending.nodup (h : s.Ascending) : s.members.Nodup := h.imp Nat.ne_of_lt

theorem Ascending.size_eq (h : s.Ascending) : s.size = s.toFinset.card :=
  (List.toFinset_card_of_nodup h.nodup).symm

/-- Ascending sets with the same members are the same. -/
theorem Ascending.ext (hs : s.Ascending) (ht : t.Ascending) (h : s.toFinset = t.toFinset) :
    s = t := by
  -- Both list the same members in the same order.
  have hperm : s.members.Perm t.members := by
    refine (List.perm_ext_iff_of_nodup hs.nodup ht.nodup).mpr fun r => ?_
    rw [← mem_toFinset, h, mem_toFinset]
  have hmembers := hperm.eq_of_pairwise (fun _ _ _ _ hab hba => absurd hab hba.asymm) hs ht
  cases s
  cases t
  exact congrArg mk hmembers

theorem Ascending.union_comm (hs : s.Ascending) (ht : t.Ascending) : s.union t = t.union s := by
  refine (hs.union t).ext (ht.union s) ?_
  rw [toFinset_union, toFinset_union]
  exact Finset.union_comm ..

end QueryPlanner.RelSet
