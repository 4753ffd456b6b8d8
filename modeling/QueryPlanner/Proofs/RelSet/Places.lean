/-
  QueryPlanner.Proofs.RelSet.Places

  Sets of range table positions as vectors that are searched by halving.

  A search by halving looks at a few places and takes the rest from the order,
  so of a list out of order it may say anything.  In an ascending list it comes
  to the place of the value, or to the gap where the value keeps the list
  ascending.  Operations that find their places this way do on ascending sets
  what those do that go along the list, so a set may be read as either.
-/

import Mathlib.Data.List.Destutter
import QueryPlanner.Proofs.RelSet

namespace QueryPlanner

/-! ## Search by halving -/

/-- The place where a value stands, or the gap where it would be put. -/
inductive Place where
  | found (i : Nat)
  | gap (i : Nat)
deriving DecidableEq

/-- The place of a value from `lo` up to `hi`, by halving. -/
def locate (l : List Nat) (x lo hi : Nat) (hhi : hi ≤ l.length) : Place :=
  if h : lo < hi then
    let mid := lo + (hi - lo) / 2
    have hmid : mid < hi := by omega
    if l[mid] = x then .found mid
    else if l[mid] < x then locate l x (mid + 1) hi hhi
    else locate l x lo mid (by omega)
  else .gap lo
termination_by hi - lo

variable {l : List Nat} {x y lo hi : Nat}

/-- The place is right for a value: it stands there, or all that is in front
of the gap is below it and all behind above. -/
def Place.Fits (l : List Nat) (x : Nat) : Place → Prop
  | .found i => l[i]? = some x
  | .gap i => i ≤ l.length ∧ (∀ y ∈ l.take i, y < x) ∧ ∀ y ∈ l.drop i, x < y

theorem getElem_le_of_pairwise (hl : l.Pairwise (· < ·)) {i j : Nat} (hij : i ≤ j)
    (hj : j < l.length) : l[i] ≤ l[j] := by
  rcases hij.eq_or_lt with rfl | hlt
  · exact Nat.le_refl _
  · exact (List.pairwise_iff_getElem.mp hl i j (hlt.trans hj) hj hlt).le

/-- What is in front of the window stays below the value, and what is behind
it above. -/
theorem fits_locate (hl : l.Pairwise (· < ·)) (hhi : hi ≤ l.length) (hle : lo ≤ hi)
    (hbelow : ∀ i (h : i < l.length), i < lo → l[i] < x)
    (habove : ∀ i (h : i < l.length), hi ≤ i → x < l[i]) : (locate l x lo hi hhi).Fits l x := by
  fun_induction locate l x lo hi hhi with
  | case1 lo hi hhi h mid hmid heq =>
      exact List.getElem?_eq_some_iff.mpr ⟨hmid.trans_le hhi, heq⟩
  | case2 lo hi hhi h mid hmid hne hlt ih =>
      refine ih hmid (fun i hi hi' => ?_) habove
      exact (getElem_le_of_pairwise hl (Nat.le_of_lt_succ hi') _).trans_lt hlt
  | case3 lo hi hhi h mid hmid hne hlt ih =>
      refine ih (Nat.le_add_right ..) hbelow (fun i hi hi' => ?_)
      have hgt : x < l[mid] := Nat.lt_of_le_of_ne (Nat.le_of_not_lt hlt) (Ne.symm hne)
      exact hgt.trans_le (getElem_le_of_pairwise hl hi' hi)
  | case4 lo hi hhi h =>
      obtain rfl : lo = hi := by omega
      refine ⟨hhi, fun y hy => ?_, fun y hy => ?_⟩
      · obtain ⟨i, hi, rfl⟩ := List.mem_take_iff_getElem.mp hy
        exact hbelow i (by omega) (by omega)
      · obtain ⟨i, hi, rfl⟩ := List.mem_drop_iff_getElem.mp hy
        exact habove (lo + i) (by omega) (Nat.le_add_right ..)

/-- A value stands in the list if its place is found. -/
theorem Place.Fits.mem_iff {place : Place} (h : place.Fits l x) :
    x ∈ l ↔ ∃ i, place = .found i := by
  cases place with
  | found i => exact iff_of_true (List.mem_of_getElem? h) ⟨i, rfl⟩
  | gap i =>
      obtain ⟨-, hbelow, habove⟩ := h
      refine iff_of_false (fun hx => ?_) nofun
      rw [← List.take_append_drop i l] at hx
      rcases List.mem_append.mp hx with hx | hx
      · exact (hbelow x hx).false
      · exact (habove x hx).false

/-! ## Insertion at a place -/

theorem insertAscending_of_mem (hl : l.Pairwise (· < ·)) (hx : x ∈ l) :
    insertAscending x l = l := by
  induction l with
  | nil => exact absurd hx List.not_mem_nil
  | cons a rest ih =>
      obtain ⟨ha, hrest⟩ := List.pairwise_cons.mp hl
      rw [insertAscending]
      rcases List.mem_cons.mp hx with rfl | hx
      · rw [if_neg (Nat.lt_irrefl _), if_pos rfl]
      · have hlt := ha x hx
        rw [if_neg hlt.not_gt, if_neg hlt.ne', ih hrest hx]

/-- A value is put into its gap. -/
theorem insertAscending_of_gap {i : Nat} (h : (Place.gap i).Fits l x) :
    insertAscending x l = l.insertIdx i x := by
  obtain ⟨hi, hbelow, habove⟩ := h
  induction i generalizing l with
  | zero =>
      rw [List.insertIdx_zero]
      cases l with
      | nil => rfl
      | cons a rest => rw [insertAscending, if_pos (habove a List.mem_cons_self)]
  | succ i ih =>
      cases l with
      | nil => exact absurd hi (Nat.not_succ_le_zero i)
      | cons a rest =>
          have ha : a < x := hbelow a List.mem_cons_self
          have hrest := ih (Nat.le_of_succ_le_succ hi)
            (fun y hy => hbelow y (List.mem_cons_of_mem a hy)) habove
          rw [insertAscending, if_neg ha.not_gt, if_neg ha.ne', hrest, List.insertIdx_succ_cons]

/-! ## Runs -/

/-- Taking repetitions out of a list leaves its members. -/
theorem mem_destutter_ne : y ∈ l.destutter (· ≠ ·) ↔ y ∈ l := by
  have hrun (x : Nat) (l : List Nat) : y ∈ l.destutter' (· ≠ ·) x ↔ y ∈ x :: l := by
    induction l generalizing x with
    | nil => exact Iff.rfl
    | cons a rest ih =>
        rw [List.destutter'_cons]
        split
        · rw [List.mem_cons, ih, ← List.mem_cons]
        · rename_i heq
          obtain rfl : x = a := not_not.mp heq
          rw [ih, List.mem_cons, List.mem_cons (a := y) (b := x), List.mem_cons, or_self_left]
  cases l with
  | nil => exact Iff.rfl
  | cons x rest => rw [List.destutter_cons', hrun]

namespace RelSet

/-! ## Operations by places -/

/-- The place of a member. -/
def place (s : RelSet) (r : RtIndex) : Place :=
  locate s.members r 0 s.members.length (Nat.le_refl _)

namespace ByPlace

def contains (s : RelSet) (r : RtIndex) : Bool :=
  match s.place r with
  | .found _ => true
  | .gap _ => false

def insert (s : RelSet) (r : RtIndex) : RelSet :=
  match s.place r with
  | .found _ => s
  | .gap i => ⟨s.members.insertIdx i r⟩

def singleton (r : RtIndex) : RelSet := insert empty r

/-- The elements of a list, put in one by one. -/
def ofList (rs : List RtIndex) : RelSet := rs.foldl insert empty

/-- The members of both sets merged, without repetitions. -/
def union (s t : RelSet) : RelSet :=
  ofList ((s.members.merge t.members fun a b => decide (a ≤ b)).destutter (· ≠ ·))

def difference (s t : RelSet) : RelSet := ofList (s.members.filter fun r => !contains t r)

def isSubset (s t : RelSet) : Bool := s.members.all fun r => contains t r

def overlaps (s t : RelSet) : Bool := s.members.any fun r => contains t r

end ByPlace

/-! ## The same operations along the list -/

variable {s t : RelSet} {r : RtIndex}

namespace Ascending

theorem fits_place (h : s.Ascending) (r : RtIndex) : (s.place r).Fits s.members r :=
  fits_locate h (Nat.le_refl _) (Nat.zero_le _) nofun fun _ hlt hge => absurd hlt hge.not_gt

/-- Halving finds just the members. -/
theorem byPlace_contains (h : s.Ascending) (r : RtIndex) : ByPlace.contains s r = s.contains r := by
  have hfits := h.fits_place r
  have hmem := hfits.mem_iff
  rw [ByPlace.contains, RelSet.contains]
  cases hplace : s.place r with
  | found i => exact (List.contains_iff_mem.mpr (hmem.mpr ⟨i, hplace⟩)).symm
  | gap i =>
      rw [eq_comm, ← Bool.not_eq_true, List.contains_iff_mem, hmem, hplace]
      rintro ⟨j, hj⟩
      cases hj

theorem byPlace_insert (h : s.Ascending) (r : RtIndex) : ByPlace.insert s r = s.insert r := by
  have hfits := h.fits_place r
  rw [ByPlace.insert, RelSet.insert]
  cases hplace : s.place r with
  | found i => rw [insertAscending_of_mem h (hfits.mem_iff.mpr ⟨i, hplace⟩)]
  | gap i => rw [insertAscending_of_gap (hplace ▸ hfits)]

theorem byPlace_foldl_insert (h : s.Ascending) (l : List RtIndex) :
    l.foldl ByPlace.insert s = l.foldl RelSet.insert s := by
  induction l generalizing s with
  | nil => rfl
  | cons r rest ih => rw [List.foldl_cons, List.foldl_cons, h.byPlace_insert, ih (h.insert r)]

end Ascending

theorem byPlace_ofList (l : List RtIndex) : ByPlace.ofList l = ofList l :=
  ascending_empty.byPlace_foldl_insert l

theorem byPlace_singleton (r : RtIndex) : ByPlace.singleton r = singleton r :=
  ascending_empty.byPlace_insert r

namespace Ascending

/-- A merge has the members of both lists, and so has what is collected of
it. -/
theorem byPlace_union (hs : s.Ascending) (t : RelSet) : ByPlace.union s t = s.union t := by
  rw [ByPlace.union, byPlace_ofList]
  refine (ascending_ofList _).ext (hs.union t) ?_
  ext r
  rw [toFinset_ofList, toFinset_union, List.mem_toFinset, mem_destutter_ne, List.mem_merge,
    Finset.mem_union, mem_toFinset, mem_toFinset]

theorem byPlace_difference (hs : s.Ascending) (ht : t.Ascending) :
    ByPlace.difference s t = s.difference t := by
  simp only [ByPlace.difference, ht.byPlace_contains, byPlace_ofList]
  refine (ascending_ofList _).ext (hs.difference t) ?_
  rw [toFinset_ofList]
  rfl

theorem byPlace_isSubset (ht : t.Ascending) (s : RelSet) :
    ByPlace.isSubset s t = s.isSubset t := by
  simp only [ByPlace.isSubset, ht.byPlace_contains, RelSet.isSubset]

theorem byPlace_overlaps (ht : t.Ascending) (s : RelSet) :
    ByPlace.overlaps s t = s.overlaps t := by
  simp only [ByPlace.overlaps, ht.byPlace_contains, RelSet.overlaps]

end Ascending

end RelSet

end QueryPlanner
