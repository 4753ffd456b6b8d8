/-
  QueryPlanner.Proofs.Planner.Room

  Room for widths.

  A width is never negative, so a row or a pair of rows is refused exactly if
  its width is past the 32 bits.  A join is as wide as its inputs, which have no
  base relation in common; so where relations are as wide as their members, and
  all base relations together have room, every join has.
-/

import Mathlib.Algebra.Order.BigOperators.Group.Finset
import QueryPlanner.Proofs.Planner.Requested
import QueryPlanner.Proofs.Planner.RowWidth

namespace QueryPlanner

open Outline Planner

variable {α : Type} {p q : Planner α} {r o i : Relation α} {relid : RtIndex} {outer inner : Nat}
  {w : Int32}

/-! ## Pairs of rows -/

theorem Relation.pairWidth_eq (o i : Relation α) :
    o.pairWidth i = widthOf (o.width.toInt + i.width.toInt) := addWidths_eq o.width i.width

theorem Relation.toInt_of_pairWidth (h : o.pairWidth i = .ok w) :
    w.toInt = o.width.toInt + i.width.toInt := by
  rw [pairWidth_eq] at h
  exact widthOf_eq_ok_iff.mp h

theorem Relation.toInt_width_lt (r : Relation α) : r.width.toInt < 2147483648 :=
  r.width.toInt_lt

/-! ## Widths of a session -/

/-- No relation has a negative width. -/
def Planner.WidthsNonneg (p : Planner α) : Prop := ∀ r ∈ p.relations, 0 ≤ r.width.toInt

section Sessions

variable [Number α] {asked : List RtIndex}

/-- Each change keeps widths from being negative. -/
theorem Planner.Change.widthsNonneg (h : Change asked p q) (hp : p.WidthsNonneg) :
    q.WidthsNonneg := by
  have hadd {r : Relation α} (hr : 0 ≤ r.width.toInt) : (p.addRelation r).WidthsNonneg :=
    List.forall_mem_append.mpr ⟨hp, List.forall_mem_singleton.mpr hr⟩
  cases h with
  | base _ _ hr =>
      obtain ⟨-, -, -, -, hwidth⟩ := PlanM.ofEntry_eq_ok hr
      refine hadd ?_
      rw [hwidth]
      decide
  | join fraction width ho hi _ _ hwidth =>
      have houter := hp _ (mem_of_relation ho)
      have hinner := hp _ (mem_of_relation hi)
      have hsum := Relation.toInt_of_pairWidth hwidth
      refine hadd (?_ : 0 ≤ width.toInt)
      omega
  | @revise id f hf =>
      intro s hs
      rcases mem_modifyRelation hs with hs | ⟨r, hr, rfl⟩
      · exact hp s hs
      · have hkept := hp r (mem_of_relation hr)
        cases f with
        | size rows width =>
            -- It is the width of a row.
            obtain ⟨row, hrow⟩ := hf
            show 0 ≤ width.toInt
            rw [rowWidth_eq_ok hrow]
            exact p.exactWidth_nonneg row
        | target | restriction | filing | offer => exact hkept
  | identity | constant | order => exact hp

theorem widthsNonneg_session (settings : Settings α) (operators : OperatorCatalog α)
    (catalog : RelationSource α) (statistics : StatisticsProvider α)
    (rangeTable : List RangeTableEntry) (requests : List (Request α)) :
    WidthsNonneg (session requests (.start settings operators catalog statistics rangeTable)).2 :=
  session_keeps (fun _ _ _ hchange hp => hchange.widthsNonneg hp) requests nofun

/-- Base relations have an entry at every point of a session. -/
theorem exists_entry_session {settings : Settings α} {operators : OperatorCatalog α}
    {catalog : RelationSource α} {statistics : StatisticsProvider α}
    {rangeTable : List RangeTableEntry} {requests : List (Request α)}
    (hp : p = (session requests (.start settings operators catalog statistics rangeTable)).2)
    (hbuilt : Built p.outlines relid) : ∃ entry, p.entry relid = .ok entry := by
  subst hp
  have hcan := (enlarged_session requests (grounded_start settings operators catalog statistics
    rangeTable)).grounded.canBuild relid hbuilt
  rw [canBuild] at hcan
  cases hr : Relation.ofEntry (session requests
      (.start settings operators catalog statistics rangeTable)).2 relid with
  | ok r => exact PlanM.entry_of_ofEntry hr
  | error e =>
      rw [hr] at hcan
      cases hcan

end Sessions

/-! ## What is refused for want of room -/

namespace PlanM

variable [Number α] {fraction : α}

/-- A size that can be estimated otherwise is refused exactly if the columns have
no room. -/
theorem estimateSize_room (hr : p.baseRelation? relid = some r)
    (hentry : ∃ entry, p.entry relid = .ok entry)
    (hf : Selectivity.clauseList p r.restrictionExprs (some relid) .inner = .ok fraction) :
    p.exactWidth r < 2147483648 ∧ (∃ q, estimateSize relid p = .ok () q) ∨
      2147483648 ≤ p.exactWidth r ∧ estimateSize relid p = .error .overflow p := by
  have hbase : p.baseRelation relid = .ok r := by rw [Planner.baseRelation, hr]
  have hrelid : r.relid? = some relid := (baseRelation?_eq_some hr).2
  have hwidth : p.rowWidth r = Relation.widthOf (p.exactWidth r) :=
    rowWidth_eq fun x hx => Option.some.inj (hrelid.symm.trans hx) ▸ hentry
  rw [estimateSize, get_bind, ofExcept_bind_of_ok hbase, ofExcept_bind_of_ok hf, hwidth]
  rcases lt_or_ge (p.exactWidth r) 2147483648 with hlt | hge
  · obtain ⟨w, hw⟩ := Relation.exists_widthOf (α := α) (p.exactWidth_nonneg r) hlt
    rw [ofExcept_bind_of_ok hw]
    exact .inl ⟨hlt, _, rfl⟩
  · rw [ofExcept_bind_of_error (Relation.widthOf_eq_error hge)]
    exact .inr ⟨hge, rfl⟩

/-- A join that can be estimated otherwise is refused exactly if its inputs have
no room beside each other. -/
theorem joinRelation_room (hp : p.WidthsNonneg) (ho : p.relation outer = .ok o)
    (hi : p.relation inner = .ok i) (hd : o.relids.overlaps i.relids = false)
    (hnew : p.joinRelation? (o.relids.union i.relids) = none)
    (hf : Selectivity.clauseList p ((Relation.restrictionsOfJoin
      (o.relids.union i.relids) o i).map (·.expr)) none .inner = .ok fraction) :
    o.width.toInt + i.width.toInt < 2147483648 ∧
        (∃ join q, joinRelation outer inner p = .ok join q) ∨
      2147483648 ≤ o.width.toInt + i.width.toInt ∧
        joinRelation outer inner p = .error .overflow p := by
  have houter := hp o (mem_of_relation ho)
  have hinner := hp i (mem_of_relation hi)
  rw [joinRelation, get_bind, ofExcept_bind_of_ok ho, ofExcept_bind_of_ok hi, hd,
    if_neg Bool.false_ne_true]
  simp only [hnew]
  rw [ofExcept_bind_of_ok hf, Relation.pairWidth_eq]
  rcases lt_or_ge (o.width.toInt + i.width.toInt) 2147483648 with hlt | hge
  · obtain ⟨w, hw⟩ := Relation.exists_widthOf (α := α) (Int.add_nonneg houter hinner) hlt
    rw [ofExcept_bind_of_ok hw]
    exact .inl ⟨hlt, _, _, rfl⟩
  · rw [ofExcept_bind_of_error (Relation.widthOf_eq_error hge)]
    exact .inr ⟨hge, rfl⟩

end PlanM

/-! ## Sums of widths -/

namespace Planner

/-- The width that the base relation of a position has. -/
def widthAt (p : Planner α) (relid : RtIndex) : Int32 :=
  match p.baseRelation? relid with
  | some r => r.width
  | none => 0

/-- Every relation is as wide as its members together. -/
def AddsUp (width : RtIndex → Int) (p : Planner α) : Prop :=
  ∀ r ∈ p.relations, r.width.toInt = ∑ relid ∈ r.relids.toFinset, width relid

/-- There is room for any relations at once. -/
structure HasRoom (width : RtIndex → Int) : Prop where
  nonneg : ∀ relid, 0 ≤ width relid
  fits : ∀ s : Finset RtIndex, ∑ relid ∈ s, width relid < 2147483648

theorem widthAt_nonneg (hp : p.WidthsNonneg) (relid : RtIndex) : 0 ≤ (p.widthAt relid).toInt := by
  rw [widthAt]
  cases hr : p.baseRelation? relid with
  | none => exact Int32.toInt_zero.ge
  | some r => exact hp r (mem_of_baseRelation? hr)

/-- Relations without common members have the width of both. -/
theorem AddsUp.add {width : RtIndex → Int} (h : AddsUp width p) (ho : p.relation outer = .ok o)
    (hi : p.relation inner = .ok i) (hd : o.relids.overlaps i.relids = false) :
    o.width.toInt + i.width.toInt =
      ∑ relid ∈ (o.relids.union i.relids).toFinset, width relid := by
  rw [RelSet.toFinset_union, Finset.sum_union (RelSet.overlaps_eq_false_iff.mp hd),
    h o (mem_of_relation ho), h i (mem_of_relation hi)]

/-- So a pair of their rows has room. -/
theorem AddsUp.exists_pairWidth {width : RtIndex → Int} (h : AddsUp width p)
    (hroom : HasRoom width) (ho : p.relation outer = .ok o) (hi : p.relation inner = .ok i)
    (hd : o.relids.overlaps i.relids = false) : ∃ w, o.pairWidth i = .ok w := by
  rw [Relation.pairWidth_eq, h.add ho hi hd]
  exact Relation.exists_widthOf (Finset.sum_nonneg fun relid _ => hroom.nonneg relid)
    (hroom.fits _)

/-- Wherever relations added up, they add up. -/
def KeepsWidths (p q : Planner α) : Prop := ∀ width, AddsUp width p → AddsUp width q

instance : IsPreorder (Planner α) KeepsWidths where
  refl _ _ h := h
  trans _ _ _ h h' width hp := h' width (h width hp)

variable [Number α]

theorem keepsWidths_ofJoin {fraction : α} (ho : p.relation outer = .ok o)
    (hi : p.relation inner = .ok i) (hd : o.relids.overlaps i.relids = false)
    (hw : o.pairWidth i = .ok w) :
    KeepsWidths p (p.addRelation (Relation.ofJoin p.relations.length o i fraction w)) := by
  refine fun width hp => List.forall_mem_append.mpr ⟨hp, List.forall_mem_singleton.mpr ?_⟩
  exact (Relation.toInt_of_pairWidth hw).trans (hp.add ho hi hd)

theorem keepsWidths_offer (id : Nat) (paths : List (Path α)) (p : Planner α) :
    KeepsWidths p (modifyRelation id (.offer paths) p) := by
  intro width hp s hs
  rcases mem_modifyRelation hs with hs | ⟨r, hr, rfl⟩
  · exact hp s hs
  · exact hp r (mem_of_relation hr)

end Planner

namespace PlanM

variable [Number α]

theorem keepsWidths_joinRelation (outer inner : Nat) :
    (joinRelation outer inner : PlanM α (Nat × List (Clause α))).Moves KeepsWidths :=
  joinRelation_moves fun _ _ _ _ _ ho hi hd _ hw => keepsWidths_ofJoin ho hi hd hw

theorem keepsWidths_addScans (id : Nat) : (addScans id : PlanM α Unit).Moves KeepsWidths :=
  addScans_moves keepsWidths_offer id

theorem keepsWidths_addJoins (join outer inner : Nat) (restrictions : List (Clause α))
    (type : JoinType) :
    (addJoins join outer inner restrictions type : PlanM α Unit).Moves KeepsWidths :=
  addJoins_moves keepsWidths_offer join outer inner restrictions type

end PlanM

end QueryPlanner
