/-
  QueryPlanner.Proofs.Pathkeys.Merge

  The orders that a merge needs, and the clauses that it can follow.

  Between inputs without common relations each side of a clause comes from
  one input.  An input can be sorted only by the side that comes from it, and
  an ordering of its rows can fit no other side, so which operand stands left
  in the clause makes no difference to either input.
-/

import QueryPlanner.Proofs.Clause
import QueryPlanner.Proofs.Clause.Operands
import QueryPlanner.Proofs.Pathkeys.Sides
import QueryPlanner.Proofs.PlanM

namespace QueryPlanner

variable {α : Type} {c : Clause α} {s t : RelSet} {out inn : SortItem α}

namespace Clause

/-- The sides of a merge clause, the first from the outer input and the second
from the inner one. -/
structure Across (c : Clause α) (s t : RelSet) (out inn : SortItem α) : Prop where
  equates : c.Equates out inn
  outer : out.key.From s
  inner : inn.key.From t

theorem Across.symm (h : c.Across s t out inn) : c.Across t s inn out where
  equates := h.equates.symm
  outer := h.inner
  inner := h.outer

/-- The operands of a merge clause are its sides. -/
theorem HasOperands.exists_across {a b : Expr α} (h : c.HasOperands a b)
    (hm : c.isMergejoinable = true) (ha : a.From s) (hb : b.From t) :
    ∃ out inn, c.Across s t out inn ∧ out.key = a ∧ inn.key = b := by
  obtain ⟨opno, hop | hop⟩ := h
  · obtain ⟨out, inn, hsides, rfl, rfl⟩ := mergeSides?_eq_some hm hop
    exact ⟨out, inn, ⟨.inl hsides, ha, hb⟩, rfl, rfl⟩
  · obtain ⟨inn, out, hsides, rfl, rfl⟩ := mergeSides?_eq_some hm hop
    exact ⟨out, inn, ⟨.inr hsides, ha, hb⟩, rfl, rfl⟩

/-- A merge clause that splits over two inputs has a side from either. -/
theorem Splits.exists_across (h : c.Splits s t) (hm : c.isMergejoinable = true) :
    ∃ out inn, c.Across s t out inn := by
  obtain ⟨a, b, hab, ha, hb⟩ := h
  obtain ⟨out, inn, hacross, -⟩ := hab.exists_across hm ha hb
  exact ⟨out, inn, hacross⟩

end Clause

namespace Pathkeys

/-- Every expression of the ordering reads only relations of a set. -/
def Over (ps : Pathkeys α) (s : RelSet) : Prop := ∀ p ∈ ps, ∀ item ∈ p, item.key.Over s

theorem over_nil : Over ([] : Pathkeys α) s := nofun

variable [DecidableEq α] {target target' : TargetList α} {clauses taken : List (Clause α)}
  {p : SortPosition α} {ps : Pathkeys α}

/-! ## One clause -/

/-- An input is sorted by the side that comes from it, if it shows that
side. -/
theorem mergeItem_of_across (h : c.Across s t out inn) (hd : Disjoint s.toFinset t.toFinset)
    (htarget : target.Over s) :
    mergeItem target c =
      if target.provides out.key then .ok out else .error (.operandsNotInTarget c.expr) := by
  have hinn : ¬ target.provides inn.key = true := htarget.not_provides h.inner hd
  rcases h.equates with hsides | hsides
  · rw [mergeItem_of_sides hsides, if_neg hinn]
  · rw [mergeItem_of_sides hsides, if_neg hinn]

/-- An input that can be sorted for a clause shows the operand that comes from
it. -/
theorem provides_of_mergeItem {a b : Expr α} {item : SortItem α} (h : mergeItem target c = .ok item)
    (hm : c.isMergejoinable = true) (hab : c.HasOperands a b) (ha : a.From s) (hb : b.From t)
    (hd : Disjoint s.toFinset t.toFinset) (htarget : target.Over s) : target.provides a = true := by
  obtain ⟨out, inn, hacross, rfl, rfl⟩ := hab.exists_across hm ha hb
  rw [mergeItem_of_across hacross hd htarget] at h
  by_contra hnot
  rw [if_neg hnot] at h
  exact nomatch h

/-- An ordering of an input fits a clause by the side that comes from it. -/
theorem fits_iff_of_across (h : c.Across s t out inn) (hd : Disjoint s.toFinset t.toFinset)
    (hp : ∀ item ∈ p, item.key.Over s) : fits p c = true ↔ out ∈ p := by
  have hinn : inn ∉ p := fun hmem => h.inner.not_over hd (hp inn hmem)
  rcases h.equates with hsides | hsides
  · rw [fits_of_sides hsides]
    exact or_iff_left hinn
  · rw [fits_of_sides hsides]
    exact or_iff_right hinn

/-! ## The order needed -/

theorem Over.addPosition (hps : ps.Over s) (h : ∀ item ∈ p, item.key.Over s) :
    (addPosition ps p).Over s := by
  rw [Pathkeys.addPosition]
  split
  · exact hps
  · exact List.forall_mem_append.mpr ⟨hps, List.forall_mem_singleton.mpr h⟩

theorem addPosition_ne_nil : addPosition ps p ≠ [] := by
  rw [addPosition]
  split
  · rename_i h
    exact List.ne_nil_of_mem (List.contains_iff_mem.mp h)
  · exact List.append_ne_nil_of_right_ne_nil _ (List.cons_ne_nil p [])

/-- The order for some clauses, from that for the ones before. -/
def extendOrder (target : TargetList α) (ps : Pathkeys α) (c : Clause α) :
    Except (PlanError α) (Pathkeys α) := do
  return addPosition ps [← mergeItem target c]

theorem ofMergeClauses_eq_foldlM (clauses : List (Clause α)) (target : TargetList α) :
    ofMergeClauses clauses target = clauses.foldlM (extendOrder target) [] := rfl

theorem extendOrder_eq_ok {ps' : Pathkeys α} (h : extendOrder target ps c = .ok ps') :
    ∃ item, mergeItem target c = .ok item ∧ ps' = addPosition ps [item] := by
  obtain ⟨item, hitem, h⟩ := PlanM.except_bind_eq_ok.mp h
  exact ⟨item, hitem, (Except.ok.inj h).symm⟩

/-- An order for some clauses has an item of each. -/
theorem exists_mergeItem (h : ofMergeClauses clauses target = .ok ps) (hc : c ∈ clauses) :
    ∃ item, mergeItem target c = .ok item := by
  rw [ofMergeClauses_eq_foldlM] at h
  generalize ([] : Pathkeys α) = start at h
  induction clauses generalizing start with
  | nil => exact absurd hc List.not_mem_nil
  | cons d rest ih =>
      rw [List.foldlM_cons] at h
      obtain ⟨next, hnext, h⟩ := PlanM.except_bind_eq_ok.mp h
      rcases List.mem_cons.mp hc with rfl | hc
      · obtain ⟨item, hitem, -⟩ := extendOrder_eq_ok hnext
        exact ⟨item, hitem⟩
      · exact ih hc next h

/-- The order for some clauses is no empty one. -/
theorem ofMergeClauses_ne_nil (h : ofMergeClauses clauses target = .ok ps) (hne : clauses ≠ []) :
    ps ≠ [] := by
  -- By induction from the left, with the order found so far.
  have hfold (clauses : List (Clause α)) (start : Pathkeys α) (hstart : start ≠ [] ∨ clauses ≠ [])
      (hrun : clauses.foldlM (extendOrder target) start = .ok ps) : ps ≠ [] := by
    induction clauses generalizing start with
    | nil => exact Except.ok.inj hrun ▸ hstart.resolve_right (· rfl)
    | cons c rest ih =>
        rw [List.foldlM_cons] at hrun
        obtain ⟨next, hnext, hrun⟩ := PlanM.except_bind_eq_ok.mp hrun
        obtain ⟨item, -, rfl⟩ := extendOrder_eq_ok hnext
        exact ih _ (.inl addPosition_ne_nil) hrun
  exact hfold clauses [] (.inr hne) h

/-- Target lists that sort every clause alike need the same order. -/
theorem ofMergeClauses_of_mergeItem (h : ofMergeClauses clauses target = .ok ps)
    (hitem : ∀ c ∈ clauses, ∀ item, mergeItem target c = .ok item → mergeItem target' c = .ok item) :
    ofMergeClauses clauses target' = .ok ps := by
  rw [ofMergeClauses_eq_foldlM] at h ⊢
  generalize ([] : Pathkeys α) = start at h ⊢
  induction clauses generalizing start with
  | nil => exact h
  | cons c rest ih =>
      obtain ⟨hc, hrest⟩ := List.forall_mem_cons.mp hitem
      rw [List.foldlM_cons] at h ⊢
      obtain ⟨next, hnext, h⟩ := PlanM.except_bind_eq_ok.mp h
      obtain ⟨item, hitem, rfl⟩ := extendOrder_eq_ok hnext
      have hnext' : extendOrder target' start c = .ok (addPosition start [item]) := by
        rw [extendOrder, hc item hitem]
        rfl
      rw [hnext']
      exact ih hrest _ h

/-- An input that shows more needs no other order. -/
theorem ofMergeClauses_mono (h : ofMergeClauses clauses target = .ok ps)
    (hacross : ∀ c ∈ clauses, ∃ out inn, c.Across s t out inn)
    (hd : Disjoint s.toFinset t.toFinset) (htarget : target.Over s) (htarget' : target'.Over s)
    (hsub : target.exprs ⊆ target'.exprs) : ofMergeClauses clauses target' = .ok ps := by
  refine ofMergeClauses_of_mergeItem h fun c hc item hitem => ?_
  obtain ⟨out, inn, hcross⟩ := hacross c hc
  rw [mergeItem_of_across hcross hd htarget] at hitem
  rw [mergeItem_of_across hcross hd htarget']
  split at hitem
  · rename_i hshown
    have hshown' : target'.provides out.key = true :=
      TargetList.provides_iff.mpr (hsub (TargetList.provides_iff.mp hshown))
    rw [if_pos hshown']
    exact hitem
  · cases hitem

/-! ## The clauses that an order fits -/

/-- Position by position, each clause found is the first that fits and is
neither taken nor found before. -/
theorem mergeClauses_eq_append (taken clauses : List (Clause α)) (ps : Pathkeys α) :
    ∃ found, mergeClauses taken clauses ps = taken ++ found ∧
      ∀ (k : Nat) (c : Clause α), found[k]? = some c → ∃ p, ps[k]? = some p ∧
        clauses.find? (fun d => fits p d && !d.isIn (taken ++ found.take k)) = some c := by
  induction ps generalizing taken with
  | nil => exact ⟨[], (List.append_nil taken).symm, nofun⟩
  | cons p rest ih =>
      rw [mergeClauses]
      cases hfind : clauses.find? fun d => fits p d && !d.isIn taken with
      | none => exact ⟨[], (List.append_nil taken).symm, nofun⟩
      | some c =>
          obtain ⟨found, heq, hfound⟩ := ih (taken ++ [c])
          refine ⟨c :: found, ?_, fun k d hd => ?_⟩
          · show mergeClauses (taken ++ [c]) clauses rest = _
            rw [heq, List.append_assoc]
            rfl
          · cases k with
            | zero =>
                cases hd
                refine ⟨p, rfl, ?_⟩
                rw [List.take_zero, List.append_nil]
                exact hfind
            | succ k =>
                obtain ⟨q, hq, hfits⟩ := hfound k d hd
                refine ⟨q, hq, ?_⟩
                rw [List.append_assoc] at hfits
                exact hfits

theorem nodup_mergeClauses (h : (taken.map (·.id)).Nodup) :
    ((mergeClauses taken clauses ps).map (·.id)).Nodup := by
  induction ps generalizing taken with
  | nil => exact h
  | cons p rest ih =>
      rw [mergeClauses]
      split
      · rename_i c hfind
        have hnew := List.find?_some hfind
        rw [Bool.and_eq_true, Bool.not_eq_true'] at hnew
        refine ih ?_
        rw [List.map_append, List.map_singleton, ← List.concat_eq_append]
        refine List.Nodup.concat (fun hid => ?_) h
        rw [Clause.isIn_iff.mpr hid] at hnew
        exact nomatch hnew.2
      · exact h

/-- The clauses found are told apart by their identities. -/
theorem nodup_findMergeClauses : ((findMergeClauses ps clauses).map (·.id)).Nodup :=
  nodup_mergeClauses List.nodup_nil

/-- Each clause found is one of the list, and fits the position at its
place. -/
theorem findMergeClauses_getElem? {k : Nat} (h : (findMergeClauses ps clauses)[k]? = some c) :
    c ∈ clauses ∧ ∃ p, ps[k]? = some p ∧ fits p c = true := by
  obtain ⟨found, heq, hfound⟩ := mergeClauses_eq_append [] clauses ps
  rw [findMergeClauses, heq, List.nil_append] at h
  obtain ⟨p, hp, hfind⟩ := hfound k c h
  have hfits := List.find?_some hfind
  rw [Bool.and_eq_true] at hfits
  exact ⟨List.mem_of_find?_eq_some hfind, p, hp, hfits.1⟩

theorem mem_of_mem_findMergeClauses (h : c ∈ findMergeClauses ps clauses) : c ∈ clauses := by
  obtain ⟨k, hk⟩ := List.mem_iff_getElem?.mp h
  exact (findMergeClauses_getElem? hk).1

end Pathkeys

end QueryPlanner
