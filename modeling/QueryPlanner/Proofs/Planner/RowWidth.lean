/-
  QueryPlanner.Proofs.Planner.RowWidth

  The width of a row, as a sum of integers.

  Widths are added up in 32 bits, and a sum that does not fit is a failure.  As
  no column is narrower than a byte, partial sums are no greater than the whole
  one, so adding up columns fails exactly if their exact sum does not fit, and
  comes to the exact sum otherwise.
-/

import Mathlib.Algebra.Order.BigOperators.Group.List
import Mathlib.Algebra.Order.Ring.Int
import QueryPlanner.Proofs.Planner.Build

namespace QueryPlanner

variable {α : Type} {p : Planner α} {r : Relation α} {relation : Option Oid} {e : Expr α}

/-! ## Sums in 32 bits -/

namespace Relation

/-- An exact sum of widths as a width, if 32 bits have room for it. -/
def widthOf (total : Int) : Except (PlanError α) Int32 :=
  if (Int32.ofInt total).toInt = total then .ok (Int32.ofInt total) else .error .overflow

theorem widthOf_eq_ok_iff {total : Int} {w : Int32} :
    (widthOf total : Except (PlanError α) Int32) = .ok w ↔ w.toInt = total := by
  rw [widthOf]
  split
  · rename_i h
    constructor
    · rintro ⟨⟩
      exact h
    · rintro rfl
      rw [Int32.ofInt_toInt]
  · rename_i h
    constructor
    · exact fun hw => nomatch hw
    · rintro rfl
      rw [Int32.ofInt_toInt] at h
      exact absurd rfl h

/-- A sum that is not negative has room up to the greatest width. -/
theorem toInt_ofInt_eq_iff {n : Int} (h : 0 ≤ n) : (Int32.ofInt n).toInt = n ↔ n < 2147483648 := by
  rw [Int32.toInt_ofInt]
  show n.bmod 4294967296 = n ↔ _
  constructor
  · intro heq
    have hlt : n.bmod 4294967296 < (4294967296 + 1) / 2 := Int.bmod_lt (by decide)
    omega
  · intro hlt
    exact Int.bmod_eq_of_le (by omega) (by omega)

theorem exists_widthOf {total : Int} (hpos : 0 ≤ total) (h : total < 2147483648) :
    ∃ w, (widthOf total : Except (PlanError α) Int32) = .ok w :=
  ⟨_, if_pos ((toInt_ofInt_eq_iff hpos).mpr h)⟩

theorem widthOf_eq_error {total : Int} (h : 2147483648 ≤ total) :
    (widthOf total : Except (PlanError α) Int32) = .error .overflow := by
  have hpos : 0 ≤ total := by omega
  exact if_neg (mt (toInt_ofInt_eq_iff hpos).mp (by omega))

theorem addWidths_eq (v w : Int32) :
    (addWidths v w : Except (PlanError α) Int32) = widthOf (v.toInt + w.toInt) := by
  rw [addWidths, widthOf, Int32.ofInt_add, Int32.ofInt_toInt, Int32.ofInt_toInt]

/-- Widths that are not negative can be added one by one just if their exact sum
has room: it is as great as any sum on the way. -/
theorem foldlM_addWidths {β : Type} {f : β → Int32} {l : List β} (hf : ∀ b, 0 ≤ (f b).toInt)
    {w : Int32} (hw : 0 ≤ w.toInt) :
    (l.foldlM (fun w b => addWidths w (f b)) w : Except (PlanError α) Int32) =
      widthOf (w.toInt + (l.map fun b => (f b).toInt).sum) := by
  induction l generalizing w with
  | nil =>
      rw [List.map_nil, List.sum_nil, Int.add_zero]
      exact (widthOf_eq_ok_iff.mpr rfl).symm
  | cons b l ih =>
      have hb := hf b
      have hrest : 0 ≤ (l.map fun b => (f b).toInt).sum :=
        List.sum_nonneg (List.forall_mem_map.mpr fun b _ => hf b)
      rw [List.foldlM_cons, List.map_cons, List.sum_cons, ← Int.add_assoc, addWidths_eq]
      -- If the sum on the way has no room, the whole sum has none either.
      by_cases hlt : w.toInt + (f b).toInt < 2147483648
      · obtain ⟨v, hv⟩ := exists_widthOf (α := α) (by omega) hlt
        have hsum := widthOf_eq_ok_iff.mp hv
        rw [hv, ← hsum, ← ih (by omega)]
        rfl
      · rw [widthOf_eq_error (by omega), widthOf_eq_error (by omega)]
        rfl

end Relation

/-! ## Columns -/

namespace Planner

/-- The width of a column: the one on record, or else that of its type. -/
def columnWidth (p : Planner α) (relation : Option Oid) (e : Expr α) : Int32 :=
  (p.recordedWidth? relation e).getD e.type.defaultWidth

/-- A width is on record for columns of stored relations whose statistics have a
positive one. -/
theorem recordedWidth?_eq_some_iff {w : Int32} :
    p.recordedWidth? relation e = some w ↔ ∃ v oid stats, e = .var v ∧ relation = some oid ∧
      p.statistics.column oid v.column = some stats ∧ stats.averageWidth = w ∧ 0 < w := by
  constructor
  · intro h
    unfold recordedWidth? at h
    split at h
    · obtain ⟨hrecorded, hpos⟩ := Option.filter_eq_some_iff.mp h
      obtain ⟨stats, hstats, hwidth⟩ := Option.map_eq_some_iff.mp hrecorded
      exact ⟨_, _, stats, rfl, rfl, hstats, hwidth, of_decide_eq_true hpos⟩
    · exact nomatch h
  · rintro ⟨v, oid, stats, rfl, rfl, hstats, rfl, hpos⟩
    rw [recordedWidth?, hstats]
    exact Option.filter_eq_some_iff.mpr ⟨rfl, decide_eq_true hpos⟩

theorem defaultWidth_pos (type : DataType) : 0 < type.defaultWidth.toInt := by
  cases type <;> decide

/-- No column is narrower than a byte. -/
theorem columnWidth_pos (p : Planner α) (relation : Option Oid) (e : Expr α) :
    0 < (p.columnWidth relation e).toInt := by
  rw [columnWidth]
  cases h : p.recordedWidth? relation e with
  | none => exact defaultWidth_pos e.type
  | some w =>
      obtain ⟨-, -, -, -, -, -, -, hpos⟩ := recordedWidth?_eq_some_iff.mp h
      exact Int32.lt_iff_toInt_lt.mp hpos

/-! ## Rows -/

/-- The stored relation behind a base relation. -/
def storedOf (p : Planner α) (r : Relation α) : Option Oid :=
  r.relid?.bind fun relid => (p.entry relid).toOption.bind (·.relation?)

/-- The width of a row, in exact numbers. -/
def exactWidth (p : Planner α) (r : Relation α) : Int :=
  (r.target.map fun t => (p.columnWidth (p.storedOf r) t.expr).toInt).sum

theorem exactWidth_nonneg (p : Planner α) (r : Relation α) : 0 ≤ p.exactWidth r := by
  refine List.sum_nonneg (fun w hw => ?_)
  obtain ⟨t, -, rfl⟩ := List.mem_map.mp hw
  exact (columnWidth_pos p _ t.expr).le

/-- A row has the width of its columns. -/
theorem rowWidth_eq [Number α] (h : ∀ relid, r.relid? = some relid → ∃ e, p.entry relid = .ok e) :
    p.rowWidth r = Relation.widthOf (p.exactWidth r) := by
  have hsum (relation : Option Oid) :
      r.target.foldlM (fun w t => Relation.addWidths w (p.columnWidth relation t.expr)) (0 : Int32) =
        (Relation.widthOf (r.target.map fun t => (p.columnWidth relation t.expr).toInt).sum :
          Except (PlanError α) Int32) := by
    have hpos (t : TargetEntry α) : 0 ≤ (p.columnWidth relation t.expr).toInt :=
      (columnWidth_pos p relation t.expr).le
    rw [Relation.foldlM_addWidths hpos (Int32.toInt_zero ▸ Int.le_refl 0), Int32.toInt_zero,
      Int.zero_add]
  rw [rowWidth, exactWidth, storedOf]
  cases hrelid : r.relid? with
  | none => exact hsum none
  | some relid =>
      obtain ⟨entry, hentry⟩ := h relid hrelid
      rw [Option.bind_some]
      dsimp only
      rw [hentry]
      exact hsum entry.relation?

/-- Whenever the width of a row is estimated, it is that of its columns. -/
theorem rowWidth_eq_ok [Number α] {w : Int32} (h : p.rowWidth r = .ok w) :
    w.toInt = p.exactWidth r := by
  have hentry : ∀ relid, r.relid? = some relid → ∃ e, p.entry relid = .ok e := by
    intro relid hrelid
    rw [rowWidth, hrelid] at h
    cases hentry : p.entry relid with
    | ok e => exact ⟨e, rfl⟩
    | error e =>
        dsimp only at h
        rw [hentry] at h
        exact nomatch h
  rw [rowWidth_eq hentry] at h
  exact Relation.widthOf_eq_ok_iff.mp h

end Planner

end QueryPlanner
