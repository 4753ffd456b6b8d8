/-
  QueryPlanner.Proofs.Pathkeys

  What the comparison of two orderings decides.

  `Within a b` says that rows ordered by `b` are ordered by `a`: position by
  position the items of `a` are items of `b`, and `b` may go on behind `a`.
  The comparison walks both orderings at once and stops early; it comes to
  the two verdicts `Within a b` and `Within b a`, and `Within` is reflexive
  and transitive.
-/

import QueryPlanner.Pathkeys

namespace QueryPlanner.Pathkeys

variable {α : Type}

/-- Position by position the items of the first ordering are items of the
second. -/
inductive Within : Pathkeys α → Pathkeys α → Prop where
  | nil (b : Pathkeys α) : Within [] b
  | cons {p q : SortPosition α} {ps qs : Pathkeys α} :
      (∀ item ∈ p, item ∈ q) → Within ps qs → Within (p :: ps) (q :: qs)

namespace Within

variable {p q : SortPosition α} {ps qs a b c : Pathkeys α}

@[simp] theorem cons_cons_iff :
    Within (p :: ps) (q :: qs) ↔ (∀ item ∈ p, item ∈ q) ∧ Within ps qs := by
  constructor
  · intro h
    cases h with
    | cons hpq h => exact ⟨hpq, h⟩
  · rintro ⟨hpq, h⟩
    exact .cons hpq h

@[simp] theorem not_cons_nil : ¬ Within (p :: ps) [] := nofun

@[simp] theorem nil_left : Within [] b := .nil b

theorem refl (a : Pathkeys α) : Within a a := by
  induction a with
  | nil => exact .nil []
  | cons p ps ih => exact .cons (fun _ h => h) ih

theorem trans (hab : Within a b) (hbc : Within b c) : Within a c := by
  induction hab generalizing c with
  | nil b => exact .nil c
  | cons hpq _ ih =>
      cases hbc with
      | cons hqr hbc => exact .cons (fun item hi => hqr item (hpq item hi)) (ih hbc)

end Within

variable [DecidableEq α]

instance decidableWithin : (a b : Pathkeys α) → Decidable (Within a b)
  | [], b => .isTrue (.nil b)
  | _ :: _, [] => .isFalse nofun
  | p :: ps, q :: qs =>
    have := decidableWithin ps qs
    decidable_of_iff ((∀ item ∈ p, item ∈ q) ∧ Within ps qs) Within.cons_cons_iff.symm

theorem isSubset_eq (p q : SortPosition α) :
    SortPosition.isSubset p q = decide (∀ item ∈ p, item ∈ q) := by
  rw [Bool.eq_iff_iff]
  simp [SortPosition.isSubset]

/-- An early end of the walk says no more than its full length would: a
verdict that is lost stays lost. -/
theorem compareFrom_eq (first second : Bool) (a b : Pathkeys α) :
    compareFrom first second a b =
      verdict (first && decide (Within a b)) (second && decide (Within b a)) := by
  induction a generalizing b first second with
  | nil => cases b <;> simp [compareFrom]
  | cons p ps ih =>
      cases b with
      | nil => simp [compareFrom]
      | cons q qs =>
          simp only [compareFrom, isSubset_eq, Within.cons_cons_iff, Bool.decide_and,
            ← Bool.and_assoc, ih]
          split
          · -- Both verdicts are lost, and the walk ends early.
            rename_i h
            simp only [Bool.and_eq_true, Bool.not_eq_true'] at h
            rw [h.1, h.2, Bool.false_and, Bool.false_and, verdict]
          · rfl

theorem compare_eq (a b : Pathkeys α) :
    compare a b = verdict (decide (Within a b)) (decide (Within b a)) := by
  rw [compare, compareFrom_eq, Bool.true_and, Bool.true_and]

/-- One ordering is contained in another exactly if it is within it. -/
theorem containedIn_iff {a b : Pathkeys α} : containedIn a b = true ↔ Within a b := by
  rw [containedIn, compare_eq]
  by_cases hab : Within a b <;> by_cases hba : Within b a <;> simp [hab, hba, verdict]

theorem compare_eq_equal_iff {a b : Pathkeys α} :
    compare a b = .equal ↔ Within a b ∧ Within b a := by
  rw [compare_eq]
  by_cases hab : Within a b <;> by_cases hba : Within b a <;> simp [hab, hba, verdict]

end QueryPlanner.Pathkeys
