/-
  QueryPlanner.Proofs.Path.Dominance

  When one path makes another superfluous.

  A path dominates another that it undercuts in neither cost nor order:
  starting no later, finishing no later, and ordered at least as well.  The
  planner never compares costs that way; it orders paths by one cost first
  and by the other where that ties.  The two notions are tied together here:
  costs are no higher exactly if neither criterion finds them higher
  (`costLe_iff`), and so a new path that meets an old one is dropped, or
  drops it, by dominance alone (`meet_eq`).
-/

import QueryPlanner.Path
import QueryPlanner.Proofs.Number
import QueryPlanner.Proofs.Pathkeys

namespace QueryPlanner

/-- Smaller in front, or as small in front and no larger behind. -/
def LexLe {α : Type} [Number α] (x y : α × α) : Prop :=
  x.1 < y.1 ∨ Number.equal x.1 y.1 = true ∧ x.2 ≤ y.2

section LexLe

variable {α : Type} [Number α] [Number.Ordered α] {x y z : α × α}

theorem lexLe_iff : LexLe x y ↔ x.1 ≤ y.1 ∧ (y.1 ≤ x.1 → x.2 ≤ y.2) := by
  rw [LexLe, Number.Ordered.lt_iff, Number.equal_iff]
  by_cases hxy : x.1 ≤ y.1 <;> by_cases hyx : y.1 ≤ x.1 <;> simp [hxy, hyx]

theorem LexLe.trans (hxy : LexLe x y) (hyz : LexLe y z) : LexLe x z := by
  rw [lexLe_iff] at hxy hyz ⊢
  refine ⟨Number.Ordered.le_trans hxy.1 hyz.1, fun hzx => ?_⟩
  have hyx : y.1 ≤ x.1 := Number.Ordered.le_trans hyz.1 hzx
  have hzy : z.1 ≤ y.1 := Number.Ordered.le_trans hzx hxy.1
  exact Number.Ordered.le_trans (hxy.2 hyx) (hyz.2 hzy)

end LexLe

namespace Path

variable {α : Type} [Number α]

/-- Both costs are numbers. -/
def IsCosted (p : Path α) : Prop :=
  Number.isNaN p.startup = false ∧ Number.isNaN p.total = false

instance (p : Path α) : Decidable (IsCosted p) := inferInstanceAs (Decidable (_ ∧ _))

/-- No cost of a path is above that of another. -/
def CostLe (p q : Path α) : Prop := p.startup ≤ q.startup ∧ p.total ≤ q.total

/-- A path is at no point dearer than another and delivers its order. -/
structure Dominates (p q : Path α) : Prop where
  startup : p.startup ≤ q.startup
  total : p.total ≤ q.total
  order : Pathkeys.satisfies p.pathkeys q.pathkeys = true

/-- The costs of a path, the one that a criterion looks at in front. -/
def costs (criterion : CostCriterion) (p : Path α) : α × α :=
  match criterion with
  | .startup => (p.startup, p.total)
  | .total => (p.total, p.startup)

variable {p q r new old : Path α} {criterion : CostCriterion}

theorem dominates_iff :
    Dominates p q ↔ CostLe p q ∧ Pathkeys.Within q.pathkeys p.pathkeys := by
  rw [← Pathkeys.containedIn_iff]
  exact ⟨fun h => ⟨⟨h.startup, h.total⟩, h.order⟩, fun h => ⟨h.1.1, h.1.2, h.2⟩⟩

instance : Decidable (Dominates p q) :=
  decidable_of_iff (p.startup ≤ q.startup ∧ p.total ≤ q.total ∧
    Pathkeys.satisfies p.pathkeys q.pathkeys = true)
    ⟨fun h => ⟨h.1, h.2.1, h.2.2⟩, fun h => ⟨h.startup, h.total, h.order⟩⟩

theorem IsCosted.startup_le (h : IsCosted p) : p.startup ≤ p.startup :=
  Number.isNaN_eq_false_iff.mp h.1

theorem IsCosted.total_le (h : IsCosted p) : p.total ≤ p.total :=
  Number.isNaN_eq_false_iff.mp h.2

theorem Dominates.refl (h : IsCosted p) : Dominates p p :=
  dominates_iff.mpr ⟨⟨h.startup_le, h.total_le⟩, .refl p.pathkeys⟩

/-- Both criteria find two paths alike, or neither does. -/
theorem compareCosts_total_eq_iff (p q : Path α) :
    compareCosts .total p q = .eq ↔ compareCosts .startup p q = .eq := by
  simp only [compareCosts, Ordering.then_eq_eq]
  exact And.comm

variable [Number.Ordered α]

theorem CostLe.trans (hpq : CostLe p q) (hqr : CostLe q r) : CostLe p r :=
  ⟨Number.Ordered.le_trans hpq.1 hqr.1, Number.Ordered.le_trans hpq.2 hqr.2⟩

theorem Dominates.trans (hpq : Dominates p q) (hqr : Dominates q r) : Dominates p r := by
  rw [dominates_iff] at hpq hqr ⊢
  exact ⟨hpq.1.trans hqr.1, hqr.2.trans hpq.2⟩

/-! ## Costs by a criterion -/

theorem compareCost_eq {a b : α} (ha : a ≤ a) (hb : b ≤ b) :
    compareCost a b = if a ≤ b then if b ≤ a then .eq else .lt else .gt := by
  rw [compareCost, Number.compare?_eq_some ha hb, Option.getD_some]

theorem compareCost_swap {a b : α} (ha : a ≤ a) (hb : b ≤ b) :
    (compareCost a b).swap = compareCost b a := by
  rw [compareCost_eq ha hb, compareCost_eq hb ha]
  have h := Number.Ordered.le_total ha hb
  by_cases hab : a ≤ b <;> by_cases hba : b ≤ a <;> simp_all

theorem compareCosts_swap (hp : IsCosted p) (hq : IsCosted q) :
    (compareCosts criterion p q).swap = compareCosts criterion q p := by
  cases criterion <;>
    simp only [compareCosts, Ordering.swap_then, compareCost_swap hp.startup_le hq.startup_le,
      compareCost_swap hp.total_le hq.total_le]

theorem then_compareCost_ne_gt_iff {a b c d : α} (ha : a ≤ a) (hb : b ≤ b) (hc : c ≤ c)
    (hd : d ≤ d) :
    (compareCost a b).then (compareCost c d) ≠ .gt ↔ LexLe (a, c) (b, d) := by
  rw [compareCost_eq ha hb, compareCost_eq hc hd, lexLe_iff]
  by_cases hab : a ≤ b <;> by_cases hba : b ≤ a <;> by_cases hcd : c ≤ d <;>
    by_cases hdc : d ≤ c <;> simp_all

/-- A criterion finds one path no worse than another by the order of pairs. -/
theorem compareCosts_ne_gt_iff (hp : IsCosted p) (hq : IsCosted q) :
    compareCosts criterion p q ≠ .gt ↔ LexLe (p.costs criterion) (q.costs criterion) := by
  cases criterion with
  | startup =>
    exact then_compareCost_ne_gt_iff hp.startup_le hq.startup_le hp.total_le hq.total_le
  | total =>
    exact then_compareCost_ne_gt_iff hp.total_le hq.total_le hp.startup_le hq.startup_le

theorem CostLe.lexLe (h : CostLe p q) : LexLe (p.costs criterion) (q.costs criterion) := by
  cases criterion with
  | startup => exact lexLe_iff.mpr ⟨h.1, fun _ => h.2⟩
  | total => exact lexLe_iff.mpr ⟨h.2, fun _ => h.1⟩

/-- Costs are no higher exactly if neither criterion finds them higher. -/
theorem costLe_iff (hp : IsCosted p) (hq : IsCosted q) :
    CostLe p q ↔ compareCosts .total p q ≠ .gt ∧ compareCosts .startup p q ≠ .gt := by
  rw [compareCosts_ne_gt_iff hp hq, compareCosts_ne_gt_iff hp hq]
  constructor
  · intro h
    exact ⟨h.lexLe, h.lexLe⟩
  · rintro ⟨ht, hs⟩
    exact ⟨(lexLe_iff.mp hs).1, (lexLe_iff.mp ht).1⟩

/-! ## A new path meets an old one -/

/-- The old path refuses a new one that it dominates, and gives way to any
other that dominates it. -/
theorem meet_eq (hn : IsCosted new) (ho : IsCosted old) :
    meet new old =
      if Dominates old new then .dropNew else if Dominates new old then .dropOld
      else .keepBoth := by
  have hno := costLe_iff hn ho
  have hon := costLe_iff ho hn
  rw [← compareCosts_swap hn ho, ← compareCosts_swap hn ho] at hon
  have heq := compareCosts_total_eq_iff new old
  simp only [dominates_iff, hno, hon, meet, Pathkeys.compare_eq]
  -- Four outcomes for the orders, and three for the costs by each criterion.
  generalize compareCosts .total new old = t at *
  generalize compareCosts .startup new old = s at *
  by_cases h₁ : Pathkeys.Within new.pathkeys old.pathkeys <;>
    by_cases h₂ : Pathkeys.Within old.pathkeys new.pathkeys <;>
    cases t <;> cases s <;> simp_all [Pathkeys.verdict]

end Path

end QueryPlanner
