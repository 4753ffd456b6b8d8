/-
  QueryPlanner.Proofs.Selectivity.Probability

  Every estimate of a clause is a probability.

  Statistics are read as they come: frequencies and null fractions may be of
  any size, and so may the defaults.  An estimate of an operator, a test or a
  conjunction is moved into `[0, 1]` at its end; negation and disjunction,
  which are not, lead from probabilities to probabilities.

  What this takes of the numbers is `Number.Probabilities`, which exact
  rationals have with any logarithm.
-/

import Mathlib.Tactic.Linarith
import Mathlib.Tactic.Ring
import QueryPlanner.Pattern.Regex.Engine
import QueryPlanner.Proofs.PlanM
import QueryPlanner.Selectivity.Clause

namespace QueryPlanner

open PlanM

/-! ## Probabilities -/

/-- The number lies in `[0, 1]`. -/
def IsProbability {α : Type} [Number α] (f : α) : Prop := 0 ≤ f ∧ f ≤ 1

/-- The numbers in `[0, 1]` are closed under what estimates do with them. -/
class Number.Probabilities (α : Type) [Number α] : Prop where
  zero : IsProbability (0 : α)
  one : IsProbability (1 : α)
  guess : IsProbability (Selectivity.functionFraction : α)
  clamp (f : α) : IsProbability (clampProbability f)
  complement {f : α} : IsProbability f → IsProbability (1 - f)
  either {f g : α} : IsProbability f → IsProbability g → IsProbability (Selectivity.either f g)

namespace Number

/-- Among rationals a probability is a number from zero to one. -/
theorem isProbability_rational_iff {log2 : Rat → Rat} {f : Rat} :
    @IsProbability Rat (rational log2) f ↔ 0 ≤ f ∧ f ≤ 1 := by
  show ((0 : Int) : Rat) ≤ f ∧ f ≤ ((1 : Int) : Rat) ↔ _
  rw [Int.cast_zero, Int.cast_one]

/-- Both of two independent events fail to happen as seldom as any event. -/
theorem complement_either (f g : Rat) : 1 - (f + g - f * g) = (1 - f) * (1 - g) := by ring

theorem probabilities_rational (log2 : Rat → Rat) : @Probabilities Rat (rational log2) :=
  letI := rational log2
  { zero := isProbability_rational_iff.mpr ⟨le_refl 0, zero_le_one⟩
    one := isProbability_rational_iff.mpr ⟨zero_le_one, le_refl 1⟩
    guess := by
      rw [isProbability_rational_iff]
      show 0 ≤ ((3333333 : Nat) / (Nat.pow 10 7 : Nat) : Rat) ∧
        ((3333333 : Nat) / (Nat.pow 10 7 : Nat) : Rat) ≤ 1
      constructor <;> norm_num
    clamp := by
      intro f
      rw [isProbability_rational_iff]
      have hclamp : clampProbability f = if f < 0 then 0 else if 1 < f then 1 else f := rfl
      rw [hclamp]
      split_ifs with hlow hhigh
      · exact ⟨le_refl 0, zero_le_one⟩
      · exact ⟨zero_le_one, le_refl 1⟩
      · exact ⟨not_lt.mp hlow, not_lt.mp hhigh⟩
    complement := by
      intro f hf
      rw [isProbability_rational_iff] at hf ⊢
      show 0 ≤ ((1 : Int) : Rat) - f ∧ ((1 : Int) : Rat) - f ≤ 1
      rw [Int.cast_one]
      exact ⟨by linarith, by linarith⟩
    either := by
      intro f g hf hg
      rw [isProbability_rational_iff] at hf hg ⊢
      show 0 ≤ f + g - f * g ∧ f + g - f * g ≤ 1
      have hneither := complement_either f g
      have hlow : 0 ≤ (1 - f) * (1 - g) := mul_nonneg (by linarith) (by linarith)
      have hhigh : (1 - f) * (1 - g) ≤ 1 := mul_le_one₀ (by linarith) (by linarith) (by linarith)
      exact ⟨by linarith, by linarith⟩ }

end Number

namespace Selectivity

open Number (Probabilities)

variable {α : Type} [Number α] {p : Planner α} {e : Expr α} {args : List (Expr α)} {opno : Oid}
  {var : Option RtIndex} {type : JoinType} {f : α}

/-! ## Estimates that are clamped -/

section Clamped

variable [Probabilities α]

/-- What ends with a clamp is a probability. -/
theorem isProbability_of_bind_clamp {β : Type} {x : Except (PlanError α) β} {g : β → α}
    (h : (x >>= fun b => pure (clampProbability (g b))) = .ok f) : IsProbability f := by
  obtain ⟨b, -, h⟩ := except_bind_eq_ok.mp h
  cases h
  exact Probabilities.clamp (g b)

theorem isProbability_restriction (h : restriction p opno args var = .ok f) :
    IsProbability f := by
  obtain ⟨op, -, h⟩ := except_bind_eq_ok.mp h
  dsimp only at h
  split at h <;> exact isProbability_of_bind_clamp (g := id) h

theorem isProbability_joinClause (h : joinClause p opno args type = .ok f) :
    IsProbability f := by
  obtain ⟨op, -, h⟩ := except_bind_eq_ok.mp h
  dsimp only at h
  split at h <;> exact isProbability_of_bind_clamp (g := id) h

theorem isProbability_nullTest {test : NullTest} (h : nullTest p test e var = .ok f) :
    IsProbability f :=
  isProbability_of_bind_clamp h

theorem isProbability_boolTest {test : BoolTest} {plain : Unit → Except (PlanError α) α}
    (h : boolTest p test e var plain = .ok f) : IsProbability f := by
  obtain ⟨v, -, h⟩ := except_bind_eq_ok.mp h
  split at h
  · cases h
    exact Probabilities.clamp _
  · cases test with
    | isUnknown | isNotUnknown =>
        cases h
        exact Probabilities.clamp _
    | isTrue | isNotFalse => exact isProbability_of_bind_clamp (g := id) h
    | isFalse | isNotTrue => exact isProbability_of_bind_clamp h

theorem isProbability_together {clauses : List (Expr α × α)}
    (h : together p var clauses = .ok f) : IsProbability f :=
  isProbability_of_bind_clamp (g := id) h

theorem isProbability_booleanColumn {v : Var} (h : booleanColumn p v var = .ok f) :
    IsProbability f := by
  obtain ⟨entry, -, h⟩ := except_bind_eq_ok.mp h
  split at h
  · cases h
    exact Probabilities.one
  · split at h
    · cases h
    · exact isProbability_restriction h

end Clamped

/-! ## Clauses -/

/-- A disjunction of probabilities is one. -/
theorem isProbability_foldl_either [Probabilities α] {fs : List α} (hfs : ∀ g ∈ fs, IsProbability g)
    (hf : IsProbability f) : IsProbability (fs.foldl either f) := by
  induction fs generalizing f with
  | nil => exact hf
  | cons g rest ih =>
      have hg : IsProbability g := hfs g List.mem_cons_self
      exact ih (fun x hx => hfs x (List.mem_cons_of_mem g hx)) (Probabilities.either hf hg)

mutual

/-- A clause is taken apart as its estimate is; only negation and disjunction
rest on the estimates of their parts. -/
theorem isProbability_clause [Probabilities α] :
    ∀ (e : Expr α) {f : α}, clause p var type e = .ok f → IsProbability f
  | .var v, f, h => by
      rw [clause] at h
      split at h
      · exact isProbability_booleanColumn h
      · cases h
        exact Probabilities.one
  | .const t value, f, h => by
      by_cases htrue : value = some (.bool true)
      · rw [htrue, clause] at h
        cases h
        exact Probabilities.one
      · rw [clause] at h
        · cases h
          exact Probabilities.zero
        · exact htrue
  | .relabel a _ _, f, h => by
      rw [clause] at h
      exact isProbability_clause a h
  | .func .., f, h => by
      rw [clause] at h
      cases h
      exact Probabilities.guess
  | .op opno args, f, h => by
      rw [clause] at h
      split at h
      · exact isProbability_joinClause h
      · exact isProbability_restriction h
  | .boolTest test a, f, h => by
      rw [clause] at h
      exact isProbability_boolTest h
  | .nullTest test a, f, h => by
      rw [clause] at h
      exact isProbability_nullTest h
  | .and args, f, h => by
      rw [clause] at h
      obtain ⟨fs, -, h⟩ := except_bind_eq_ok.mp h
      exact isProbability_together h
  | .or args, f, h => by
      rw [clause] at h
      obtain ⟨fs, hfs, h⟩ := except_bind_eq_ok.mp h
      cases h
      exact isProbability_foldl_either (isProbability_each args hfs) Probabilities.zero
  | .not a, f, h => by
      rw [clause] at h
      obtain ⟨g, hg, h⟩ := except_bind_eq_ok.mp h
      cases h
      exact Probabilities.complement (isProbability_clause a hg)

theorem isProbability_each [Probabilities α] : ∀ (es : List (Expr α)) {fs : List α},
    each p var type es = .ok fs → ∀ f ∈ fs, IsProbability f
  | [], fs, h => by
      rw [each] at h
      cases h
      exact nofun
  | e :: rest, fs, h => by
      rw [each] at h
      obtain ⟨f, hf, h⟩ := except_bind_eq_ok.mp h
      obtain ⟨gs, hgs, h⟩ := except_bind_eq_ok.mp h
      cases h
      exact List.forall_mem_cons.mpr ⟨isProbability_clause e hf, isProbability_each rest hgs⟩

end

/-! ## All estimates -/

/-- The number is the estimate of a clause, of a list of clauses, or of an
operator in a restriction or a join. -/
inductive Estimates (p : Planner α) (var : Option RtIndex) (type : JoinType) (f : α) : Prop where
  | clause (e : Expr α) (h : clause p var type e = .ok f)
  | clauseList (es : List (Expr α)) (h : clauseList p es var type = .ok f)
  | restriction (opno : Oid) (args : List (Expr α)) (h : restriction p opno args var = .ok f)
  | joinClause (opno : Oid) (args : List (Expr α)) (h : joinClause p opno args type = .ok f)

theorem Estimates.isProbability [Probabilities α] (h : Estimates p var type f) :
    IsProbability f := by
  cases h with
  | clause e h => exact isProbability_clause e h
  | clauseList es h =>
      obtain ⟨fs, -, h⟩ := except_bind_eq_ok.mp h
      exact isProbability_together h
  | restriction opno args h => exact isProbability_restriction h
  | joinClause opno args h => exact isProbability_joinClause h

/-- In exact numbers every estimate lies in `[0, 1]`, whatever the settings
and the statistics of the session. -/
theorem estimates_mem_unit (log2 : Rat → Rat) (p : Planner Rat) (var : Option RtIndex)
    (type : JoinType) (f : Rat) :
    letI := Number.rational log2
    Estimates p var type f → 0 ≤ f ∧ f ≤ 1 := by
  let _ := Number.rational log2
  have hnumbers := Number.probabilities_rational log2
  exact fun h => Number.isProbability_rational_iff.mp h.isProbability

/-- A column with more nulls than rows, and with a value more frequent than
any can be. -/
def overfullColumn : ColumnStatistics Rat where
  nullFraction := 5 / 2
  averageWidth := 4
  distinct := -3
  slots := [⟨.mcv, 1012, [.int4 5], [4]⟩]

/-- The session over the column. -/
def overfull : Planner Rat :=
  letI := Number.rational id
  (Planner.start .standard (.builtin Regex.engine) Catalog.empty.source
    ⟨fun _ _ => some overfullColumn, fun _ _ => none⟩
    [.stored 7]).addRelation (Relation.blank 0 .base (RelSet.singleton 1))

/-- `a IS NOT NULL OR a = 5` -/
def presentOrFive : Expr Rat :=
  .or [.nullTest .isNotNull (.var ⟨1, 1, .int4, -1⟩),
    .op 1012 [.var ⟨1, 1, .int4, -1⟩, .const .int4 (some (.int4 5))]]

theorem estimates_mem_unit_presentOrFive :
    letI := Number.rational id
    ∃ f, Estimates overfull none .inner f ∧ 0 ≤ f ∧ f ≤ 1 := by
  let _ := Number.rational id
  have hrun : (clause overfull none .inner presentOrFive).toOption = some 1 := by decide +kernel
  have hestimate : Estimates overfull none .inner 1 := by
    refine .clause presentOrFive ?_
    cases hclause : clause overfull none .inner presentOrFive with
    | ok f =>
        rw [hclause] at hrun
        rw [Option.some.inj hrun]
    | error e =>
        rw [hclause] at hrun
        cases hrun
  exact ⟨1, hestimate, estimates_mem_unit id overfull none .inner 1 hestimate⟩

end Selectivity

end QueryPlanner
