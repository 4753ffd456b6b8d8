/-
  QueryPlanner.Proofs.Operator.Comparison

  The six comparisons of a type, and what their links mean.

  The commutator of a comparison decides as the comparison does with its sides
  exchanged, and its negator decides the opposite of any two values that
  compare.  Both are again comparisons of the type, so estimates that follow
  the links of a catalog stay among the six.
-/

import Mathlib.Data.List.Nodup
import Mathlib.Data.List.Range
import QueryPlanner.Proofs.Datum.Order
import QueryPlanner.Proofs.Operator.Catalog

namespace QueryPlanner

/-! ## Comparisons -/

namespace Strategy

@[simp] theorem commutator_commutator (s : Strategy) : s.commutator.commutator = s := by
  cases s <;> rfl

theorem accepts_commutator (s : Strategy) (o : Ordering) :
    s.commutator.accepts o.swap = s.accepts o := by
  cases s <;> cases o <;> rfl

theorem accepts_negator (s : Strategy) (o : Ordering) : s.negator.accepts o = !s.accepts o := by
  cases s <;> cases o <;> rfl

/-- The comparison is one of an order, no equality and no inequality. -/
def IsRange (s : Strategy) : Prop := s ≠ .equal ∧ s ≠ .notEqual

instance (s : Strategy) : Decidable s.IsRange := inferInstanceAs (Decidable (_ ∧ _))

/-- The comparison keeps the greater values. -/
def keepsGreater : Strategy → Bool
  | .greater | .greaterEqual => true
  | _ => false

theorem IsRange.commutator {s : Strategy} (h : s.IsRange) : s.commutator.IsRange := by
  cases s <;> revert h <;> decide

theorem IsRange.negator {s : Strategy} (h : s.IsRange) : s.negator.IsRange := by
  cases s <;> revert h <;> decide

theorem IsRange.keepsGreater_commutator {s : Strategy} (h : s.IsRange) :
    s.commutator.keepsGreater = !s.keepsGreater := by
  cases s <;> revert h <;> decide

theorem IsRange.keepsGreater_negator {s : Strategy} (h : s.IsRange) :
    s.negator.keepsGreater = !s.keepsGreater := by
  cases s <;> revert h <;> decide

/-- Following both links, either may come first. -/
theorem negator_commutator (s : Strategy) : s.commutator.negator = s.negator.commutator := by
  cases s <;> rfl

end Strategy

namespace Procedure

variable {α : Type} [Number α] (s : Strategy) (l r : Datum α)

theorem holds_commutator [Number.Ordered α] :
    (ordering s.commutator).holds r l = (ordering s).holds l r := by
  rw [holds, holds, Datum.compare?_swap l r]
  cases l.compare? r with
  | none => rfl
  | some o => exact s.accepts_commutator o

variable {l r} in
theorem holds_negator (h : (l.compare? r).isSome = true) :
    (ordering s.negator).holds l r = !(ordering s).holds l r := by
  rw [holds, holds]
  obtain ⟨o, ho⟩ := Option.isSome_iff_exists.mp h
  rw [ho]
  exact s.accepts_negator o

end Procedure

/-! ## Catalogs -/

/-- The operator is one of the six comparisons. -/
def Operator.IsComparison {α : Type} (op : Operator α) (s : Strategy) : Prop :=
  op.procedure = .ordering s

namespace OperatorCatalog

variable {α : Type} {c : OperatorCatalog α} {op : Operator α} {type : DataType} {s : Strategy}
  {base : Oid} {engine : RegexEngine}

/-- The built-in comparisons of a type are in the catalog, and none is hidden
by an operator registered later. -/
def Compares (c : OperatorCatalog α) (engine : RegexEngine) (type : DataType) : Prop :=
  ∀ op ∈ (builtin engine : OperatorCatalog α).operators, ∀ s, op.IsComparison s →
    op.left = type → c.get? op.oid = some op

/-- The six comparisons of a type are in the catalog, with identifiers from a
base on. -/
def HasSix (c : OperatorCatalog α) (base : Oid) (type : DataType) : Prop :=
  ∀ s, c.get? (base + strategyOffset s) = some (comparison base type s)

theorem HasSix.commutator? (h : c.HasSix base type) (s : Strategy) :
    c.commutator? (base + strategyOffset s) = some (base + strategyOffset s.commutator) := by
  rw [OperatorCatalog.commutator?, h s]
  rfl

theorem HasSix.negator? (h : c.HasSix base type) (s : Strategy) :
    c.negator? (base + strategyOffset s) = some (base + strategyOffset s.negator) := by
  rw [OperatorCatalog.negator?, h s]
  rfl

/-- The six comparisons of a type have identifiers of their own. -/
theorem HasSix.oid_inj (h : c.HasSix base type) {s t : Strategy}
    (hst : base + strategyOffset s = base + strategyOffset t) : s = t := by
  have hop : (comparison base type s : Operator α) = comparison base type t := by
    apply Option.some.inj
    rw [← h s, ← h t, hst]
  have hprocedure : (comparison base type s : Operator α).procedure =
      (comparison base type t).procedure := by rw [hop]
  cases hprocedure
  rfl

/-- A built-in comparison is one of six. -/
theorem Compares.hasSix (h : c.Compares engine op.left)
    (hop : op ∈ (builtin engine : OperatorCatalog α).operators) (hs : op.IsComparison s) :
    ∃ base type, op = comparison base type s ∧ c.HasSix base type := by
  rcases mem_builtin_cases hop with ⟨base, type, s', rfl, hall⟩ |
    ⟨base, left, right, kind, negated, rfl, -⟩
  · cases hs
    exact ⟨base, type, rfl, fun s' => h _ (hall s') s' rfl rfl⟩
  · cases hs

/-- The identifiers of the built-in operators are given out one by one. -/
theorem oids_builtinOperators : (builtinOperators engine : List (Operator α)).map (·.oid) =
    (List.range 172).map fun i => firstOid + UInt32.ofNat i := by
  rfl

theorem nodup_oids_builtin :
    ((builtin engine : OperatorCatalog α).operators.map (·.oid)).Nodup := by
  rw [builtin, List.map_reverse, List.nodup_reverse, oids_builtinOperators]
  refine List.Nodup.map_on (fun i hi j hj h => ?_) List.nodup_range
  have hnat := congrArg UInt32.toNat h
  have hfirst : firstOid.toNat = 1000 := rfl
  simp only [UInt32.toNat_add, UInt32.toNat_ofNat', hfirst] at hnat
  rw [List.mem_range] at hi hj
  omega

theorem get?_of_mem_builtin (hop : op ∈ (builtin engine : OperatorCatalog α).operators) :
    (builtin engine : OperatorCatalog α).get? op.oid = some op := by
  rw [get?]
  cases hfind : (builtin engine : OperatorCatalog α).operators.find?
      fun op' => op'.oid == op.oid with
  | none => exact absurd (beq_self_eq_true op.oid) (List.find?_eq_none.mp hfind op hop)
  | some op' =>
      have hmem := List.mem_of_find?_eq_some hfind
      have hoid : op'.oid = op.oid := by simpa using List.find?_some hfind
      rw [List.inj_on_of_nodup_map nodup_oids_builtin hmem hop hoid]

/-- The built-in catalog hides no operator. -/
theorem compares_builtin (type : DataType) :
    (builtin engine : OperatorCatalog α).Compares engine type :=
  fun _ hop _ _ _ => get?_of_mem_builtin hop

end OperatorCatalog

end QueryPlanner
