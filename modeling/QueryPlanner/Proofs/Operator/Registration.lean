/-
  QueryPlanner.Proofs.Operator.Registration

  What a catalog finds after any sequence of registrations.

  By identifier and by name alike the catalog answers with the last operator
  registered.  The two last ones need not be the same: an identifier given out
  again leaves the name of its former operator behind, and that name then leads
  to the operator that took the identifier.
-/

import QueryPlanner.Pattern.Regex.Engine
import QueryPlanner.Proofs.Operator.Catalog

namespace QueryPlanner

variable {α : Type}

/-- The operator goes by a name between operands of two types. -/
def Operator.IsNamed (op : Operator α) (name : String) (left right : DataType) : Prop :=
  op.name = name ∧ op.left = left ∧ op.right = right

instance (op : Operator α) (name : String) (left right : DataType) :
    Decidable (op.IsNamed name left right) :=
  inferInstanceAs (Decidable (_ ∧ _ ∧ _))

/-- `op` is the last of some operators with a property, and `later` stand behind
it. -/
structure Operator.IsLast (P : Operator α → Prop) (ops : List (Operator α)) (op : Operator α)
    (later : List (Operator α)) : Prop where
  suffix : op :: later <:+ ops
  holds : P op
  not_later : ∀ other ∈ later, ¬ P other

namespace Operator

variable {P Q : Operator α → Prop} {ops later later' : List (Operator α)} {op op' : Operator α}

/-- Of two last operators, with one property each, one stands behind the other,
unless they are the same. -/
theorem IsLast.eq_or_mem (h : IsLast P ops op later) (h' : IsLast Q ops op' later') :
    (op' = op ∧ later' = later) ∨ op' ∈ later ∨ (op ∈ later' ∧ ∀ other ∈ later, other ∈ later') := by
  rcases List.suffix_or_suffix_of_suffix h.suffix h'.suffix with hle | hle
  · rcases List.suffix_cons_iff.mp hle with heq | hlater
    · exact .inl ⟨(List.cons.inj heq).1.symm, (List.cons.inj heq).2.symm⟩
    · exact .inr (.inr ⟨hlater.subset List.mem_cons_self,
        fun other hother => hlater.subset (List.mem_cons_of_mem op hother)⟩)
  · rcases List.suffix_cons_iff.mp hle with heq | hlater
    · exact .inl (List.cons.inj heq)
    · exact .inr (.inl (hlater.subset List.mem_cons_self))

/-- Searching from the end finds the last one. -/
theorem find?_reverse_eq_some_iff {p : Operator α → Bool} :
    ops.reverse.find? p = some op ↔ ∃ later, IsLast (fun other => p other = true) ops op later := by
  rw [List.find?_eq_some_iff_append]
  constructor
  · rintro ⟨hop, front, back, hsplit, hfront⟩
    have hops : ops = back.reverse ++ op :: front.reverse := by
      rw [← List.reverse_reverse ops, hsplit, List.reverse_append, List.reverse_cons,
        List.append_assoc, List.singleton_append]
    refine ⟨front.reverse, ⟨back.reverse, hops.symm⟩, hop, fun other hother => ?_⟩
    rw [Bool.not_eq_true, ← Bool.not_eq_true']
    exact hfront other (List.mem_reverse.mp hother)
  · rintro ⟨later, ⟨before, rfl⟩, hop, hlater⟩
    refine ⟨hop, later.reverse, before.reverse, ?_, fun other hother => ?_⟩
    · rw [List.reverse_append, List.reverse_cons, List.append_assoc, List.singleton_append]
    · rw [Bool.not_eq_true', ← Bool.not_eq_true]
      exact hlater other (List.mem_reverse.mp hother)

theorem find?_reverse_eq_none_iff {p : Operator α → Bool} :
    ops.reverse.find? p = none ↔ ∀ op ∈ ops, ¬ p op = true := by
  simp only [List.find?_eq_none, List.mem_reverse]

end Operator

namespace OperatorCatalog

open Operator (IsLast)

variable {c : OperatorCatalog α} {opno : Oid} {op : Operator α} {name : String}
  {left right : DataType}

/-- The operators in the order of their registration. -/
def history (c : OperatorCatalog α) : List (Operator α) := c.operators.reverse

/-- The catalog after a sequence of registrations. -/
def registerAll (c : OperatorCatalog α) (ops : List (Operator α)) : OperatorCatalog α :=
  ops.foldl register c

theorem history_register (c : OperatorCatalog α) (op : Operator α) :
    (c.register op).history = c.history ++ [op] :=
  List.reverse_cons

/-- Registering forgets nothing. -/
theorem history_registerAll (c : OperatorCatalog α) (ops : List (Operator α)) :
    (c.registerAll ops).history = c.history ++ ops := by
  induction ops generalizing c with
  | nil => exact (List.append_nil _).symm
  | cons op ops ih =>
      calc ((c.register op).registerAll ops).history
          = (c.register op).history ++ ops := ih _
        _ = c.history ++ op :: ops := by
          rw [history_register, List.append_assoc, List.singleton_append]

theorem operators_eq (c : OperatorCatalog α) : c.operators = c.history.reverse :=
  (List.reverse_reverse _).symm

/-! ## By identifier -/

theorem get?_eq_some_iff :
    c.get? opno = some op ↔ ∃ later, IsLast (·.oid = opno) c.history op later := by
  simp only [get?, operators_eq, Operator.find?_reverse_eq_some_iff, beq_iff_eq]

theorem get?_eq_none_iff : c.get? opno = none ↔ opno ∉ c.history.map (·.oid) := by
  simp only [get?, operators_eq, Operator.find?_reverse_eq_none_iff, beq_iff_eq, List.mem_map,
    not_exists, not_and]

theorem lookup_eq_ok_iff :
    c.lookup opno = .ok op ↔ ∃ later, IsLast (·.oid = opno) c.history op later := by
  rw [← get?_eq_some_iff, lookup]
  cases c.get? opno with
  | some found => simp only [Except.ok.injEq, Option.some.injEq]
  | none => simp only [reduceCtorEq]

theorem lookup_eq_error_iff :
    c.lookup opno = .error (.unknownOperator opno) ↔ opno ∉ c.history.map (·.oid) := by
  rw [← get?_eq_none_iff, lookup]
  cases c.get? opno with
  | some found => simp only [reduceCtorEq]
  | none => simp only

/-! ## By name -/

theorem find?_eq_some_iff :
    c.find? name left right = some opno ↔
      ∃ op later, IsLast (·.IsNamed name left right) c.history op later ∧ op.oid = opno := by
  simp only [find?, operators_eq, Option.map_eq_some_iff, Operator.find?_reverse_eq_some_iff,
    Bool.and_eq_true, beq_iff_eq, and_assoc, Operator.IsNamed, exists_and_right]

theorem find?_eq_none_iff :
    c.find? name left right = none ↔ ∀ op ∈ c.history, ¬ op.IsNamed name left right := by
  simp only [find?, operators_eq, Option.map_eq_none_iff, Operator.find?_reverse_eq_none_iff,
    Bool.and_eq_true, beq_iff_eq, and_assoc, Operator.IsNamed]

/-- The identifier found for a name leads back to an operator of the name,
unless it was given out again since. -/
theorem isNamed_iff_of_isLast {named : Operator α} {later : List (Operator α)}
    (hnamed : IsLast (·.IsNamed name left right) c.history named later)
    (hop : c.lookup named.oid = .ok op) :
    op.IsNamed name left right ↔ named.oid ∉ later.map (·.oid) := by
  obtain ⟨later', hlast⟩ := lookup_eq_ok_iff.mp hop
  constructor
  · intro hop' hmem
    obtain ⟨other, hother, hoid⟩ := List.mem_map.mp hmem
    rcases hnamed.eq_or_mem hlast with ⟨-, rfl⟩ | hlater | ⟨-, hlater⟩
    · exact hlast.not_later other hother hoid
    · exact hnamed.not_later op hlater hop'
    · exact hlast.not_later other (hlater other hother) hoid
  · intro hmem
    rcases hnamed.eq_or_mem hlast with ⟨rfl, -⟩ | hlater | ⟨hlater, -⟩
    · exact hnamed.holds
    · exact absurd (List.mem_map.mpr ⟨op, hlater, hlast.holds⟩) hmem
    · exact absurd rfl (hlast.not_later named hlater)

/-- While no identifier is given out twice, every name leads to its operator. -/
theorem exists_isNamed_of_nodup (hnodup : (c.history.map (·.oid)).Nodup)
    (hfind : c.find? name left right = some opno) :
    ∃ op, c.lookup opno = .ok op ∧ op.IsNamed name left right := by
  obtain ⟨named, later, hnamed, rfl⟩ := find?_eq_some_iff.mp hfind
  obtain ⟨op, hop⟩ := exists_lookup_of_find? hfind
  have hsuffix : (named.oid :: later.map (·.oid)) <:+ c.history.map (·.oid) := hnamed.suffix.map _
  exact ⟨op, hop, (isNamed_iff_of_isLast hnamed hop).mpr
    (List.nodup_cons.mp (hnodup.sublist hsuffix.sublist)).1⟩

/-! ## Fresh identifiers -/

instance : Std.LawfulOrderMax Oid where
  max_eq_or a b := by
    show (if a ≤ b then b else a) = a ∨ (if a ≤ b then b else a) = b
    split
    · exact .inr rfl
    · exact .inl rfl
  max_le_iff a b d := by
    show (if a ≤ b then b else a) ≤ d ↔ _
    simp only [UInt32.le_iff_toNat_le]
    split <;> omega

/-- With the greatest identifier in use there is no next one; otherwise there is,
and it is fresh. -/
theorem nextOid_cases :
    4294967295 ∈ c.history.map (·.oid) ∧ c.nextOid = .error .overflow ∨
      4294967295 ∉ c.history.map (·.oid) ∧
        ∃ opno, c.nextOid = .ok opno ∧ opno ∉ c.history.map (·.oid) := by
  have hoids : ∀ opno : Oid, opno ∈ c.history.map (·.oid) ↔ opno ∈ c.operators.map (·.oid) := by
    simp only [history, List.map_reverse, List.mem_reverse, implies_true]
  simp only [hoids, nextOid]
  cases hmax : (c.operators.map (·.oid)).max? with
  | none =>
      rw [List.max?_eq_none_iff.mp hmax]
      exact .inr ⟨List.not_mem_nil, firstOid, rfl, List.not_mem_nil⟩
  | some top =>
      obtain ⟨htop, hle⟩ := List.max?_eq_some_iff.mp hmax
      have hsize : UInt32.size = 4294967296 := rfl
      by_cases hlast : top = 4294967295
      · subst hlast
        exact .inl ⟨htop, rfl⟩
      · have hlt : top.toNat < 4294967295 := by
          have hne : top.toNat ≠ 4294967295 := fun h => hlast (UInt32.toNat_inj.mp h)
          have := top.toNat_lt
          omega
        refine .inr ⟨fun hmem => ?_, top + 1, if_pos (by omega), fun hmem => ?_⟩
        · exact absurd (UInt32.le_iff_toNat_le.mp (hle _ hmem)) (Nat.not_le.mpr hlt)
        · have hnext := UInt32.le_iff_toNat_le.mp (hle _ hmem)
          rw [UInt32.toNat_add] at hnext
          have hone : (1 : UInt32).toNat = 1 := rfl
          omega

/-! ## Any sequence of registrations -/

/-- After any registrations an identifier leads to the last operator registered
under it, and a name to the identifier of the last one of the name; the two are
the same operator exactly if the identifier was not given out again since.  A new
identifier is not in use, and there is one exactly if the greatest is not. -/
theorem registerAll_finds_last (start : OperatorCatalog α) (ops : List (Operator α)) :
    let c := start.registerAll ops
    let registered := start.history ++ ops
    (∀ opno op, c.lookup opno = .ok op ↔ ∃ later, IsLast (·.oid = opno) registered op later) ∧
    (∀ opno, c.lookup opno = .error (.unknownOperator opno) ↔ opno ∉ registered.map (·.oid)) ∧
    (∀ name left right, c.find? name left right = none ↔
      ∀ op ∈ registered, ¬ op.IsNamed name left right) ∧
    (∀ name left right opno, c.find? name left right = some opno →
      ∃ named later op, IsLast (·.IsNamed name left right) registered named later ∧
        named.oid = opno ∧ c.lookup opno = .ok op ∧
        (op.IsNamed name left right ↔ opno ∉ later.map (·.oid))) ∧
    (4294967295 ∈ registered.map (·.oid) ∧ c.nextOid = .error .overflow ∨
      4294967295 ∉ registered.map (·.oid) ∧
        ∃ opno, c.nextOid = .ok opno ∧ opno ∉ registered.map (·.oid)) := by
  rw [← history_registerAll]
  refine ⟨fun _ _ => lookup_eq_ok_iff, fun _ => lookup_eq_error_iff,
    fun _ _ _ => find?_eq_none_iff, fun name left right opno hfind => ?_, nextOid_cases⟩
  obtain ⟨named, later, hnamed, rfl⟩ := find?_eq_some_iff.mp hfind
  obtain ⟨op, hop⟩ := exists_lookup_of_find? hfind
  exact ⟨named, later, op, hnamed, rfl, hop, isNamed_iff_of_isLast hnamed hop⟩

/-- An operator on integers that always holds. -/
def constantOn (oid : Oid) (name : String) : Operator Float where
  oid := oid
  name := name
  left := .int4
  right := .int4
  procedure := .custom fun _ _ => true

theorem registerAll_finds_last_user :
    ((builtin Regex.engine : OperatorCatalog Float).registerAll [constantOn 5000 "near"]).find?
        "near" .int4 .int4 = some 5000 ∧
    ∃ op, ((builtin Regex.engine : OperatorCatalog Float).registerAll
        [constantOn 5000 "near"]).lookup 5000 = .ok op ∧ op.IsNamed "near" .int4 .int4 := by
  have hfind : ((builtin Regex.engine : OperatorCatalog Float).registerAll
      [constantOn 5000 "near"]).find? "near" .int4 .int4 = some 5000 := by decide
  obtain ⟨-, -, -, hfinds, -⟩ :=
    registerAll_finds_last (builtin Regex.engine) [constantOn 5000 "near"]
  obtain ⟨_, _, op, -, -, hop, -⟩ := hfinds _ _ _ _ hfind
  have hnear : op = constantOn 5000 "near" := (Except.ok.inj hop).symm
  exact ⟨hfind, op, hop, hnear ▸ by decide⟩

/-- An identifier given out again answers for the name of its former operator
too. -/
theorem find?_of_reused_oid :
    let c := (builtin Regex.engine : OperatorCatalog Float).registerAll
      [constantOn 5000 "near", constantOn 5000 "far"]
    c.find? "near" .int4 .int4 = some 5000 ∧
      ∃ op, c.lookup 5000 = .ok op ∧ ¬ op.IsNamed "near" .int4 .int4 :=
  ⟨by decide, constantOn 5000 "far", rfl, by decide⟩

end OperatorCatalog

end QueryPlanner
