/-
  QueryPlanner.Proofs.Operator.Catalog

  The built-in operators are complete.

  An operator names others: the one with its sides exchanged, the opposite
  one, and those that a merge needs.  In the built-in catalog each of these is
  one of the operators of the same type, so following them never leads out of
  the catalog.
-/

import QueryPlanner.Operator.Catalog

namespace QueryPlanner

variable {α : Type} {opno : Oid} {op : Operator α}

/-- The operators that an operator names. -/
def Operator.references (op : Operator α) : List Oid :=
  op.commutator.toList ++ op.negator.toList ++
    op.merge.toList.flatMap fun m => [m.leftSort, m.rightSort, m.less, m.greater]

namespace OperatorCatalog

variable {c : OperatorCatalog α} {engine : RegexEngine}

theorem mem_of_get? (h : c.get? opno = some op) : op ∈ c.operators ∧ op.oid = opno := by
  rw [get?] at h
  have hoid := List.find?_some h
  exact ⟨List.mem_of_find?_eq_some h, beq_iff_eq.mp hoid⟩

theorem lookup_of_get? (h : c.get? opno = some op) : c.lookup opno = .ok op := by
  rw [lookup, h]

theorem exists_lookup (h : opno ∈ c.operators.map (·.oid)) : ∃ op, c.lookup opno = .ok op := by
  obtain ⟨op, hop, rfl⟩ := List.mem_map.mp h
  rw [lookup]
  cases hget : c.get? op.oid with
  | some op' => exact ⟨op', rfl⟩
  | none => exact absurd (beq_self_eq_true op.oid) (List.find?_eq_none.mp hget op hop)

/-- Every operator that one of the catalog names is in the catalog. -/
def Closed (c : OperatorCatalog α) : Prop :=
  ∀ op ∈ c.operators, ∀ opno ∈ op.references, opno ∈ c.operators.map (·.oid)

/-- What an operator of a closed catalog names is found. -/
theorem Closed.exists_lookup {other : Oid} (h : c.Closed) (hop : c.get? opno = some op)
    (hother : other ∈ op.references) : ∃ op', c.lookup other = .ok op' :=
  OperatorCatalog.exists_lookup (h op (mem_of_get? hop).1 other hother)

theorem Closed.exists_negator {other : Oid} (h : c.Closed) (hneg : c.negator? opno = some other) :
    ∃ op', c.lookup other = .ok op' := by
  obtain ⟨op, hop, hneg⟩ := Option.bind_eq_some_iff.mp hneg
  refine h.exists_lookup hop ?_
  rw [Operator.references, hneg]
  exact List.mem_append_left _ (List.mem_append_right _ List.mem_cons_self)

theorem Closed.exists_commutator {other : Oid} (h : c.Closed)
    (hcomm : c.commutator? opno = some other) : ∃ op', c.lookup other = .ok op' := by
  obtain ⟨op, hop, hcomm⟩ := Option.bind_eq_some_iff.mp hcomm
  refine h.exists_lookup hop ?_
  rw [Operator.references, hcomm]
  exact List.mem_append_left _ (List.mem_append_left _ List.mem_cons_self)

/-- What is found by name is found by its identifier as well. -/
theorem exists_lookup_of_find? {name : String} {left right : DataType}
    (h : c.find? name left right = some opno) : ∃ op, c.lookup opno = .ok op := by
  obtain ⟨op, hop, rfl⟩ := Option.map_eq_some_iff.mp h
  exact exists_lookup (List.mem_map_of_mem (List.mem_of_find?_eq_some hop))

/-! ## Built-in operators -/

/-- Every type has its six comparisons. -/
theorem exists_find?_comparison (engine : RegexEngine) (type : DataType) (s : Strategy) :
    ∃ opno, (builtin engine : OperatorCatalog α).find? s.symbol type type = some opno := by
  have htype : type ∈ DataType.all := by cases type <;> decide
  have hs : s ∈ Strategy.all := by cases s <;> decide
  obtain ⟨i, hi⟩ := List.mem_iff_getElem?.mp htype
  have hmem : comparison (firstOid + 6 * UInt32.ofNat i) type s ∈
      (builtin engine : OperatorCatalog α).operators := by
    simp only [builtin, List.mem_reverse, builtinOperators, List.mem_append, List.mem_flatMap]
    exact .inl ⟨(type, i), List.mem_zipIdx_iff_getElem?.mpr hi, List.mem_map_of_mem hs⟩
  rw [find?]
  cases hfind : (builtin engine : OperatorCatalog α).operators.find?
      fun op => op.name == s.symbol && op.left == type && op.right == type with
  | some op => exact ⟨op.oid, rfl⟩
  | none =>
      refine absurd ?_ (List.find?_eq_none.mp hfind _ hmem)
      simp only [comparison, beq_self_eq_true, Bool.and_self]

/-- A built-in operator is a comparison or a match operator, and all those of
its type are built in. -/
theorem mem_builtin_cases (h : op ∈ (builtin engine : OperatorCatalog α).operators) :
    (∃ base type s, op = comparison base type s ∧
      ∀ s', comparison base type s' ∈ (builtin engine : OperatorCatalog α).operators) ∨
    ∃ base left right kind negated, op = matchOperator engine base left right kind negated ∧
      ∀ negated', matchOperator engine base left right kind negated' ∈
        (builtin engine : OperatorCatalog α).operators := by
  simp only [builtin, List.mem_reverse, builtinOperators, List.mem_append, List.mem_flatMap,
    List.mem_map] at h ⊢
  rcases h with ⟨⟨type, i⟩, htype, s, -, rfl⟩ | ⟨⟨⟨left, right, kind⟩, i⟩, hpair, negated, -, rfl⟩
  · refine .inl ⟨_, _, s, rfl, fun s' => .inl ⟨(type, i), htype, s', ?_, rfl⟩⟩
    cases s' <;> decide
  · refine .inr ⟨_, _, _, _, negated, rfl, fun negated' => .inr ⟨((left, right, kind), i), hpair,
      negated', ?_, rfl⟩⟩
    cases negated' <;> decide

/-- A comparison names comparisons of its type. -/
theorem mem_references_comparison {base : Oid} {type : DataType} {s : Strategy}
    (h : opno ∈ (comparison base type s : Operator α).references) :
    ∃ s', (comparison base type s' : Operator α).oid = opno := by
  simp only [Operator.references, comparison, Option.toList_some, List.mem_append,
    List.mem_singleton] at h
  rcases h with (rfl | rfl) | h
  · exact ⟨s.commutator, rfl⟩
  · exact ⟨s.negator, rfl⟩
  · split at h
    · simp only [Option.toList_some, List.flatMap_singleton, List.mem_cons, List.not_mem_nil,
        or_false] at h
      rcases h with rfl | rfl | rfl | rfl
      · exact ⟨.less, rfl⟩
      · exact ⟨.less, rfl⟩
      · exact ⟨.less, rfl⟩
      · exact ⟨.greater, rfl⟩
    · exact absurd h List.not_mem_nil

/-- A match operator names its negation. -/
theorem mem_references_matchOperator {base : Oid} {left right : DataType} {kind : PatternType}
    {negated : Bool}
    (h : opno ∈ (matchOperator engine base left right kind negated : Operator α).references) :
    (matchOperator engine base left right kind (!negated) : Operator α).oid = opno := by
  simp only [Operator.references, matchOperator, Option.toList_some, Option.toList_none,
    List.flatMap_nil, List.nil_append, List.append_nil, List.mem_singleton] at h
  rw [h]
  cases negated <;> rfl

theorem closed_builtin : (builtin engine : OperatorCatalog α).Closed := by
  intro op hop opno hopno
  rcases mem_builtin_cases hop with ⟨base, type, s, rfl, hall⟩ |
    ⟨base, left, right, kind, negated, rfl, hall⟩
  · obtain ⟨s', rfl⟩ := mem_references_comparison hopno
    exact List.mem_map_of_mem (hall s')
  · obtain rfl := mem_references_matchOperator hopno
    exact List.mem_map_of_mem (hall !negated)

/-- The built-in operators of the name are equalities, and can be merged. -/
theorem equality_of_name (h : (builtin engine : OperatorCatalog α).get? opno = some op)
    (hname : op.name = "=") :
    op.restrict = some .equality ∧ op.join = some .equality ∧ op.merge.isSome = true := by
  rcases mem_builtin_cases (mem_of_get? h).1 with ⟨base, type, s, rfl, -⟩ |
    ⟨base, left, right, kind, negated, rfl, -⟩
  · have hsymbol : s.symbol = "=" := hname
    have hs : ∀ s : Strategy, s.symbol = "=" → s = .equal := by
      intro s
      cases s <;> decide
    rw [hs s hsymbol]
    exact ⟨rfl, rfl, rfl⟩
  · -- The names of match operators start with another character.
    have hmatch : (if negated then "!" ++ matchName kind else matchName kind) ≠ "=" := by
      cases kind <;> cases negated <;> decide
    exact absurd hname hmatch

end OperatorCatalog

end QueryPlanner
