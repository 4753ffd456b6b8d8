/-
  QueryPlanner.Proofs.IndexAccess

  The order an index delivers, read forwards and backwards.

  Read forwards, an index orders its relation by the longest prefix of its
  keys that the output shows.  A backward scan does not turn this order: it
  walks the keys again, each with the commutator of its sort operator.  Where
  every operator has a commutator and is the commutator of it, both walks drop
  the same keys, because turning an operator is one to one; so the two
  orders are each other read backwards.
-/

import Mathlib.Data.List.Forall2
import QueryPlanner.IndexAccess
import QueryPlanner.Pattern.Regex.Engine
import QueryPlanner.Proofs.Operator.Comparison
import QueryPlanner.Proofs.TargetList

namespace QueryPlanner

variable {α : Type} {engine : RegexEngine}

/-! ## Commutators -/

namespace OperatorCatalog

/-- The commutator of a commutator is the operator itself. -/
def Reciprocal (c : OperatorCatalog α) : Prop :=
  ∀ op other, c.commutator? op = some other → c.commutator? other = some op

theorem reciprocal_builtin : (builtin engine : OperatorCatalog α).Reciprocal := by
  intro opno other h
  obtain ⟨op, hget, hcomm⟩ := Option.bind_eq_some_iff.mp h
  obtain ⟨hmem, rfl⟩ := mem_of_get? hget
  rcases mem_builtin_cases hmem with ⟨base, type, s, rfl, hall⟩ |
    ⟨base, left, right, kind, negated, rfl, -⟩
  · cases hcomm
    have hturned := get?_of_mem_builtin (hall s.commutator)
    rw [commutator?, show base + strategyOffset s.commutator =
      (comparison base type s.commutator : Operator α).oid from rfl, hturned]
    exact congrArg (fun t => some (base + strategyOffset t)) s.commutator_commutator
  · -- Match operators have no commutator.
    cases hcomm

end OperatorCatalog

/-! ## Turning an order -/

namespace Pathkeys

variable {c : OperatorCatalog α} {ps qs : Pathkeys α}

/-- The second item sorts by the same expression the other way. -/
def Turned (c : OperatorCatalog α) (item other : SortItem α) : Prop :=
  item.key = other.key ∧ c.commutator? item.op = some other.op

theorem commuteItem?_eq_some_iff {item other : SortItem α} :
    commuteItem? c item = some other ↔ Turned c item other := by
  obtain ⟨key, op⟩ := item
  obtain ⟨key', op'⟩ := other
  simp only [commuteItem?, Turned, Option.map_eq_some_iff, SortItem.mk.injEq]
  exact ⟨fun ⟨_, h, hkey, hop⟩ => ⟨hkey, hop ▸ h⟩, fun ⟨hkey, h⟩ => ⟨op', h, hkey, rfl⟩⟩

/-- A list is mapped if every element is. -/
theorem mapM_eq_some_iff {β γ : Type} {f : β → Option γ} {xs : List β} {ys : List γ} :
    xs.mapM f = some ys ↔ List.Forall₂ (fun x y => f x = some y) xs ys := by
  induction xs generalizing ys with
  | nil => simp [eq_comm]
  | cons x xs ih =>
      rw [List.mapM_cons, List.forall₂_cons_left_iff]
      simp only [Option.bind_eq_bind, Option.bind_eq_some_iff, Option.pure_def,
        Option.some.injEq, ih]
      exact ⟨fun ⟨y, hy, ys', hys, h⟩ => ⟨y, ys', hy, hys, h.symm⟩,
        fun ⟨y, ys', hy, hys, h⟩ => ⟨y, hy, ys', hys, h.symm⟩⟩

theorem commute?_eq_some_iff :
    commute? c ps = some qs ↔ List.Forall₂ (List.Forall₂ (Turned c)) ps qs := by
  simp only [commute?, mapM_eq_some_iff, commuteItem?_eq_some_iff]

section Reciprocal

variable (hc : c.Reciprocal)
include hc

theorem Turned.symm {item other : SortItem α} (h : Turned c item other) :
    Turned c other item :=
  ⟨h.1.symm, hc _ _ h.2⟩

theorem biUnique_turned : Relator.BiUnique (Turned c) := by
  have hright : ∀ {item other other' : SortItem α},
      Turned c item other → Turned c item other' → other = other' := by
    intro item other other' h h'
    have hop := Option.some.inj (h.2.symm.trans h'.2)
    cases other
    cases other'
    rw [SortItem.mk.injEq]
    exact ⟨h.1.symm.trans h'.1, hop⟩
  exact ⟨fun _ _ _ h h' => hright (h.symm hc) (h'.symm hc), fun _ _ _ => hright⟩

/-- An order read backwards twice is the order. -/
theorem commute?_symm (h : commute? c ps = some qs) : commute? c qs = some ps := by
  rw [commute?_eq_some_iff] at h ⊢
  exact (h.imp fun _ _ h => (h.imp fun _ _ h => h.symm hc).flip).flip

/-- A position is added to an order where the turned one is added to the
turned order. -/
theorem commute?_addPosition [DecidableEq α] {p q : SortPosition α}
    (h : commute? c ps = some qs) (hpq : List.Forall₂ (Turned c) p q) :
    commute? c (addPosition ps p) = some (addPosition qs q) := by
  rw [commute?_eq_some_iff] at h ⊢
  have hmem : p ∈ ps ↔ q ∈ qs := List.rel_mem (biUnique_turned hc).forall₂ hpq h
  simp only [addPosition, List.contains_iff_mem, hmem]
  split
  · exact h
  · exact List.rel_append h (.cons hpq .nil)

end Reciprocal

/-- Positions of one item each are added as the items are, once. -/
theorem addPosition_ofSortItems [DecidableEq α] (items : List (SortItem α))
    (item : SortItem α) :
    addPosition (ofSortItems items.eraseDups) [item] =
      ofSortItems (items ++ [item]).eraseDups := by
  have hmem : [item] ∈ ofSortItems items.eraseDups ↔ item ∈ items := by
    simp [ofSortItems]
  simp only [addPosition, List.contains_iff_mem, hmem, List.eraseDups_append]
  by_cases h : item ∈ items
  · simp [h, List.removeAll]
  · simp [h, List.removeAll, ofSortItems, List.eraseDups_cons]

end Pathkeys

/-! ## The keys that the output shows -/

namespace IndexAccess

variable [Number α]

/-- The output shows the value of a key as an expression: a column as the
first entry that is this column, and a computed key as itself if all the
columns it reads are shown. -/
inductive Shows (relid : RtIndex) (target : TargetList α) : IndexKey α → Expr α → Prop where
  | column {v : Var} {before behind : List (Expr α)} :
      target.exprs = before ++ .var v :: behind → v.relation = relid →
      (∀ w : Var, .var w ∈ before → w.relation = relid → w.column ≠ v.column) →
      Shows relid target (.column v.column) (.var v)
  | computed {e : Expr α} : (∀ v ∈ e.vars, .var v ∈ target.exprs) → Shows relid target (.expr e) e

variable {relid : RtIndex} {target : TargetList α} {key : IndexKey α} {e : Expr α}

theorem visibleKey?_eq_some_iff :
    visibleKey? relid target key = some e ↔ Shows relid target key e := by
  cases key with
  | column n =>
      rw [visibleKey?, List.find?_eq_some_iff_append]
      constructor
      · rintro ⟨hfound, before, behind, htarget, hbefore⟩
        split at hfound
        · rename_i v
          simp only [Bool.and_eq_true, beq_iff_eq] at hfound
          obtain ⟨hrelation, rfl⟩ := hfound
          refine .column htarget hrelation fun w hw hwrelation hcolumn => ?_
          have := hbefore _ hw
          simp [hwrelation, hcolumn] at this
        · exact nomatch hfound
      · rintro (⟨htarget, hrelation, hbefore⟩ | _)
        refine ⟨by simp [hrelation], _, _, htarget, fun a ha => ?_⟩
        split
        · rename_i w
          simpa [Decidable.imp_iff_not_or] using hbefore w ha
        · rfl
  | expr k =>
      simp only [visibleKey?, List.all_eq_true, TargetList.provides_iff, Option.ite_none_right_eq_some,
        Option.some.injEq]
      constructor
      · rintro ⟨hshown, rfl⟩
        exact .computed hshown
      · rintro (_ | hshown)
        exact ⟨hshown, rfl⟩

theorem visibleKey?_eq_none_iff :
    visibleKey? relid target key = none ↔ ∀ e, ¬ Shows relid target key e := by
  simp only [Option.eq_none_iff_forall_ne_some, ne_eq, visibleKey?_eq_some_iff]

/-- The sort items of the longest prefix of the keys that the output shows. -/
inductive Leading (relid : RtIndex) (target : TargetList α) :
    List (IndexKey α × Oid) → List (SortItem α) → Prop where
  | nil : Leading relid target [] []
  | hidden {key : IndexKey α} {op : Oid} {keys : List (IndexKey α × Oid)} :
      (∀ e, ¬ Shows relid target key e) → Leading relid target ((key, op) :: keys) []
  | shown {key : IndexKey α} {op : Oid} {keys : List (IndexKey α × Oid)} {e : Expr α}
      {items : List (SortItem α)} :
      Shows relid target key e → Leading relid target keys items →
      Leading relid target ((key, op) :: keys) (⟨e, op⟩ :: items)

/-! ## Both directions -/

variable {c : OperatorCatalog α} {keys : List (IndexKey α × Oid)}

/-- The forward walk puts the items of the shown keys behind those it has. -/
theorem exists_leading (c : OperatorCatalog α) (relid : RtIndex) (target : TargetList α)
    (keys : List (IndexKey α × Oid)) :
    ∃ items, Leading relid target keys items ∧ ∀ before : List (SortItem α),
      orderOfKeys c relid target .forward (Pathkeys.ofSortItems before.eraseDups) keys =
        Pathkeys.ofSortItems (before ++ items).eraseDups := by
  induction keys with
  | nil => exact ⟨[], .nil, fun before => by rw [orderOfKeys, List.append_nil]⟩
  | cons entry keys ih =>
      obtain ⟨key, op⟩ := entry
      cases hkey : visibleKey? relid target key with
      | none =>
          refine ⟨[], .hidden (visibleKey?_eq_none_iff.mp hkey), fun before => ?_⟩
          rw [List.append_nil]
          simp only [orderOfKeys, directed?, hkey]
      | some e =>
          obtain ⟨items, hitems, hwalk⟩ := ih
          refine ⟨⟨e, op⟩ :: items, .shown (visibleKey?_eq_some_iff.mp hkey) hitems,
            fun before => ?_⟩
          simp only [orderOfKeys, directed?, hkey, Pathkeys.addPosition_ofSortItems, hwalk,
            List.append_assoc, List.singleton_append]

/-- The two walks stay turned to each other: they end at the same key, and
skip the same ones. -/
theorem commute?_orderOfKeys (hc : c.Reciprocal)
    (hkeys : ∀ entry ∈ keys, (c.commutator? entry.2).isSome = true) {ps qs : Pathkeys α}
    (h : Pathkeys.commute? c ps = some qs) :
    Pathkeys.commute? c (orderOfKeys c relid target .forward ps keys) =
      some (orderOfKeys c relid target .backward qs keys) := by
  induction keys generalizing ps qs with
  | nil => exact h
  | cons entry keys ih =>
      obtain ⟨key, op⟩ := entry
      obtain ⟨other, hother⟩ := Option.isSome_iff_exists.mp (hkeys _ List.mem_cons_self)
      simp only [orderOfKeys, directed?, hother]
      cases visibleKey? relid target key with
      | none => exact h
      | some e =>
          have hitem : List.Forall₂ (Pathkeys.Turned c) [⟨e, op⟩] [⟨e, other⟩] :=
            .cons ⟨rfl, hother⟩ .nil
          exact ih (fun entry h => hkeys entry (List.mem_cons_of_mem _ h))
            (Pathkeys.commute?_addPosition hc h hitem)

/-- Forwards, an index orders a base relation by the longest prefix of its
keys that the output shows, each once; backwards it delivers this order
turned, and turned again it is the forward order. -/
theorem order_mirrored {r : Relation α} {index : Index α} (hc : c.Reciprocal)
    (hrelid : r.relid? = some relid)
    (hordering : ∀ op ∈ index.ordering, (c.commutator? op).isSome = true) :
    (∃ items, Leading relid r.target (index.keys.zip index.ordering) items ∧
      order c r index .forward = Pathkeys.ofSortItems items.eraseDups) ∧
    Pathkeys.commute? c (order c r index .forward) = some (order c r index .backward) ∧
    Pathkeys.commute? c (order c r index .backward) = some (order c r index .forward) := by
  have hforward (direction : ScanDirection) : order c r index direction =
      orderOfKeys c relid r.target direction [] (index.keys.zip index.ordering) := by
    rw [order, hrelid]
  have hturned : Pathkeys.commute? c (order c r index .forward) =
      some (order c r index .backward) := by
    rw [hforward, hforward]
    exact commute?_orderOfKeys hc (fun entry h => hordering _ (List.of_mem_zip h).2) rfl
  refine ⟨?_, hturned, Pathkeys.commute?_symm hc hturned⟩
  obtain ⟨items, hitems, hwalk⟩ :=
    exists_leading c relid r.target (index.keys.zip index.ordering)
  exact ⟨items, hitems, (hforward .forward).trans (hwalk [])⟩

section Example

/-- A base relation that puts out two of its columns. -/
def twoOutputs : Relation Float :=
  { Relation.blank 0 .base (RelSet.singleton 1) with
    target := [⟨1, .var ⟨1, 2, .int4, -1⟩⟩, ⟨2, .var ⟨1, 4, .int4, -1⟩⟩] }

/-- An index that repeats its first key, goes on with a key computed from
two columns, and then has a column that is not put out. -/
def mixedIndex : Index Float :=
  { Index.plain 500 .btree [.column 2, .column 2,
      .function 77 .int4 [(2, .int4), (4, .int4)], .column 3, .column 4] with
    ordering := [1014, 1014, 1014, 1014, 1014] }.bind 1

/-- Two positions are left, by `<` forwards and by `>` backwards. -/
theorem order_mirrored_mixedIndex :
    (∃ items, Leading 1 twoOutputs.target (mixedIndex.keys.zip mixedIndex.ordering) items ∧
      order (.builtin Regex.engine) twoOutputs mixedIndex .forward =
        Pathkeys.ofSortItems items.eraseDups) ∧
    Pathkeys.commute? (.builtin Regex.engine)
        (order (.builtin Regex.engine) twoOutputs mixedIndex .forward) =
      some (order (.builtin Regex.engine) twoOutputs mixedIndex .backward) ∧
    Pathkeys.commute? (.builtin Regex.engine)
        (order (.builtin Regex.engine) twoOutputs mixedIndex .backward) =
      some (order (.builtin Regex.engine) twoOutputs mixedIndex .forward) ∧
    (order (.builtin Regex.engine) twoOutputs mixedIndex .backward).map (·.map (·.op)) =
      [[1016], [1016]] := by
  have hordering : ∀ op ∈ mixedIndex.ordering,
      ((OperatorCatalog.builtin Regex.engine : OperatorCatalog Float).commutator? op).isSome =
        true :=
    List.all_eq_true.mp (by decide +kernel)
  have hrelid : twoOutputs.relid? = some 1 := rfl
  obtain ⟨hforward, hturned, hback⟩ :=
    order_mirrored OperatorCatalog.reciprocal_builtin hrelid hordering
  exact ⟨hforward, hturned, hback, by decide +kernel⟩

end Example

end IndexAccess

end QueryPlanner
