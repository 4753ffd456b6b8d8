/-
  QueryPlanner.Proofs.TargetList

  What an output list shows.

  Only the expressions of the columns matter: a list provides just these, a
  join shows what either input shows, and a column added behind the others
  hides none of them.  A list `Over` some relations shows nothing that reads
  any other.
-/

import QueryPlanner.Proofs.RelSet
import QueryPlanner.TargetList

namespace QueryPlanner

variable {α : Type} {s : RelSet} {e : Expr α}

/-! ## The relations an expression reads -/

namespace Expr

theorem mem_relations_iff {r : RtIndex} :
    r ∈ e.relations.toFinset ↔ ∃ v ∈ e.vars, v.relation = r := by
  rw [relations, RelSet.ofList, RelSet.toFinset_foldl_insert]
  simp [RelSet.toFinset, RelSet.empty]

theorem relations_var (v : Var) : (var v : Expr α).relations = .singleton v.relation := rfl

theorem eq_op_of_binary? {opno : Oid} {l r : Expr α} (h : e.binary? = some (opno, l, r)) :
    e = .op opno [l, r] := by
  unfold binary? at h
  split at h
  · cases h
    rfl
  · exact nomatch h

theorem mem_vars_op {opno : Oid} {l r : Expr α} {v : Var} :
    v ∈ (op opno [l, r]).vars ↔ v ∈ l.vars ∨ v ∈ r.vars := by
  simp only [vars, occurrences, occurrencesList, List.append_nil, List.mem_eraseDups,
    List.mem_append]

theorem relations_op (opno : Oid) (l r : Expr α) :
    (op opno [l, r]).relations.toFinset = l.relations.toFinset ∪ r.relations.toFinset := by
  ext x
  simp only [Finset.mem_union, mem_relations_iff, mem_vars_op, or_and_right, exists_or]

/-- The expression reads only relations of a set. -/
def Over (e : Expr α) (s : RelSet) : Prop := e.relations.toFinset ⊆ s.toFinset

theorem over_var_iff {v : Var} : (var v : Expr α).Over s ↔ v.relation ∈ s.toFinset := by
  rw [Over, relations_var, RelSet.toFinset_singleton, Finset.singleton_subset_iff]

theorem over_singleton_var (v : Var) : (var v : Expr α).Over (.singleton v.relation) :=
  over_var_iff.mpr (RelSet.toFinset_singleton v.relation ▸ Finset.mem_singleton_self v.relation)

/-- An expression reads what its columns read. -/
theorem over_of_vars (h : ∀ v ∈ e.vars, (var v : Expr α).Over s) : e.Over s := by
  intro r hr
  obtain ⟨v, hv, rfl⟩ := mem_relations_iff.mp hr
  exact over_var_iff.mp (h v hv)

/-- The expression reads relations of a set, and no others. -/
structure From (e : Expr α) (s : RelSet) : Prop where
  nonempty : e.relations.toFinset.Nonempty
  subset : e.Over s

/-- What comes from one relation reads just this one. -/
theorem From.card_eq_one (h : e.From s) (hs : s.toFinset.card = 1) :
    e.relations.toFinset.card = 1 := by
  have hle := Finset.card_le_card h.subset
  have hpos := h.nonempty.card_pos
  omega

/-- What comes from a set of relations is not over another one. -/
theorem From.not_over {t : RelSet} (h : e.From t) (hd : Disjoint s.toFinset t.toFinset) :
    ¬ e.Over s := by
  intro hs
  obtain ⟨r, hr⟩ := h.nonempty
  exact Finset.disjoint_left.mp hd (hs hr) (h.subset hr)

end Expr

namespace TargetList

/-- The expressions of the columns. -/
def exprs (t : TargetList α) : List (Expr α) := t.map (·.expr)

variable {t t' : TargetList α}

theorem exprs_renumber (first : Nat) (t : TargetList α) : exprs (renumber first t) = exprs t := by
  refine List.ext_getElem? fun i => ?_
  rw [exprs, exprs, renumber, List.getElem?_map, List.getElem?_mapIdx, List.getElem?_map,
    Option.map_map]
  rfl

theorem exprs_join (t t' : TargetList α) : exprs (join t t') = exprs t ++ exprs t' := by
  rw [join, exprs, List.map_append]
  exact congrArg₂ (· ++ ·) (exprs_renumber 1 t) (exprs_renumber (t.length + 1) t')

theorem numbers_renumber (first : Nat) (t : TargetList α) :
    (renumber first t).map (·.number) = List.range' first t.length := by
  refine List.ext_getElem? fun i => ?_
  rw [renumber, List.getElem?_map, List.getElem?_mapIdx, Option.map_map]
  by_cases hi : i < t.length
  · rw [List.getElem?_eq_getElem hi, List.getElem?_range' hi, Nat.one_mul]
    rfl
  · rw [List.getElem?_eq_none (by omega), List.getElem?_eq_none (by simpa using hi)]
    rfl

/-- The columns are numbered in order from 1. -/
def Numbered (t : TargetList α) : Prop := t.map (·.number) = List.range' 1 t.length

theorem numbered_nil : Numbered ([] : TargetList α) := rfl

/-- A join numbers its columns anew, whatever numbers they had. -/
theorem numbered_join (t t' : TargetList α) : Numbered (join t t') := by
  have hlength (first : Nat) (t : TargetList α) : (renumber first t).length = t.length :=
    List.length_mapIdx
  rw [Numbered, join, List.map_append, numbers_renumber, numbers_renumber, List.length_append,
    hlength, hlength, Nat.add_comm t.length 1, List.range'_append_1]

/-- Every expression of the list reads only relations of a set. -/
def Over (t : TargetList α) (s : RelSet) : Prop := ∀ e ∈ exprs t, e.Over s

theorem over_nil : Over ([] : TargetList α) s := nofun

theorem over_join {u : RelSet} (ht : Over t s) (ht' : Over t' u) : Over (join t t') (s.union u) := by
  intro e he
  rw [exprs_join, List.mem_append] at he
  rcases he with he | he
  · exact (ht e he).trans RelSet.subset_toFinset_union_left
  · exact (ht' e he).trans RelSet.subset_toFinset_union_right

section Provides

variable [DecidableEq α]

theorem provides_iff : provides t e = true ↔ e ∈ exprs t := by
  rw [provides, find?, List.find?_isSome, exprs, List.mem_map]
  simp only [decide_eq_true_eq]

theorem Over.of_provides (h : Over t s) (he : provides t e = true) : e.Over s :=
  h e (provides_iff.mp he)

/-- A list over some relations shows nothing that comes from others. -/
theorem Over.not_provides {u : RelSet} (h : Over t s) (he : e.From u)
    (hd : Disjoint s.toFinset u.toFinset) : ¬ provides t e = true :=
  fun hp => he.not_over hd (h.of_provides hp)

theorem exprs_add : exprs (add e t) = if provides t e then exprs t else exprs t ++ [e] := by
  rw [add]
  split
  · rfl
  · exact List.map_append

theorem self_prefix_add : t <+: add e t := by
  rw [add]
  split
  · exact List.prefix_refl _
  · exact List.prefix_append ..

/-- A column added hides none. -/
theorem prefix_add : exprs t <+: exprs (add e t) := self_prefix_add.map _

theorem provides_add : provides (add e t) e = true := by
  rw [provides_iff, exprs_add]
  split
  · rename_i h
    exact provides_iff.mp h
  · exact List.mem_append_right _ (List.mem_singleton_self e)

theorem Numbered.add (h : Numbered t) : Numbered (add e t) := by
  rw [TargetList.add]
  split
  · exact h
  · rw [Numbered, List.map_append, h, List.length_append, List.length_singleton,
      List.range'_1_concat, Nat.add_comm 1]
    rfl

/-- An expression is added once. -/
theorem nodup_exprs_add (h : (exprs t).Nodup) : (exprs (add e t)).Nodup := by
  rw [exprs_add]
  split
  · exact h
  · rename_i hprovides
    rw [provides_iff] at hprovides
    rw [← List.concat_eq_append]
    exact List.Nodup.concat hprovides h

theorem Over.add (h : Over t s) (he : e.Over s) : Over (add e t) s := by
  intro x hx
  rw [exprs_add] at hx
  split at hx
  · exact h x hx
  · rcases List.mem_append.mp hx with hx | hx
    · exact h x hx
    · exact List.mem_singleton.mp hx ▸ he

end Provides

end TargetList

end QueryPlanner
