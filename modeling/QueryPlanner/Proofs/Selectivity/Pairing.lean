/-
  QueryPlanner.Proofs.Selectivity.Pairing

  How the common values of two columns are paired off.

  Each value of the first list takes the first equal value of the second that is
  still free.  Whatever operator decides, no place is taken twice, and of two
  equal values at least one is taken.  Where the operator decides as an equality
  does and no list repeats a value, a value has at most one equal on the other
  side, so nothing stands in its way: the pairs are all the pairs of equal
  values.
-/

import Mathlib.Data.List.Nodup
import QueryPlanner.Proofs.Selectivity.Equality
import QueryPlanner.Selectivity.Join

namespace QueryPlanner

variable {α : Type} [Number α] {op : Procedure α} {values others : List (Datum α)}

/-- Distinct values are equal at one place only. -/
theorem Procedure.EqualityOn.place_eq {all : List (Datum α)} (h : op.EqualityOn all)
    (hsub : values ⊆ all) (hdistinct : op.Distinct values) {i j : Nat} {a b : Datum α}
    (hi : values[i]? = some a) (hj : values[j]? = some b) (hab : op.holds a b = true) : i = j := by
  have ha := hsub (List.mem_of_getElem? hi)
  have hb := hsub (List.mem_of_getElem? hj)
  have hba := h.symm a ha b hb hab
  obtain ⟨hilt, rfl⟩ := List.getElem?_eq_some_iff.mp hi
  obtain ⟨hjlt, rfl⟩ := List.getElem?_eq_some_iff.mp hj
  have hlater := List.pairwise_iff_getElem.mp hdistinct
  rcases Nat.lt_trichotomy i j with hlt | heq | hgt
  · rw [hlater i j hilt hjlt hlt] at hab
    cases hab
  · exact heq
  · rw [hlater j i hjlt hilt hgt] at hba
    cases hba

namespace Selectivity

/-! ## The first free value -/

section FirstFree

variable {fits : Datum α → Bool} {taken : List Nat} {j : Nat}

omit [Number α] in
theorem firstFree?_eq_some (h : firstFree? fits taken values = some j) :
    j ∉ taken ∧ ∃ v, values[j]? = some v ∧ fits v = true := by
  obtain ⟨⟨v, k⟩, hfind, rfl⟩ := Option.map_eq_some_iff.mp h
  have hplace := List.mem_zipIdx_iff_getElem?.mp (List.mem_of_find?_eq_some hfind)
  have hholds := List.find?_some hfind
  simp only [Bool.and_eq_true, Bool.not_eq_true', List.contains_eq_mem, decide_eq_false_iff_not]
    at hholds
  exact ⟨hholds.1, v, hplace, hholds.2⟩

omit [Number α] in
/-- Where no value is free, all that fit are taken. -/
theorem mem_taken_of_firstFree? (h : firstFree? fits taken values = none) {v : Datum α}
    (hv : values[j]? = some v) (hfits : fits v = true) : j ∈ taken := by
  have hfind := List.find?_eq_none.mp (Option.map_eq_none_iff.mp h) (v, j)
    (List.mem_zipIdx_iff_getElem?.mpr hv)
  by_contra hfree
  simp [hfree, hfits] at hfind

end FirstFree

/-! ## Pairs -/

/-- Two lists are paired off: pairs are places of equal values, no place is in
two of them, and no two equal values are both left over. -/
structure PairedOff (op : Procedure α) (values others : List (Datum α))
    (pairs : List (Nat × Nat)) : Prop where
  equal : ∀ x ∈ pairs, ∃ a b, values[x.1]? = some a ∧ others[x.2]? = some b ∧
    op.holds a b = true
  left : (pairs.map (·.1)).Nodup
  right : (pairs.map (·.2)).Nodup
  maximal : ∀ i j a b, values[i]? = some a → others[j]? = some b → op.holds a b = true →
    i ∈ pairs.map (·.1) ∨ j ∈ pairs.map (·.2)

namespace PairedOff

variable {front rest : List (Datum α)} {pairs : List (Nat × Nat)} {v : Datum α} {i j : Nat}

theorem nil (op : Procedure α) (others : List (Datum α)) : PairedOff op [] others [] where
  equal := nofun
  left := .nil
  right := .nil
  maximal := nofun

omit [Number α] in
/-- A place in a list with one more value is an old one or the last. -/
theorem place_concat {a : Datum α} (ha : (front ++ [v])[i]? = some a) :
    front[i]? = some a ∨ i = front.length ∧ v = a := by
  rcases Nat.lt_trichotomy i front.length with hlt | rfl | hgt
  · rw [List.getElem?_append_left hlt] at ha
    exact .inl ha
  · rw [List.getElem?_concat_length] at ha
    exact .inr ⟨rfl, Option.some.inj ha⟩
  · have hlt := (List.getElem?_eq_some_iff.mp ha).1
    rw [List.length_append, List.length_singleton] at hlt
    omega

theorem fst_lt (h : PairedOff op values others pairs) (hi : i ∈ pairs.map (·.1)) :
    i < values.length := by
  obtain ⟨x, hx, rfl⟩ := List.mem_map.mp hi
  obtain ⟨a, -, ha, -⟩ := h.equal x hx
  exact (List.getElem?_eq_some_iff.mp ha).1

theorem snd_lt (h : PairedOff op values others pairs) (hj : j ∈ pairs.map (·.2)) :
    j < others.length := by
  obtain ⟨x, hx, rfl⟩ := List.mem_map.mp hj
  obtain ⟨-, b, -, hb, -⟩ := h.equal x hx
  exact (List.getElem?_eq_some_iff.mp hb).1

/-- Pairs stay pairs when a value follows. -/
theorem equal_concat (h : PairedOff op front others pairs) {x : Nat × Nat} (hx : x ∈ pairs) :
    ∃ a b, (front ++ [v])[x.1]? = some a ∧ others[x.2]? = some b ∧ op.holds a b = true := by
  obtain ⟨a, b, ha, hb, hab⟩ := h.equal x hx
  have hlt := (List.getElem?_eq_some_iff.mp ha).1
  exact ⟨a, b, by rw [List.getElem?_append_left hlt, ha], hb, hab⟩

/-- The next value takes a free one. -/
theorem take (h : PairedOff op front others pairs)
    (hfree : firstFree? (op.holds v) (pairs.map (·.2)) others = some j) :
    PairedOff op (front ++ [v]) others (pairs ++ [(front.length, j)]) := by
  obtain ⟨hj, b, hb, hholds⟩ := firstFree?_eq_some hfree
  constructor
  · intro x hx
    rcases List.mem_append.mp hx with hold | hnew
    · exact h.equal_concat hold
    · rw [List.mem_singleton.mp hnew]
      exact ⟨v, b, List.getElem?_concat_length, hb, hholds⟩
  · rw [List.map_append, List.map_singleton, ← List.concat_eq_append]
    exact h.left.concat fun hin => absurd (h.fst_lt hin) (Nat.lt_irrefl _)
  · rw [List.map_append, List.map_singleton, ← List.concat_eq_append]
    exact h.right.concat hj
  · intro i k a c ha hc hac
    rw [List.map_append, List.map_append, List.mem_append, List.mem_append]
    rcases place_concat ha with ha | ⟨rfl, -⟩
    · exact (h.maximal i k a c ha hc hac).imp .inl .inl
    · exact .inl (.inr List.mem_cons_self)

/-- The next value is left over, as all that are equal to it are taken. -/
theorem leave (h : PairedOff op front others pairs)
    (hnone : firstFree? (op.holds v) (pairs.map (·.2)) others = none) :
    PairedOff op (front ++ [v]) others pairs := by
  refine ⟨fun x hx => h.equal_concat hx, h.left, h.right, ?_⟩
  intro i k a c ha hc hac
  rcases place_concat ha with ha | ⟨-, rfl⟩
  · exact h.maximal i k a c ha hc hac
  · exact .inr (mem_taken_of_firstFree? hnone hc hac)

/-- What is paired off stays so when the remaining values are paired. -/
theorem pairUp (h : PairedOff op front others pairs) :
    PairedOff op (front ++ rest) others (Selectivity.pairUp op others pairs front.length rest) := by
  -- Each value moves from the rest to the front.
  induction rest generalizing front pairs with
  | nil =>
      rw [List.append_nil]
      exact h
  | cons v rest ih =>
      have hmoved : front ++ v :: rest = (front ++ [v]) ++ rest := List.append_cons front v rest
      have hlength : (front ++ [v]).length = front.length + 1 := List.length_append
      rw [Selectivity.pairUp, hmoved, ← hlength]
      cases hfree : firstFree? (op.holds v) (pairs.map (·.2)) others with
      | some j => exact ih (h.take hfree)
      | none => exact ih (h.leave hfree)

end PairedOff

theorem pairedOff_pairUp (op : Procedure α) (values others : List (Datum α)) :
    PairedOff op values others (pairUp op others [] 0 values) :=
  (PairedOff.nil op others).pairUp

/-! ## Equal values -/

section Equal

variable {pairs : List (Nat × Nat)} {i j : Nat}

/-- The pairs of distinct values are all the pairs of equal ones. -/
theorem PairedOff.mem_iff (h : PairedOff op values others pairs)
    (hequality : op.EqualityOn (values ++ others)) (hvalues : op.Distinct values)
    (hothers : op.Distinct others) :
    (i, j) ∈ pairs ↔
      ∃ a b, values[i]? = some a ∧ others[j]? = some b ∧ op.holds a b = true := by
  refine ⟨h.equal (i, j), ?_⟩
  rintro ⟨a, b, ha, hb, hab⟩
  have hleft := List.subset_append_left values others
  have hright := List.subset_append_right values others
  have ha' := hleft (List.mem_of_getElem? ha)
  have hb' := hright (List.mem_of_getElem? hb)
  rcases h.maximal i j a b ha hb hab with hi | hj
  · -- The value has a partner, which is equal to the other value.
    obtain ⟨⟨i', k⟩, hx, rfl⟩ := List.mem_map.mp hi
    obtain ⟨a', c, haa, hc, hac⟩ := h.equal _ hx
    obtain rfl := Option.some.inj (ha.symm.trans haa)
    have hc' := hright (List.mem_of_getElem? hc)
    have hca := hequality.symm a ha' c hc' hac
    have hcb := hequality.trans c hc' a ha' b hb' hca hab
    obtain rfl := hequality.place_eq hright hothers hc hb hcb
    exact hx
  · obtain ⟨⟨k, j'⟩, hx, rfl⟩ := List.mem_map.mp hj
    obtain ⟨c, b', hc, hbb, hcb⟩ := h.equal _ hx
    obtain rfl := Option.some.inj (hb.symm.trans hbb)
    have hc' := hleft (List.mem_of_getElem? hc)
    have hba := hequality.symm a ha' b hb' hab
    have hca := hequality.trans c hc' b hb' a ha' hcb hba
    obtain rfl := hequality.place_eq hleft hvalues hc ha hca
    exact hx

/-- Distinct values are paired alike from both sides. -/
theorem PairedOff.perm_swap {pairs' : List (Nat × Nat)} (h : PairedOff op values others pairs)
    (h' : PairedOff op others values pairs') (hequality : op.EqualityOn (values ++ others))
    (hvalues : op.Distinct values) (hothers : op.Distinct others) :
    pairs'.Perm (pairs.map Prod.swap) := by
  have hequality' : op.EqualityOn (others ++ values) := by
    have hsub : others ++ values ⊆ values ++ others := List.perm_append_comm.subset
    exact ⟨fun a ha b hb => hequality.symm a (hsub ha) b (hsub hb),
      fun a ha b hb c hc => hequality.trans a (hsub ha) b (hsub hb) c (hsub hc)⟩
  have hnodup : (pairs.map Prod.swap).Nodup := h.left.of_map.map Prod.swap_injective
  refine (List.perm_ext_iff_of_nodup h'.left.of_map hnodup).mpr ?_
  rintro ⟨j, i⟩
  have hswap : (i, j).swap ∈ pairs.map Prod.swap ↔ (i, j) ∈ pairs :=
    List.mem_map_of_injective Prod.swap_injective
  rw [Prod.swap_prod_mk] at hswap
  rw [hswap, h.mem_iff hequality hvalues hothers, h'.mem_iff hequality' hothers hvalues]
  constructor
  · rintro ⟨b, a, hb, ha, hba⟩
    have ha' := List.mem_append_left others (List.mem_of_getElem? ha)
    have hb' := List.mem_append_right values (List.mem_of_getElem? hb)
    exact ⟨a, b, ha, hb, hequality.symm b hb' a ha' hba⟩
  · rintro ⟨a, b, ha, hb, hab⟩
    have ha' := List.mem_append_left others (List.mem_of_getElem? ha)
    have hb' := List.mem_append_right values (List.mem_of_getElem? hb)
    exact ⟨b, a, hb, ha, hequality.symm a ha' b hb' hab⟩

end Equal

end Selectivity

end QueryPlanner
