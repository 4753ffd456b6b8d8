/-
  QueryPlanner.Proofs.Pathkeys.Greedy

  The merge clauses of an ordering as a greedy matching.

  Position by position the first clause of the list is chosen that fits and is
  not chosen before, and the first position without one ends the choice.
  `Greedy` says so of a list of clauses, without the walk that finds it.  It
  leaves nothing open: two greedy choices for one ordering are the same, and
  what is chosen for the front of an ordering is the front of what is chosen
  for all of it.
-/

import QueryPlanner.Proofs.Pathkeys.Merge

namespace QueryPlanner

variable {α : Type} {ps : Pathkeys α} {clauses chosen other taken : List (Clause α)}
  {c d : Clause α} {p : SortPosition α} {k : Nat}

/-- The clause can be merged, and one of its operands, with the sort operator
of its side, is an item of the position. -/
def Clause.HasSideIn (c : Clause α) (p : SortPosition α) : Prop :=
  ∃ m, c.merge = some m ∧
    ((∃ e, c.leftExpr? = some e ∧ ⟨e, m.operators.leftSort⟩ ∈ p) ∨
      ∃ e, c.rightExpr? = some e ∧ ⟨e, m.operators.rightSort⟩ ∈ p)

theorem Clause.HasSideIn.isMergejoinable (h : c.HasSideIn p) : c.isMergejoinable = true := by
  obtain ⟨m, hm, -⟩ := h
  rw [Clause.isMergejoinable, hm, Option.isSome_some]

namespace Pathkeys

/-! ## Greedy choices -/

/-- The first clause of a list with a side in the position, but for those
taken. -/
structure FirstFree (p : SortPosition α) (clauses taken : List (Clause α)) (c : Clause α) :
    Prop where
  fits : c.HasSideIn p
  free : c.id ∉ taken.map (·.id)
  first : ∃ before after, clauses = before ++ c :: after ∧
    ∀ d ∈ before, d.HasSideIn p → d.id ∈ taken.map (·.id)

theorem FirstFree.mem (h : FirstFree p clauses taken c) : c ∈ clauses := by
  obtain ⟨before, after, rfl, -⟩ := h.first
  exact List.mem_append_right before List.mem_cons_self

/-- There is one first free clause at most. -/
theorem FirstFree.unique (hc : FirstFree p clauses taken c) (hd : FirstFree p clauses taken d) :
    c = d := by
  obtain ⟨before, after, hsplit, hbefore⟩ := hc.first
  obtain ⟨before', after', hsplit', hbefore'⟩ := hd.first
  -- Of two places in the list one is not behind the other.
  rw [hsplit, List.append_eq_append_iff] at hsplit'
  rcases hsplit' with ⟨between, rfl, heq⟩ | ⟨between, rfl, heq⟩
  · rcases List.cons_eq_append_iff.mp heq with ⟨-, heq⟩ | ⟨rest, rfl, -⟩
    · exact (List.cons.inj heq).1.symm
    · have hmem : c ∈ before ++ c :: rest := List.mem_append_right before List.mem_cons_self
      exact absurd (hbefore' c hmem hc.fits) hc.free
  · rcases List.cons_eq_append_iff.mp heq with ⟨-, heq⟩ | ⟨rest, rfl, -⟩
    · exact (List.cons.inj heq).1
    · have hmem : d ∈ before' ++ d :: rest := List.mem_append_right before' List.mem_cons_self
      exact absurd (hbefore d hmem hd.fits) hd.free

/-- A greedy choice of clauses for the positions of an ordering. -/
structure Greedy (ps : Pathkeys α) (clauses chosen : List (Clause α)) : Prop where
  /-- Only clauses of the list that can be merged are chosen. -/
  mem : ∀ c ∈ chosen, c ∈ clauses ∧ c.isMergejoinable = true
  /-- No clause is chosen twice. -/
  distinct : (chosen.map (·.id)).Nodup
  /-- No position has more than one clause. -/
  length_le : chosen.length ≤ ps.length
  /-- Each is the first that fits its position and is not chosen before. -/
  first : ∀ (k : Nat) (c : Clause α), chosen[k]? = some c →
    ∃ p, ps[k]? = some p ∧ FirstFree p clauses (chosen.take k) c
  /-- Where positions are left, none that fits the next one is. -/
  exhausted : ∀ p, ps[chosen.length]? = some p →
    ∀ c ∈ clauses, c.HasSideIn p → c.id ∈ chosen.map (·.id)

namespace Greedy

/-- What is chosen for the front of an ordering. -/
theorem take (h : Greedy ps clauses chosen) (k : Nat) :
    Greedy (List.take k ps) clauses (chosen.take k) where
  mem c hc := h.mem c (List.mem_of_mem_take hc)
  distinct := by
    rw [List.map_take]
    exact h.distinct.sublist (List.take_sublist k _)
  length_le := by
    rw [List.length_take, List.length_take]
    have hle := h.length_le
    omega
  first i c hi := by
    have hik : i < k := by
      have hlt := (List.getElem?_eq_some_iff.mp hi).1
      rw [List.length_take] at hlt
      exact Nat.lt_of_lt_of_le hlt (Nat.min_le_left ..)
    rw [List.getElem?_take_of_lt hik] at hi
    rw [List.getElem?_take_of_lt hik, List.take_take, Nat.min_eq_left hik.le]
    exact h.first i c hi
  exhausted p hp := by
    have hlt := (List.getElem?_eq_some_iff.mp hp).1
    rw [List.length_take, List.length_take] at hlt
    -- A position is left only if all that is chosen stands in front.
    have hall : chosen.take k = chosen := List.take_of_length_le (by omega)
    rw [hall, List.getElem?_take_of_lt (by omega)] at hp
    rw [hall]
    exact h.exhausted p hp

/-- A choice does not end where another one, the same so far, goes on. -/
theorem lt_length (h : Greedy ps clauses chosen) (h' : Greedy ps clauses other)
    (hsame : chosen.take k = other.take k) (hc : chosen[k]? = some c) : k < other.length := by
  obtain ⟨p, hp, hfree⟩ := h.first k c hc
  by_contra hend
  have hlength := congrArg List.length hsame
  rw [List.length_take, List.length_take,
    Nat.min_eq_left (List.getElem?_eq_some_iff.mp hc).1.le] at hlength
  obtain rfl : k = other.length := by omega
  rw [hsame, List.take_length] at hfree
  exact hfree.free (h'.exhausted p hp c hfree.mem hfree.fits)

/-- Two choices that are the same so far go on with the same clause. -/
theorem getElem?_eq (h : Greedy ps clauses chosen) (h' : Greedy ps clauses other)
    (hsame : chosen.take k = other.take k) : chosen[k]? = other[k]? := by
  cases hc : chosen[k]? with
  | none =>
      cases hd : other[k]? with
      | none => rfl
      | some d =>
          exact absurd (h'.lt_length h hsame.symm hd) (List.getElem?_eq_none_iff.mp hc).not_gt
  | some c =>
      have hd := List.getElem?_eq_getElem (h.lt_length h' hsame hc)
      obtain ⟨p, hp, hfree⟩ := h.first k c hc
      obtain ⟨p', hp', hfree'⟩ := h'.first k _ hd
      obtain rfl := Option.some.inj (hp.symm.trans hp')
      have hsameClause := hfree.unique (hsame ▸ hfree')
      exact hd ▸ congrArg some hsameClause

/-- There is one greedy choice. -/
theorem unique (h : Greedy ps clauses chosen) (h' : Greedy ps clauses other) : chosen = other := by
  have htake (k : Nat) : chosen.take k = other.take k := by
    induction k with
    | zero => rfl
    | succ k ih => rw [List.take_add_one, List.take_add_one, ih, h.getElem?_eq h' ih]
  exact List.ext_getElem? fun k => h.getElem?_eq h' (htake k)

end Greedy

/-! ## The clauses that are found -/

variable [DecidableEq α]

theorem fits_iff : fits p c = true ↔ c.HasSideIn p := by
  rw [fits, Clause.HasSideIn]
  cases c.merge with
  | none => simp
  | some m => simp [Option.any_eq_true]

/-- What the search for a clause finds is the first that is free. -/
theorem firstFree_of_find? (h : clauses.find? (fun d => fits p d && !d.isIn taken) = some c) :
    FirstFree p clauses taken c := by
  obtain ⟨hc, before, after, hsplit, hbefore⟩ := List.find?_eq_some_iff_append.mp h
  rw [Bool.and_eq_true, Bool.not_eq_true', ← Bool.not_eq_true] at hc
  refine ⟨fits_iff.mp hc.1, fun hid => hc.2 (Clause.isIn_iff.mpr hid), before, after, hsplit, ?_⟩
  intro d hd hfits
  have hnot := hbefore d hd
  rw [fits_iff.mpr hfits, Bool.true_and, Bool.not_not] at hnot
  exact Clause.isIn_iff.mp hnot

theorem mem_of_find?_eq_none (h : clauses.find? (fun d => fits p d && !d.isIn taken) = none)
    (hc : c ∈ clauses) (hfits : c.HasSideIn p) : c.id ∈ taken.map (·.id) := by
  have hnot := List.find?_eq_none.mp h c hc
  rw [fits_iff.mpr hfits, Bool.true_and, Bool.not_eq_true', Bool.not_eq_false] at hnot
  exact Clause.isIn_iff.mp hnot

/-- The choice ends at a position that finds no clause. -/
theorem find?_next (hp : ps[k]? = some p)
    (hk : (mergeClauses taken clauses ps).length = taken.length + k) :
    clauses.find? (fun d => fits p d && !d.isIn (mergeClauses taken clauses ps)) = none := by
  induction ps generalizing taken k with
  | nil => exact nomatch hp
  | cons q rest ih =>
      rw [mergeClauses] at hk ⊢
      cases hfind : clauses.find? fun d => fits q d && !d.isIn taken with
      | none =>
          rw [hfind] at hk
          obtain rfl : k = 0 := Nat.add_left_cancel hk.symm
          cases hp
          exact hfind
      | some c =>
          rw [hfind] at hk
          obtain ⟨found, heq, -⟩ := mergeClauses_eq_append (taken ++ [c]) clauses rest
          cases k with
          | zero =>
              simp only [heq, List.length_append, List.length_singleton] at hk
              omega
          | succ k =>
              refine ih hp ?_
              rw [List.length_append, List.length_singleton, Nat.add_assoc, Nat.add_comm 1]
              exact hk

theorem greedy_findMergeClauses (ps : Pathkeys α) (clauses : List (Clause α)) :
    Greedy ps clauses (findMergeClauses ps clauses) := by
  obtain ⟨found, heq, hfound⟩ := mergeClauses_eq_append [] clauses ps
  have hfirst (k : Nat) (c : Clause α) (hc : (findMergeClauses ps clauses)[k]? = some c) :
      ∃ p, ps[k]? = some p ∧ FirstFree p clauses ((findMergeClauses ps clauses).take k) c := by
    rw [findMergeClauses, heq, List.nil_append] at hc ⊢
    obtain ⟨p, hp, hfind⟩ := hfound k c hc
    exact ⟨p, hp, firstFree_of_find? hfind⟩
  constructor
  case mem =>
    intro c hc
    obtain ⟨k, hk⟩ := List.mem_iff_getElem?.mp hc
    obtain ⟨p, -, hfree⟩ := hfirst k c hk
    exact ⟨hfree.mem, hfree.fits.isMergejoinable⟩
  case distinct => exact nodup_findMergeClauses
  case length_le =>
    by_contra hlt
    obtain ⟨p, hp, -⟩ := hfirst _ _ (List.getElem?_eq_getElem (Nat.lt_of_not_le hlt))
    rw [List.getElem?_eq_none (Nat.le_refl _)] at hp
    cases hp
  case first => exact hfirst
  case exhausted =>
    intro p hp c hc hfits
    exact mem_of_find?_eq_none (find?_next hp (Nat.zero_add _).symm) hc hfits

/-- The merge clauses found for an ordering are the greedy choice, and those
for its first positions are the first of them. -/
theorem findMergeClauses_eq_iff (ps : Pathkeys α) (clauses : List (Clause α)) :
    (∀ chosen, findMergeClauses ps clauses = chosen ↔ Greedy ps clauses chosen) ∧
      ∀ k, findMergeClauses (List.take k ps) clauses = (findMergeClauses ps clauses).take k := by
  have hgreedy := greedy_findMergeClauses ps clauses
  refine ⟨fun chosen => ⟨fun h => h ▸ hgreedy, fun h => hgreedy.unique h⟩, fun k => ?_⟩
  exact (greedy_findMergeClauses _ clauses).unique (hgreedy.take k)

end Pathkeys

end QueryPlanner
