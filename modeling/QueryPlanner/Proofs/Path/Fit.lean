/-
  QueryPlanner.Proofs.Path.Fit

  Merge and hash joins that fit their inputs.

  A merge can follow clauses only if both inputs come in the orders of their
  sides of these clauses, by themselves or behind a sort.  `MergeFits` and
  `HashFits` say what a join owes its inputs; they mention the inputs only by
  their members and by what they show, so they last as long as these do.
-/

import QueryPlanner.Proofs.Path.Candidates
import QueryPlanner.Proofs.Pathkeys.Join
import QueryPlanner.Proofs.Pathkeys.Merge

namespace QueryPlanner

variable {α : Type} {p : Planner α} {o i o' i' : Relation α} {join : Join α}
  {clauses : List (Clause α)}

namespace Join

/-- The merge of two inputs fits them. -/
structure MergeFits [Number α] (join : Join α) (o i : Relation α)
    (clauses : List (Clause α)) (outerSort innerSort : Pathkeys α) : Prop where
  clauses_ne_nil : clauses ≠ []
  ids_nodup : (clauses.map (·.id)).Nodup
  mem_restrictions : ∀ c ∈ clauses, c ∈ join.restrictions
  /-- Each clause has one operand from either input. -/
  across : ∀ c ∈ clauses, ∃ out inn, c.Across o.relids i.relids out inn
  /-- An outer input that is not sorted is in the order of its sides of the
  clauses, position by position. -/
  presorted : outerSort = [] → ∀ (k : Nat) (c : Clause α), clauses[k]? = some c →
    ∃ position out inn, join.outer.pathkeys[k]? = some position ∧
      c.Across o.relids i.relids out inn ∧ out ∈ position
  /-- An outer input that is sorted gets the order that the clauses need. -/
  sorted : outerSort ≠ [] → Pathkeys.ofMergeClauses clauses o.target = .ok outerSort
  /-- The inner input gets the order that the clauses need, or has it. -/
  inner : ∃ required, Pathkeys.ofMergeClauses clauses i.target = .ok required ∧
    (innerSort = required ∨
      innerSort = [] ∧ Pathkeys.satisfies join.inner.pathkeys required = true)

/-- The hash join of two inputs fits them. -/
structure HashFits (join : Join α) (o i : Relation α) (clauses : List (Clause α)) : Prop where
  clauses_ne_nil : clauses ≠ []
  ids_nodup : (clauses.map (·.id)).Nodup
  mem_restrictions : ∀ c ∈ clauses, c ∈ join.restrictions
  hashable : ∀ c ∈ clauses, c.hash.isSome = true
  splits : ∀ c ∈ clauses, c.Splits o.relids i.relids

/-- Inputs with the same members that show more are fitted as well. -/
theorem MergeFits.mono [Number α] {outerSort innerSort : Pathkeys α}
    (h : MergeFits join o i clauses outerSort innerSort) (ho : o'.relids = o.relids)
    (hi : i'.relids = i.relids) (hd : Disjoint o.relids.toFinset i.relids.toFinset)
    (hot : o.target.Over o.relids) (hot' : o'.target.Over o.relids)
    (hit : i.target.Over i.relids) (hit' : i'.target.Over i.relids)
    (hosub : o.target.exprs ⊆ o'.target.exprs) (hisub : i.target.exprs ⊆ i'.target.exprs) :
    MergeFits join o' i' clauses outerSort innerSort where
  clauses_ne_nil := h.clauses_ne_nil
  ids_nodup := h.ids_nodup
  mem_restrictions := h.mem_restrictions
  across := by
    rw [ho, hi]
    exact h.across
  presorted := by
    rw [ho, hi]
    exact h.presorted
  sorted hne := Pathkeys.ofMergeClauses_mono (h.sorted hne) h.across hd hot hot' hosub
  inner := by
    obtain ⟨required, hrequired, hinner⟩ := h.inner
    have hacross : ∀ c ∈ clauses, ∃ inn out, c.Across i.relids o.relids inn out := by
      intro c hc
      obtain ⟨out, inn, hcross⟩ := h.across c hc
      exact ⟨inn, out, hcross.symm⟩
    exact ⟨required, Pathkeys.ofMergeClauses_mono hrequired hacross hd.symm hit hit' hisub, hinner⟩

theorem HashFits.mono (h : HashFits join o i clauses) (ho : o'.relids = o.relids)
    (hi : i'.relids = i.relids) : HashFits join o' i' clauses where
  clauses_ne_nil := h.clauses_ne_nil
  ids_nodup := h.ids_nodup
  mem_restrictions := h.mem_restrictions
  hashable := h.hashable
  splits := by
    rw [ho, hi]
    exact h.splits

end Join

/-- The relations that the input paths of a join produce have no member in
common. -/
structure Join.Inputs (p : Planner α) (join : Join α) (o i : Relation α) : Prop where
  outer : p.relation join.outer.parent = .ok o
  inner : p.relation join.inner.parent = .ok i
  disjoint : Disjoint o.relids.toFinset i.relids.toFinset

/-- A join fits the relations that its input paths produce. -/
def PathOperator.Fits [Number α] (p : Planner α) : PathOperator α → Prop
  | .seqScan _ | .indexScan _ => True
  | .nestLoop join => ∃ o i, join.Inputs p o i
  | .mergeJoin join clauses outerSort innerSort =>
    ∃ o i, join.Inputs p o i ∧ join.MergeFits o i clauses outerSort innerSort
  | .hashJoin join clauses => ∃ o i, join.Inputs p o i ∧ join.HashFits o i clauses

namespace Pairing

variable {j : Pairing α} {operator : PathOperator α} {order : Pathkeys α}

/-- Two relations without common members, with clauses to apply at their
join. -/
structure Sound (j : Pairing α) : Prop where
  disjoint : Disjoint j.outer.relids.toFinset j.inner.relids.toFinset
  ids_nodup : (j.restrictions.map (·.id)).Nodup
  analyzed : ∀ c ∈ j.restrictions, c.Analyzed
  order_over : ∀ path ∈ j.outer.paths, path.pathkeys.Over j.outer.relids

theorem mem_mergeable_iff {c : Clause α} :
    c ∈ j.mergeable ↔ c ∈ j.restrictions ∧ c.isMergejoinable = true ∧
      c.separates j.outer.relids j.inner.relids = true := by
  rw [mergeable, List.mem_filter, Bool.and_eq_true]

theorem mem_hashable_iff {c : Clause α} :
    c ∈ j.hashable ↔ c ∈ j.restrictions ∧ c.hash.isSome = true ∧
      c.separates j.outer.relids j.inner.relids = true := by
  rw [hashable, List.mem_filter, Bool.and_eq_true]

namespace Sound

theorem exists_across (h : j.Sound) {c : Clause α} (hc : c ∈ j.mergeable) :
    ∃ out inn, c.Across j.outer.relids j.inner.relids out inn := by
  obtain ⟨hmem, hm, hsep⟩ := mem_mergeable_iff.mp hc
  exact ((h.analyzed c hmem).splits (.inl hm) hsep).exists_across hm

theorem hashFits (h : j.Sound) {outer inner : Path α} (hne : j.hashable ≠ []) :
    (j.ofInputs outer inner).HashFits j.outer j.inner j.hashable where
  clauses_ne_nil := hne
  ids_nodup := h.ids_nodup.sublist (List.filter_sublist.map _)
  mem_restrictions c hc := (mem_hashable_iff.mp hc).1
  hashable c hc := (mem_hashable_iff.mp hc).2.1
  splits c hc := by
    obtain ⟨hmem, hhash, hsep⟩ := mem_hashable_iff.mp hc
    exact (h.analyzed c hmem).splits (.inr hhash) hsep

variable [Number α]

/-- The clauses found for an outer path fit its order position by position. -/
theorem presorted (h : j.Sound) {outer : Path α} (ho : outer ∈ j.outer.paths) {k : Nat}
    {c : Clause α} (hc : (Pathkeys.findMergeClauses outer.pathkeys j.mergeable)[k]? = some c) :
    ∃ position out inn, outer.pathkeys[k]? = some position ∧
      c.Across j.outer.relids j.inner.relids out inn ∧ out ∈ position := by
  obtain ⟨hmem, position, hposition, hfits⟩ := Pathkeys.findMergeClauses_getElem? hc
  obtain ⟨out, inn, hacross⟩ := h.exists_across hmem
  have hover := h.order_over outer ho position (List.mem_of_getElem? hposition)
  exact ⟨position, out, inn, hposition, hacross,
    (Pathkeys.fits_iff_of_across hacross h.disjoint hover).mp hfits⟩

theorem mergeFits_presorted (h : j.Sound) {outer inner : Path α} {required innerSort : Pathkeys α}
    (ho : outer ∈ j.outer.paths)
    (hclauses : clauses = Pathkeys.findMergeClauses outer.pathkeys j.mergeable)
    (hne : clauses ≠ []) (hrequired : Pathkeys.ofMergeClauses clauses j.inner.target = .ok required)
    (hinner : innerSort = required ∨
      innerSort = [] ∧ Pathkeys.satisfies inner.pathkeys required = true) :
    (j.ofInputs outer inner).MergeFits j.outer j.inner clauses [] innerSort := by
  subst hclauses
  have hmem (c : Clause α) (hc : c ∈ Pathkeys.findMergeClauses outer.pathkeys j.mergeable) :
      c ∈ j.mergeable := Pathkeys.mem_of_mem_findMergeClauses hc
  exact {
    clauses_ne_nil := hne
    ids_nodup := Pathkeys.nodup_findMergeClauses
    mem_restrictions := fun c hc => (mem_mergeable_iff.mp (hmem c hc)).1
    across := fun c hc => h.exists_across (hmem c hc)
    presorted := fun _ _ _ hc => h.presorted ho hc
    sorted := fun hsorted => absurd rfl hsorted
    inner := ⟨required, hrequired, hinner⟩ }

theorem mergeFits_sorted (h : j.Sound) {outer inner : Path α} {outerSort innerSort : Pathkeys α}
    (hne : j.mergeable ≠ [])
    (houter : Pathkeys.ofMergeClauses j.mergeable j.outer.target = .ok outerSort)
    (hinner : Pathkeys.ofMergeClauses j.mergeable j.inner.target = .ok innerSort) :
    (j.ofInputs outer inner).MergeFits j.outer j.inner j.mergeable outerSort innerSort where
  clauses_ne_nil := hne
  ids_nodup := h.ids_nodup.sublist (List.filter_sublist.map _)
  mem_restrictions _ hc := (mem_mergeable_iff.mp hc).1
  across _ hc := h.exists_across hc
  -- There is a sort, because there are clauses.
  presorted hnil := absurd hnil (Pathkeys.ofMergeClauses_ne_nil houter hne)
  sorted _ := houter
  inner := ⟨innerSort, hinner, .inl rfl⟩

/-- Every join path that two relations are offered fits them. -/
theorem fits (h : j.Sound)
    (houter : ∀ path ∈ j.outer.paths, p.relation path.parent = .ok j.outer)
    (hinner : ∀ path ∈ j.inner.paths, p.relation path.parent = .ok j.inner)
    (hcandidate : j.Candidate operator order) : operator.Fits p := by
  have hinputs {outer inner : Path α} (ho : outer ∈ j.outer.paths) (hi : inner ∈ j.inner.paths) :
      (j.ofInputs outer inner).Inputs p j.outer j.inner :=
    ⟨houter outer ho, hinner inner hi, h.disjoint⟩
  cases hcandidate with
  | sorted ho hi hne hos his =>
      exact ⟨j.outer, j.inner, hinputs ho hi, h.mergeFits_sorted hne hos his⟩
  | nested ho hi => exact ⟨j.outer, j.inner, hinputs ho hi⟩
  | presorted ho hi hclauses hne hrequired hsorted =>
      exact ⟨j.outer, j.inner, hinputs ho hi,
        h.mergeFits_presorted ho hclauses hne hrequired (.inr ⟨rfl, hsorted⟩)⟩
  | halfSorted ho hi hclauses hne hrequired =>
      exact ⟨j.outer, j.inner, hinputs ho hi,
        h.mergeFits_presorted ho hclauses hne hrequired (.inl rfl)⟩
  | hashed ho hi hne => exact ⟨j.outer, j.inner, hinputs ho hi, h.hashFits hne⟩

end Sound

/-- A join orders its rows by expressions that it shows. -/
theorem Candidate.order_over [Number α] {s : RelSet} (h : j.Candidate operator order)
    (htarget : j.join.target.Over s) : order.Over s := by
  have hjoin (outer : Pathkeys α) : (j.order outer).Over s := fun _ hp _ hitem =>
    htarget.of_provides (Pathkeys.provides_of_mem_ofJoin hp hitem)
  cases h with
  | hashed => exact Pathkeys.over_nil
  | _ => exact hjoin _

end Pairing

end QueryPlanner
