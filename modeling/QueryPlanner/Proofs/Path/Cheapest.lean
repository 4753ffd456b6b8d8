/-
  QueryPlanner.Proofs.Path.Cheapest

  The best path for an ordering survives pruning.

  The choice of a path looks at the kept paths only.  It comes to the same
  costs as a choice among all the offered ones: what was dropped is dominated
  by something kept, and a path that dominates another is no worse by either
  criterion and serves every requirement that the other serves.
-/

import QueryPlanner.Proofs.Path.Frontier

namespace QueryPlanner

/-- The first of the smallest elements is an element, and the comparison puts
it behind none. -/
theorem firstMin?_eq_some {β : Type} (good : β → Prop) {cmp : β → β → Ordering}
    (hrefl : ∀ {x}, good x → cmp x x ≠ .gt)
    (htotal : ∀ {x y}, good x → good y → cmp x y = .gt → cmp y x ≠ .gt)
    (htrans : ∀ {x y z}, good x → good y → good z → cmp x y ≠ .gt → cmp y z ≠ .gt → cmp x z ≠ .gt)
    {xs : List β} (hgood : ∀ x ∈ xs, good x) {m : β} (h : firstMin? cmp xs = some m) :
    m ∈ xs ∧ ∀ x ∈ xs, cmp m x ≠ .gt := by
  cases xs with
  | nil => simp [firstMin?] at h
  | cons a rest =>
      rw [firstMin?, Option.some.injEq] at h
      subst h
      -- By induction on the rest, whichever element the fold holds at that point.
      induction rest generalizing a with
      | nil =>
          refine ⟨List.mem_singleton_self a, fun x hx => ?_⟩
          rw [List.mem_singleton.mp hx]
          exact hrefl (hgood a List.mem_cons_self)
      | cons b rest ih =>
          obtain ⟨ha, hb, hrest⟩ : good a ∧ good b ∧ ∀ x ∈ rest, good x := by
            simpa using hgood
          rw [List.foldl_cons]
          by_cases hab : cmp a b = .gt
          · rw [if_pos hab]
            obtain ⟨hm, hmin⟩ := ih b (List.forall_mem_cons.mpr ⟨hb, hrest⟩)
            refine ⟨List.mem_cons_of_mem a hm, List.forall_mem_cons.mpr ⟨?_, hmin⟩⟩
            have hgm := (List.forall_mem_cons.mpr ⟨hb, hrest⟩) _ hm
            exact htrans hgm hb ha (hmin b List.mem_cons_self) (htotal ha hb hab)
          · rw [if_neg hab]
            obtain ⟨hm, hmin⟩ := ih a (List.forall_mem_cons.mpr ⟨ha, hrest⟩)
            obtain ⟨hma, hmrest⟩ := List.forall_mem_cons.mp hmin
            have hgm := (List.forall_mem_cons.mpr ⟨ha, hrest⟩) _ hm
            refine ⟨?_, List.forall_mem_cons.mpr ⟨hma, List.forall_mem_cons.mpr
              ⟨htrans hgm ha hb hma hab, hmrest⟩⟩⟩
            rcases List.mem_cons.mp hm with hm | hm
            · exact List.mem_cons.mpr (.inl hm)
            · exact List.mem_cons_of_mem a (List.mem_cons_of_mem b hm)

theorem firstMin?_eq_none {β : Type} {cmp : β → β → Ordering} {xs : List β} :
    firstMin? cmp xs = none ↔ xs = [] := by
  cases xs <;> simp [firstMin?]

namespace Path

variable {α : Type} [Number α] {criterion : CostCriterion} {offered kept : List (Path α)}

/-- The answer to a search for the cheapest eligible path among some that were
offered: one with the lexicographically smallest costs, the cost that the
criterion names in front, or none where none is eligible. -/
def IsCheapest (criterion : CostCriterion) (eligible : Path α → Prop) (offered : List (Path α)) :
    Option (Path α) → Prop
  | some p => p ∈ offered ∧ eligible p ∧
      ∀ q ∈ offered, eligible q → LexLe (p.costs criterion) (q.costs criterion)
  | none => ∀ q ∈ offered, ¬ eligible q

theorem satisfies_of_dominates {required : Pathkeys α} {p q : Path α} (hpq : Dominates p q)
    (hq : Pathkeys.satisfies q.pathkeys required = true) :
    Pathkeys.satisfies p.pathkeys required = true := by
  have hreq := Pathkeys.containedIn_iff.mp hq
  exact Pathkeys.containedIn_iff.mpr (hreq.trans (dominates_iff.mp hpq).2)

variable [Number.Ordered α]

/-- Of costed paths the one taken has the smallest costs. -/
theorem cheapest?_eq_some {paths : List (Path α)} (hc : ∀ p ∈ paths, IsCosted p) {m : Path α}
    (h : cheapest? criterion paths = some m) :
    m ∈ paths ∧ ∀ p ∈ paths, LexLe (m.costs criterion) (p.costs criterion) := by
  obtain ⟨hm, hmin⟩ := firstMin?_eq_some IsCosted
    (fun hp => (compareCosts_ne_gt_iff hp hp).mpr (CostLe.lexLe ⟨hp.startup_le, hp.total_le⟩))
    (fun hp hq h => by rw [← compareCosts_swap hp hq, h]; decide)
    (fun hp hq hr hpq hqr => by
      rw [compareCosts_ne_gt_iff hp hq] at hpq
      rw [compareCosts_ne_gt_iff hq hr] at hqr
      exact (compareCosts_ne_gt_iff hp hr).mpr (hpq.trans hqr))
    hc h
  exact ⟨hm, fun p hp => (compareCosts_ne_gt_iff (hc m hm) (hc p hp)).mp (hmin p hp)⟩

/-- The cheapest of the kept eligible paths is the cheapest of all that were
offered, if a path that dominates an eligible one is eligible. -/
theorem Frontier.isCheapest (criterion : CostCriterion) (eligible : Path α → Prop)
    [DecidablePred eligible] (h : Frontier offered kept) (hc : ∀ p ∈ offered, IsCosted p)
    (hup : ∀ {p q : Path α}, Dominates p q → eligible q → eligible p) :
    IsCheapest criterion eligible offered (cheapest? criterion (kept.filter eligible)) := by
  have hk : ∀ p ∈ kept.filter eligible, p ∈ offered ∧ eligible p := by
    intro p hp
    obtain ⟨hp, he⟩ := List.mem_filter.mp hp
    exact ⟨h.subset p hp, of_decide_eq_true he⟩
  have hcover : ∀ q ∈ offered, eligible q → ∃ p ∈ kept.filter eligible, Dominates p q := by
    intro q hq he
    obtain ⟨p, hp, hpq⟩ := h.covers q hq
    exact ⟨p, List.mem_filter.mpr ⟨hp, decide_eq_true (hup hpq he)⟩, hpq⟩
  -- What is eligible among all paths is so through a kept one.
  cases hm : cheapest? criterion (kept.filter eligible) with
  | none =>
      intro q hq he
      obtain ⟨p, hp, -⟩ := hcover q hq he
      rw [firstMin?_eq_none.mp hm] at hp
      exact List.not_mem_nil hp
  | some m =>
      obtain ⟨hmem, hmin⟩ := cheapest?_eq_some (fun p hp => hc p (hk p hp).1) hm
      refine ⟨(hk m hmem).1, (hk m hmem).2, fun q hq he => ?_⟩
      obtain ⟨p, hp, hpq⟩ := hcover q hq he
      exact (hmin p hp).trans (dominates_iff.mp hpq).1.lexLe

/-- For every requirement and criterion, the choice among the kept paths is a
cheapest one among all the offered paths that meet the requirement; without a
requirement it is a cheapest one of all. -/
theorem cheapestFor?_addAll_nil (paths : List (Path α)) (hp : ∀ p ∈ paths, IsCosted p)
    (required : Pathkeys α) (criterion : CostCriterion) :
    IsCheapest criterion (fun p => Pathkeys.satisfies p.pathkeys required = true) paths
      (cheapestFor? criterion required (addAll paths [])) ∧
    IsCheapest criterion (fun _ => True) paths (cheapest? criterion (addAll paths [])) := by
  have h := frontier_addAll_nil hp
  constructor
  · have hfor := h.isCheapest criterion (fun p => Pathkeys.satisfies p.pathkeys required = true)
      hp satisfies_of_dominates
    simp only [Bool.decide_eq_true] at hfor
    exact hfor
  · have hall := h.isCheapest criterion (fun _ => True) hp (fun _ _ => trivial)
    simpa using hall

/-- The unsorted scan is dropped, and a sorted one is the cheapest even where
no order is required. -/
theorem cheapestFor?_threeScans :
    (∀ p ∈ threeScans, IsCosted p) ∧
      (cheapest? .total (addAll threeScans [])).map (·.pathkeys.length) = some 1 ∧
      IsCheapest .total (fun _ => True) threeScans (cheapest? .total (addAll threeScans [])) :=
  ⟨isCosted_threeScans, by decide +kernel,
    (cheapestFor?_addAll_nil threeScans isCosted_threeScans [] .total).2⟩

end Path

end QueryPlanner
