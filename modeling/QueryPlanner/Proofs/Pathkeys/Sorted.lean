/-
  QueryPlanner.Proofs.Pathkeys.Sorted

  The comparison of orderings and the order of rows.

  `SortedBy` is what an ordering promises: rows in lexicographic order of one
  item from each position, the more significant ones first.  Which item is
  taken does not matter to a path that is ordered that way, so an ordering
  holds of some rows if they are sorted by every `Choice` of items.  If one
  ordering is within another whose further positions have items, its choices
  are the beginnings of the other's choices, and rows sorted by some items are
  sorted by the first few of them.
-/

import Mathlib.Data.List.Forall2
import QueryPlanner.Proofs.Pathkeys

namespace QueryPlanner

/-- The verdict on the same two orderings with their places exchanged. -/
def PathkeysComparison.swap : PathkeysComparison → PathkeysComparison
  | .equal => .equal
  | .better1 => .better2
  | .better2 => .better1
  | .different => .different

namespace Pathkeys

variable {α ρ : Type} {p : SortPosition α} {a b a' b' c : Pathkeys α}

/-! ## Position by position -/

theorem within_iff_getElem? :
    Within a b ↔ a.length ≤ b.length ∧
      ∀ (i : Nat) (p q : SortPosition α), a[i]? = some p → b[i]? = some q →
        ∀ item ∈ p, item ∈ q := by
  induction a generalizing b with
  | nil => simp
  | cons p ps ih =>
      cases b with
      | nil => simp
      | cons q qs =>
          rw [Within.cons_cons_iff, ih, List.length_cons, List.length_cons]
          constructor
          · rintro ⟨hpq, hlen, hrest⟩
            refine ⟨by omega, fun i => ?_⟩
            cases i with
            | zero => simpa using hpq
            | succ i => simpa using hrest i
          · rintro ⟨hlen, h⟩
            have hpq : ∀ item ∈ p, item ∈ q := h 0 p q rfl rfl
            exact ⟨hpq, by omega, fun i => h (i + 1)⟩

/-- The same items at each position, whatever their order and however often. -/
def SameItems (a b : Pathkeys α) : Prop :=
  List.Forall₂ (fun p q => ∀ item, item ∈ p ↔ item ∈ q) a b

theorem SameItems.within (h : SameItems a b) : Within a b := by
  induction h with
  | nil => exact .nil []
  | cons hpq _ ih => exact .cons (fun item => (hpq item).mp) ih

theorem SameItems.symm (h : SameItems a b) : SameItems b a := by
  induction h with
  | nil => exact .nil
  | cons hpq _ ih => exact .cons (fun item => (hpq item).symm) ih

theorem within_congr (ha : SameItems a a') (hb : SameItems b b') :
    Within a' b' ↔ Within a b := by
  constructor
  · intro h
    exact (ha.within.trans h).trans hb.symm.within
  · intro h
    exact (ha.symm.within.trans h).trans hb.within

/-! ## Choices of items -/

/-- One item of each position. -/
abbrev Choice (items : List (SortItem α)) (a : Pathkeys α) : Prop :=
  List.Forall₂ (· ∈ ·) items a

variable {items rest : List (SortItem α)}

theorem exists_choice (hne : ∀ p ∈ a, p ≠ []) : ∃ items, Choice items a := by
  induction a with
  | nil => exact ⟨[], .nil⟩
  | cons p ps ih =>
      obtain ⟨items, hitems⟩ := ih fun q hq => hne q (List.mem_cons_of_mem _ hq)
      obtain ⟨item, hitem⟩ := List.exists_mem_of_ne_nil p (hne p List.mem_cons_self)
      exact ⟨item :: items, .cons hitem hitems⟩

/-- A choice for an ordering goes on to one for any ordering it is within, as
long as the further positions of that one have items. -/
theorem Choice.exists_append (h : Choice items a) (hab : Within a b)
    (hne : ∀ q ∈ b.drop a.length, q ≠ []) : ∃ rest, Choice (items ++ rest) b := by
  induction h generalizing b with
  | nil => exact exists_choice hne
  | cons hitem _ ih =>
      cases hab with
      | cons hpq hab =>
          obtain ⟨rest, hrest⟩ := ih hab hne
          exact ⟨rest, .cons (hpq _ hitem) hrest⟩

/-- An ordering with an empty position has no choice. -/
theorem not_choice_of_empty (h : [] ∈ a) : ¬ Choice items a := by
  intro hitems
  induction hitems with
  | nil => exact absurd h List.not_mem_nil
  | cons hitem _ ih =>
      rcases List.mem_cons.mp h with rfl | h
      · exact absurd hitem List.not_mem_nil
      · exact ih h

/-! ## Sorted rows -/

/-- Compares two rows by some items, the first one that tells them apart
deciding; `cmp` says how a single item does. -/
def lexCompare (cmp : SortItem α → ρ → ρ → Ordering) : List (SortItem α) → ρ → ρ → Ordering
  | [], _, _ => .eq
  | item :: items, x, y => (cmp item x y).then (lexCompare cmp items x y)

/-- The rows are in lexicographic order of some items. -/
def SortedBy (cmp : SortItem α → ρ → ρ → Ordering) (items : List (SortItem α)) (rows : List ρ) :
    Prop :=
  rows.Pairwise fun x y => lexCompare cmp items x y ≠ .gt

variable {cmp : SortItem α → ρ → ρ → Ordering} {rows : List ρ}

theorem lexCompare_append (items rest : List (SortItem α)) (x y : ρ) :
    lexCompare cmp (items ++ rest) x y =
      (lexCompare cmp items x y).then (lexCompare cmp rest x y) := by
  induction items with
  | nil => rfl
  | cons item items ih => rw [List.cons_append, lexCompare, lexCompare, ih, Ordering.then_assoc]

/-- Rows sorted by some items are sorted by the first few of them. -/
theorem SortedBy.of_append (h : SortedBy cmp (items ++ rest) rows) : SortedBy cmp items rows := by
  refine h.imp fun {x y} hxy hgt => hxy ?_
  rw [lexCompare_append, hgt]
  rfl

/-- What holds of the rows of an ordering holds of those of an ordering that
it is within. -/
theorem sortedBy_of_within (hab : Within a b) (hne : ∀ q ∈ b.drop a.length, q ≠ [])
    (hrows : ∀ items, Choice items b → SortedBy cmp items rows) (hitems : Choice items a) :
    SortedBy cmp items rows := by
  obtain ⟨rest, hrest⟩ := hitems.exists_append hab hne
  have hlong : SortedBy cmp (items ++ rest) rows := hrows _ hrest
  exact hlong.of_append

/-- Two rows that every item tells apart are in one order only. -/
theorem not_sortedBy_of_descending (hitems : items ≠ []) :
    ¬ SortedBy (fun _ => Ord.compare) items [1, 0] := by
  intro h
  have hle := (List.pairwise_cons.mp h).1 0 List.mem_cons_self
  cases items with
  | nil => exact hitems rfl
  | cons item items => exact hle rfl

/-- Being within an ordering hands its order of rows on, unless it is one that
says nothing because of an empty position that the other does not reach. -/
theorem sortedBy_iff_of_within (hab : Within a b) :
    (∀ (ρ : Type) (cmp : SortItem α → ρ → ρ → Ordering) (rows : List ρ),
      (∀ items, Choice items b → SortedBy cmp items rows) →
        ∀ items, Choice items a → SortedBy cmp items rows) ↔
    a = [] ∨ [] ∈ a ∨ ∀ q ∈ b.drop a.length, q ≠ [] := by
  constructor
  · intro h
    by_contra hno
    obtain ⟨ha, hne, hempty⟩ : a ≠ [] ∧ [] ∉ a ∧ ∃ q ∈ b.drop a.length, q = [] := by
      simpa using hno
    obtain ⟨q, hq, rfl⟩ := hempty
    obtain ⟨items, hitems⟩ := exists_choice fun p hp hp' => hne (hp' ▸ hp)
    have hcons : items ≠ [] := by
      rintro rfl
      exact ha (List.forall₂_nil_left_iff.mp hitems)
    refine not_sortedBy_of_descending hcons (h Nat (fun _ => Ord.compare) [1, 0] ?_ items hitems)
    intro items hitems
    exact absurd hitems (not_choice_of_empty (List.mem_of_mem_drop hq))
  · rintro (rfl | hempty | hne) ρ cmp rows hrows items hitems
    · rw [List.forall₂_nil_right_iff.mp hitems]
      exact List.pairwise_of_forall fun x y => by simp [lexCompare]
    · exact absurd hitems (not_choice_of_empty hempty)
    · exact sortedBy_of_within hab hne hrows hitems

/-! ## The verdicts -/

variable [DecidableEq α]

theorem containedIn_eq (a b : Pathkeys α) : containedIn a b = decide (Within a b) := by
  rw [Bool.eq_iff_iff, containedIn_iff, decide_eq_true_iff]

theorem compare_eq_verdict (a b : Pathkeys α) :
    compare a b = verdict (containedIn a b) (containedIn b a) := by
  rw [compare_eq, containedIn_eq, containedIn_eq]

theorem swap_verdict (first second : Bool) :
    (verdict first second).swap = verdict second first := by
  cases first <;> cases second <;> rfl

/-- Each verdict answers one pair of containments. -/
theorem verdict_iff (first second : Bool) :
    (verdict first second = .equal ↔ first = true ∧ second = true) ∧
    (verdict first second = .better1 ↔ first = false ∧ second = true) ∧
    (verdict first second = .better2 ↔ first = true ∧ second = false) ∧
    (verdict first second = .different ↔ first = false ∧ second = false) := by
  cases first <;> cases second <;> decide

theorem compare_swap (a b : Pathkeys α) : compare b a = (compare a b).swap := by
  rw [compare_eq_verdict a b, swap_verdict, compare_eq_verdict]

theorem containedIn_congr (ha : SameItems a a') (hb : SameItems b b') :
    containedIn a' b' = containedIn a b := by
  rw [Bool.eq_iff_iff, containedIn_iff, containedIn_iff, within_congr ha hb]

theorem compare_congr (ha : SameItems a a') (hb : SameItems b b') :
    compare a' b' = compare a b := by
  rw [compare_eq_verdict, compare_eq_verdict, containedIn_congr ha hb, containedIn_congr hb ha]

/-- The comparison of two orderings is containment of their positions both
ways, and an ordering that contains another delivers it: rows sorted by every
choice of items of the one are sorted by every choice of items of the other.
That fails just where an empty position of the one, which the other does not
reach, leaves it without a choice. -/
theorem comparison_is_containment (a b : Pathkeys α) :
    (containedIn a b = true ↔ a.length ≤ b.length ∧
      ∀ (i : Nat) (p q : SortPosition α), a[i]? = some p → b[i]? = some q →
        ∀ item ∈ p, item ∈ q) ∧
    ((compare a b = .equal ↔ containedIn a b = true ∧ containedIn b a = true) ∧
      (compare a b = .better1 ↔ containedIn a b = false ∧ containedIn b a = true) ∧
      (compare a b = .better2 ↔ containedIn a b = true ∧ containedIn b a = false) ∧
      (compare a b = .different ↔ containedIn a b = false ∧ containedIn b a = false)) ∧
    compare b a = (compare a b).swap ∧
    (∀ a' b', SameItems a a' → SameItems b b' →
      compare a' b' = compare a b ∧ containedIn a' b' = containedIn a b) ∧
    containedIn a a = true ∧
    (∀ c, containedIn a b = true → containedIn b c = true → containedIn a c = true) ∧
    (containedIn a b = true →
      ((∀ (ρ : Type) (cmp : SortItem α → ρ → ρ → Ordering) (rows : List ρ),
        (∀ items, Choice items b → SortedBy cmp items rows) →
          ∀ items, Choice items a → SortedBy cmp items rows) ↔
      a = [] ∨ [] ∈ a ∨ ∀ q ∈ b.drop a.length, q ≠ [])) := by
  refine ⟨?_, ?_, compare_swap a b, ?_, ?_, ?_, ?_⟩
  · rw [containedIn_iff, within_iff_getElem?]
  · rw [compare_eq_verdict]
    exact verdict_iff _ _
  · intro a' b' ha hb
    exact ⟨compare_congr ha hb, containedIn_congr ha hb⟩
  · exact containedIn_iff.mpr (Within.refl a)
  · intro c hab hbc
    exact containedIn_iff.mpr ((containedIn_iff.mp hab).trans (containedIn_iff.mp hbc))
  · intro hab
    exact sortedBy_iff_of_within (containedIn_iff.mp hab)

/-! ## Two columns -/

/-- A column of the first relation, ascending. -/
def ascending (column : AttrNumber) : SortItem Rat := ⟨.var ⟨1, column, .int4, -1⟩, 97⟩

/-- Rows as pairs of the first two columns. -/
def compareColumn (item : SortItem Rat) (x y : Nat × Nat) : Ordering :=
  if item = ascending 1 then Ord.compare x.1 y.1 else Ord.compare x.2 y.2

/-- Rows in the order of both columns are in the order of the first. -/
theorem comparison_is_containment_twoColumns :
    SortedBy compareColumn [ascending 1] [(1, 2), (1, 5), (3, 0)] := by
  have hcontained : containedIn [[ascending 1]] [[ascending 1], [ascending 2]] = true := by
    decide +kernel
  obtain ⟨-, -, -, -, -, -, hdelivers⟩ :=
    comparison_is_containment [[ascending 1]] [[ascending 1], [ascending 2]]
  refine (hdelivers hcontained).mpr (.inr (.inr (by simp))) (Nat × Nat) compareColumn
    [(1, 2), (1, 5), (3, 0)] ?_ _ (.cons List.mem_cons_self .nil)
  intro items hitems
  have hboth : items = [ascending 1, ascending 2] := by
    cases hitems with
    | cons hfirst hrest =>
        cases hrest with
        | cons hsecond hrest =>
            cases hrest with
            | nil => rw [List.mem_singleton.mp hfirst, List.mem_singleton.mp hsecond]
  rw [hboth]
  simp only [SortedBy]
  decide +kernel

/-- A position without items says nothing of any rows, and hides what the
positions in front of it say. -/
theorem containedIn_of_emptyPosition :
    containedIn [[ascending 1]] [[ascending 1], []] = true ∧
      (∀ items, Choice items [[ascending 1], []] →
        SortedBy compareColumn items [(2, 0), (1, 0)]) ∧
      Choice [ascending 1] [[ascending 1]] ∧
      ¬ SortedBy compareColumn [ascending 1] [(2, 0), (1, 0)] := by
  refine ⟨by decide +kernel, ?_, .cons List.mem_cons_self .nil, ?_⟩
  · intro items hitems
    exact absurd hitems (not_choice_of_empty (by simp))
  · simp only [SortedBy]
    decide +kernel

end Pathkeys

end QueryPlanner
