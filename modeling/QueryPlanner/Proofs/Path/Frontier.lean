/-
  QueryPlanner.Proofs.Path.Frontier

  What is kept of the paths offered to a relation.

  The list of kept paths is a frontier of those offered: it holds offered
  paths only, none of them dominates another, and each offered path is
  dominated by a kept one.  Offering one more path keeps this so
  (`Frontier.add`), hence offering any number does (`Frontier.addAll`).

  Frontiers of the same paths are the same up to paths that dominate each
  other, that is, paths of equal costs and equivalent orders; so the order in
  which paths are offered decides only which of several equivalent ones is
  kept.
-/

import QueryPlanner.Proofs.Kernel
import QueryPlanner.Proofs.Path.Dominance

namespace QueryPlanner.Path

variable {α : Type} [Number α]

/-- Neither path dominates the other. -/
def Incomparable (p q : Path α) : Prop := ¬ Dominates p q ∧ ¬ Dominates q p

/-- No path of a list dominates one at another place. -/
def Antichain (paths : List (Path α)) : Prop := paths.Pairwise Incomparable

/-- The kept paths are what is worth keeping of the offered ones. -/
structure Frontier (offered kept : List (Path α)) : Prop where
  subset : ∀ p ∈ kept, p ∈ offered
  antichain : Antichain kept
  covers : ∀ p ∈ offered, ∃ q ∈ kept, Dominates q p

/-- Equal costs and equivalent orders. -/
def Alike (p q : Path α) : Prop :=
  Number.equal p.startup q.startup = true ∧ Number.equal p.total q.total = true ∧
    Pathkeys.compare p.pathkeys q.pathkeys = .equal

theorem alike_of_dominates {p q : Path α} (hpq : Dominates p q) (hqp : Dominates q p) :
    Alike p q := by
  have hw := Pathkeys.containedIn_iff.mp hpq.order
  have hw' := Pathkeys.containedIn_iff.mp hqp.order
  exact ⟨Number.equal_iff.mpr ⟨hpq.startup, hqp.startup⟩,
    Number.equal_iff.mpr ⟨hpq.total, hqp.total⟩, Pathkeys.compare_eq_equal_iff.mpr ⟨hw', hw⟩⟩

theorem mem_add {new p : Path α} {paths : List (Path α)} (h : p ∈ add new paths) :
    p = new ∨ p ∈ paths := by
  induction paths with
  | nil => simpa [add] using h
  | cons old rest ih =>
      rw [add] at h
      split at h
      · rcases List.mem_cons.mp h with rfl | h
        · exact .inr List.mem_cons_self
        · exact (ih h).imp_right (List.mem_cons_of_mem old)
      · exact (ih h).imp_right (List.mem_cons_of_mem old)
      · exact .inr h

theorem Frontier.nil : Frontier ([] : List (Path α)) [] where
  subset := nofun
  antichain := .nil
  covers := nofun

/-- A frontier is a kernel under domination. -/
theorem Frontier.iff_kernel {offered kept : List (Path α)} :
    Frontier offered kept ↔ Kernel Dominates offered kept :=
  ⟨fun h => ⟨h.subset, h.antichain, h.covers⟩, fun h => ⟨h.subset, h.antichain, h.covers⟩⟩

variable [Number.Ordered α]

/-! ## One more path -/

section Add

variable {new : Path α} {paths : List (Path α)}

/-- The three ways in which a new path can go past the first old one. -/
theorem add_cons (hn : IsCosted new) {old : Path α} (ho : IsCosted old) (rest : List (Path α)) :
    add new (old :: rest) =
      if Dominates old new then old :: rest
      else if Dominates new old then add new rest
      else old :: add new rest := by
  rw [add, meet_eq hn ho]
  by_cases h₁ : Dominates old new
  · rw [if_pos h₁, if_pos h₁]
  · by_cases h₂ : Dominates new old
    · rw [if_neg h₁, if_neg h₁, if_pos h₂, if_pos h₂]
    · rw [if_neg h₁, if_neg h₁, if_neg h₂, if_neg h₂]

/-- Offered to paths with costs, a path with costs is refused or kept by
domination alone. -/
theorem add_eq_keep (hn : IsCosted new) (hc : ∀ p ∈ paths, IsCosted p) :
    add new paths = keep Dominates new paths := by
  induction paths with
  | nil => rfl
  | cons old rest ih =>
      obtain ⟨ho, hc⟩ := List.forall_mem_cons.mp hc
      rw [add_cons hn ho, ih hc, keep]

theorem preorderOn_dominates : PreorderOn (IsCosted (α := α)) Dominates where
  refl := .refl
  trans := fun _ _ _ => .trans

/-- A path that some kept one dominates changes nothing. -/
theorem add_eq_self (hn : IsCosted new) (hc : ∀ p ∈ paths, IsCosted p) (h : Antichain paths)
    (hk : ∃ q ∈ paths, Dominates q new) : add new paths = paths := by
  rw [add_eq_keep hn hc]
  exact keep_eq_self preorderOn_dominates hn hc h hk

end Add

/-! ## Any number of paths -/

theorem Frontier.add {offered kept : List (Path α)} {new : Path α} (h : Frontier offered kept)
    (hc : ∀ p ∈ offered, IsCosted p) (hn : IsCosted new) :
    Frontier (offered ++ [new]) (add new kept) := by
  rw [add_eq_keep hn fun p hp => hc p (h.subset p hp)]
  exact iff_kernel.mpr ((iff_kernel.mp h).keep preorderOn_dominates hc hn)

theorem Frontier.addAll {offered kept : List (Path α)} {paths : List (Path α)}
    (h : Frontier offered kept) (hc : ∀ p ∈ offered, IsCosted p)
    (hp : ∀ p ∈ paths, IsCosted p) : Frontier (offered ++ paths) (addAll paths kept) := by
  induction paths generalizing offered kept with
  | nil => simpa [Path.addAll] using h
  | cons new rest ih =>
      obtain ⟨hn, hr⟩ := List.forall_mem_cons.mp hp
      have hc' : ∀ p ∈ offered ++ [new], IsCosted p := by
        intro p hp
        rcases List.mem_append.mp hp with hp | hp
        · exact hc p hp
        · exact List.mem_singleton.mp hp ▸ hn
      have hstep := ih (h.add hc hn) hc' hr
      rwa [List.append_assoc, List.singleton_append] at hstep

/-- Paths that are all covered change nothing. -/
theorem addAll_eq_self {kept paths : List (Path α)} (hc : ∀ p ∈ kept, IsCosted p)
    (h : Antichain kept) (hp : ∀ p ∈ paths, IsCosted p)
    (hk : ∀ p ∈ paths, ∃ q ∈ kept, Dominates q p) : Path.addAll paths kept = kept := by
  induction paths with
  | nil => rfl
  | cons new rest ih =>
      obtain ⟨hn, hp⟩ := List.forall_mem_cons.mp hp
      obtain ⟨hkn, hk⟩ := List.forall_mem_cons.mp hk
      show Path.addAll rest (Path.add new kept) = kept
      rw [add_eq_self hn hc h hkn, ih hp hk]

/-- Paths offered to an empty list leave a frontier of themselves. -/
theorem frontier_addAll_nil {paths : List (Path α)} (hp : ∀ p ∈ paths, IsCosted p) :
    Frontier paths (addAll paths []) := by
  simpa using Frontier.nil.addAll (by simp) hp

/-! ## Two frontiers -/

/-- Of two frontiers of the same paths, every path of one has its like in the
other. -/
theorem Frontier.exists_alike {offered kept kept' : List (Path α)} (h : Frontier offered kept)
    (h' : Frontier offered kept') {p : Path α} (hp : p ∈ kept) :
    ∃ q ∈ kept', Dominates p q ∧ Dominates q p :=
  (iff_kernel.mp h).exists_alike (iff_kernel.mp h') (fun _ _ _ => Dominates.trans)
    (fun _ _ => trivial) hp

/-- Two antichains whose paths have their like in each other hold alike paths,
in some order. -/
theorem exists_perm_alike {kept kept' : List (Path α)} (ha : Antichain kept)
    (ha' : Antichain kept')
    (h : ∀ p ∈ kept, ∃ q ∈ kept', Dominates p q ∧ Dominates q p)
    (h' : ∀ q ∈ kept', ∃ p ∈ kept, Dominates p q ∧ Dominates q p) :
    ∃ l, l.Perm kept' ∧ List.Forall₂ Alike kept l := by
  obtain ⟨l, hl, hall⟩ := exists_perm_of_antichain (D := Dominates) (S := fun _ => True)
    (fun _ _ _ => Dominates.trans) (fun _ _ => trivial) (fun _ _ => trivial) ha ha' h h'
  exact ⟨l, hl, hall.imp fun _ _ h => alike_of_dominates h.1 h.2⟩

/-- Paths offered one after the other leave a frontier, whatever they are; the
same paths in any other order leave one that is alike, and a path offered
again changes nothing. -/
theorem addAll_nil_isFrontier (paths : List (Path α)) (hp : ∀ p ∈ paths, IsCosted p) :
    (∀ p ∈ addAll paths [], p ∈ paths) ∧
    (addAll paths []).Pairwise (fun p q => ¬ Dominates p q ∧ ¬ Dominates q p) ∧
    (∀ p ∈ paths, ∃ q ∈ addAll paths [], Dominates q p) ∧
    (∀ paths' : List (Path α), (∀ p, p ∈ paths' ↔ p ∈ paths) →
      ∃ l, l.Perm (addAll paths' []) ∧ List.Forall₂ Alike (addAll paths []) l) ∧
    ∀ p ∈ paths, add p (addAll paths []) = addAll paths [] := by
  have h := frontier_addAll_nil hp
  refine ⟨h.subset, h.antichain, h.covers, fun paths' hmem => ?_, fun p hpp => ?_⟩
  · have hp' : ∀ p ∈ paths', IsCosted p := fun p hpp => hp p ((hmem p).mp hpp)
    have h' : Frontier paths (addAll paths' []) :=
      Frontier.iff_kernel.mpr ((Frontier.iff_kernel.mp (frontier_addAll_nil hp')).of_mem_iff hmem)
    refine exists_perm_alike h.antichain h'.antichain (fun p hk => h.exists_alike h' hk) ?_
    intro q hq
    obtain ⟨p, hpk, hqp, hpq⟩ := h'.exists_alike h hq
    exact ⟨p, hpk, hpq, hqp⟩
  · exact add_eq_self (hp p hpp) (fun q hq => hp q (h.subset q hq)) h.antichain (h.covers p hpp)

/-- Three scans of one relation: an unsorted one, a dearer sorted one, and a
sorted one at the cost of the first. -/
def threeScans : List (Path Float) :=
  let sorted : Pathkeys Float := [[⟨.var ⟨1, 1, .int4, -1⟩, 97⟩]]
  [⟨0, .seqScan 1, 1, 0, 10, []⟩, ⟨0, .seqScan 1, 1, 0, 15, sorted⟩,
    ⟨0, .seqScan 1, 1, 0, 10, sorted⟩]

theorem isCosted_threeScans : ∀ p ∈ threeScans, IsCosted p := by
  simp only [threeScans, List.forall_mem_cons, IsCosted]
  decide +kernel

/-- Of the three scans the last alone is kept. -/
theorem addAll_nil_threeScans :
    (∀ p ∈ threeScans, IsCosted p) ∧ (addAll threeScans []).length = 1 ∧
      ∀ p ∈ threeScans, ∃ q ∈ addAll threeScans [], Dominates q p :=
  ⟨isCosted_threeScans, by decide +kernel,
    (addAll_nil_isFrontier threeScans isCosted_threeScans).2.2.1⟩

end QueryPlanner.Path
