/-
  QueryPlanner.Proofs.Kernel

  What is kept of elements that are offered one by one.

  An element is refused if one that is kept dominates it, and otherwise it
  drives out those that it dominates.  Where domination is a preorder of the
  elements offered, what is kept is a kernel of them: none of it dominates
  another, and every element offered is dominated by a kept one.  Two kernels
  of the same elements are the same up to elements that dominate each other,
  so the order of the offers decides only which of these is kept.

  Transitivity is more than this takes.  It is enough that the unbeaten
  elements, dominated by none that they do not dominate, decide (`Settles`):
  an unbeaten element is kept, or one that dominates the same elements, and
  all others go.
-/

import Mathlib.Data.List.Pairwise
import Mathlib.Data.List.Perm.Basic

namespace QueryPlanner

variable {β : Type} {D : β → β → Prop} {S : β → Prop}

/-- Domination is a preorder of some elements. -/
structure PreorderOn (S : β → Prop) (D : β → β → Prop) : Prop where
  refl : ∀ {a}, S a → D a a
  trans : ∀ {a b c}, S a → S b → S c → D a b → D b c → D a c

/-- Elements none of which dominates one at another place, and which between
them dominate all that were offered. -/
structure Kernel (D : β → β → Prop) (offered kept : List β) : Prop where
  subset : ∀ a ∈ kept, a ∈ offered
  antichain : kept.Pairwise fun a b => ¬ D a b ∧ ¬ D b a
  covers : ∀ a ∈ offered, ∃ b ∈ kept, D b a

/-- In an antichain an element dominates only itself. -/
theorem eq_of_antichain {l : List β} (h : l.Pairwise fun a b => ¬ D a b ∧ ¬ D b a) {a b : β}
    (ha : a ∈ l) (hb : b ∈ l) (hab : D a b) : a = b := by
  by_contra hne
  have : Std.Symm fun a b => ¬ D a b ∧ ¬ D b a := ⟨fun _ _ h => ⟨h.2, h.1⟩⟩
  exact (List.Pairwise.forall h ha hb hne).1 hab

/-! ## One more element -/

section Keep

variable [DecidableRel D]

/-- What is kept when one more element is offered. -/
def keep (D : β → β → Prop) [DecidableRel D] (new : β) : List β → List β
  | [] => [new]
  | old :: rest =>
    if D old new then old :: rest
    else if D new old then keep D new rest
    else old :: keep D new rest

variable {new a : β} {kept : List β}

theorem mem_keep (h : a ∈ keep D new kept) : a = new ∨ a ∈ kept := by
  induction kept with
  | nil => simpa [keep] using h
  | cons old rest ih =>
      rw [keep] at h
      split_ifs at h
      · exact .inr h
      · exact (ih h).imp_right (List.mem_cons_of_mem old)
      · rcases List.mem_cons.mp h with rfl | h
        · exact .inr List.mem_cons_self
        · exact (ih h).imp_right (List.mem_cons_of_mem old)

theorem antichain_keep (h : kept.Pairwise fun a b => ¬ D a b ∧ ¬ D b a) :
    (keep D new kept).Pairwise fun a b => ¬ D a b ∧ ¬ D b a := by
  induction kept with
  | nil => exact List.pairwise_singleton ..
  | cons old rest ih =>
      obtain ⟨hold, hrest⟩ := List.pairwise_cons.mp h
      rw [keep]
      split_ifs with hon hno
      · exact h
      · exact ih hrest
      · refine List.pairwise_cons.mpr ⟨fun a ha => ?_, ih hrest⟩
        rcases mem_keep ha with rfl | ha
        · exact ⟨hon, hno⟩
        · exact hold a ha

/-- Nothing is lost: an element that goes is dominated by the new one, and a
new one that is refused by an old one. -/
theorem covers_keep (hD : PreorderOn S D) (hn : S new) (hk : ∀ a ∈ kept, S a) :
    ∀ a ∈ new :: kept, ∃ b ∈ keep D new kept, D b a := by
  induction kept with
  | nil =>
      intro a ha
      rw [List.mem_singleton.mp ha]
      exact ⟨new, List.mem_singleton_self new, hD.refl hn⟩
  | cons old rest ih =>
      obtain ⟨ho, hk⟩ := List.forall_mem_cons.mp hk
      have ih := ih hk
      rw [keep]
      split_ifs with hon hno
      · -- The list stays as it is.
        have hself : ∀ a ∈ old :: rest, ∃ b ∈ old :: rest, D b a := by
          intro a ha
          exact ⟨a, ha, hD.refl (List.forall_mem_cons.mpr ⟨ho, hk⟩ a ha)⟩
        exact List.forall_mem_cons.mpr ⟨⟨old, List.mem_cons_self, hon⟩, hself⟩
      · -- The old element goes; what covers the new one covers it as well.
        obtain ⟨b, hb, hbn⟩ := ih new List.mem_cons_self
        have hbs : S b := by
          rcases mem_keep hb with rfl | hb
          · exact hn
          · exact hk b hb
        refine List.forall_mem_cons.mpr ⟨⟨b, hb, hbn⟩, ?_⟩
        refine List.forall_mem_cons.mpr ⟨⟨b, hb, hD.trans hbs hn ho hbn hno⟩, fun a ha => ?_⟩
        exact ih a (List.mem_cons_of_mem new ha)
      · -- The old element stays in front of whatever becomes of the rest.
        have lift : ∀ a ∈ new :: rest, ∃ b ∈ old :: keep D new rest, D b a := by
          intro a ha
          obtain ⟨b, hb, hba⟩ := ih a ha
          exact ⟨b, List.mem_cons_of_mem old hb, hba⟩
        obtain ⟨hnew, hrest⟩ := List.forall_mem_cons.mp lift
        exact List.forall_mem_cons.mpr ⟨hnew, List.forall_mem_cons.mpr
          ⟨⟨old, List.mem_cons_self, hD.refl ho⟩, hrest⟩⟩

/-- An element that some kept one dominates changes nothing.  An old one that
it would drive out were dominated by the keeper as well. -/
theorem keep_eq_self (hD : PreorderOn S D) (hn : S new) (hk : ∀ a ∈ kept, S a)
    (h : kept.Pairwise fun a b => ¬ D a b ∧ ¬ D b a) (hcovered : ∃ b ∈ kept, D b new) :
    keep D new kept = kept := by
  induction kept with
  | nil => simp at hcovered
  | cons old rest ih =>
      obtain ⟨ho, hk'⟩ := List.forall_mem_cons.mp hk
      rw [keep]
      by_cases hon : D old new
      · rw [if_pos hon]
      · obtain ⟨b, hb, hbn⟩ := hcovered
        have hbo : b ≠ old := by
          rintro rfl
          exact hon hbn
        have hno : ¬ D new old := fun hno =>
          hbo (eq_of_antichain h hb List.mem_cons_self (hD.trans (hk b hb) hn ho hbn hno))
        rw [if_neg hon, if_neg hno]
        -- So the walk goes past the first element, and the keeper is further behind.
        have hrest : b ∈ rest := (List.mem_cons.mp hb).resolve_left hbo
        rw [ih hk' (List.pairwise_cons.mp h).2 ⟨b, hrest, hbn⟩]

end Keep

/-! ## Two kernels -/

namespace Kernel

variable {offered kept kept' : List β}

theorem keep [DecidableRel D] {new : β} (h : Kernel D offered kept) (hD : PreorderOn S D)
    (ho : ∀ a ∈ offered, S a) (hn : S new) :
    Kernel D (offered ++ [new]) (keep D new kept) := by
  have hk : ∀ a ∈ kept, S a := fun a ha => ho a (h.subset a ha)
  have hcovers := covers_keep hD hn hk
  refine ⟨fun a ha => ?_, antichain_keep h.antichain, fun a ha => ?_⟩
  · rcases mem_keep ha with rfl | ha
    · exact List.mem_append_right _ (List.mem_singleton_self a)
    · exact List.mem_append_left _ (h.subset a ha)
  · rcases List.mem_append.mp ha with ha | ha
    · obtain ⟨b, hb, hba⟩ := h.covers a ha
      obtain ⟨c, hc, hcb⟩ := hcovers b (List.mem_cons_of_mem new hb)
      have hcs : S c := by
        rcases mem_keep hc with rfl | hc
        · exact hn
        · exact hk c hc
      exact ⟨c, hc, hD.trans hcs (hk b hb) (ho a ha) hcb hba⟩
    · rw [List.mem_singleton.mp ha]
      exact hcovers new List.mem_cons_self

/-- A kernel is one of the elements offered, not of their order. -/
theorem of_mem_iff {offered' : List β} (h : Kernel D offered kept)
    (hmem : ∀ a, a ∈ offered ↔ a ∈ offered') : Kernel D offered' kept :=
  ⟨fun a ha => (hmem a).mp (h.subset a ha), h.antichain, fun a ha => h.covers a ((hmem a).mpr ha)⟩

theorem perm (h : Kernel D offered kept) (hperm : kept.Perm kept') : Kernel D offered kept' where
  subset := fun a ha => h.subset a (hperm.mem_iff.mpr ha)
  antichain := h.antichain.perm hperm fun h => ⟨h.2, h.1⟩
  covers := fun a ha => by
    obtain ⟨b, hb, hba⟩ := h.covers a ha
    exact ⟨b, hperm.mem_iff.mp hb, hba⟩

/-- Of two kernels of the same elements, every element of one has its like in
the other. -/
theorem exists_alike (h : Kernel D offered kept) (h' : Kernel D offered kept')
    (htrans : ∀ {a b c}, S a → S b → S c → D a b → D b c → D a c) (ho : ∀ a ∈ offered, S a)
    {a : β} (ha : a ∈ kept) : ∃ b ∈ kept', D a b ∧ D b a := by
  obtain ⟨b, hb, hba⟩ := h'.covers a (h.subset a ha)
  obtain ⟨c, hc, hcb⟩ := h.covers b (h'.subset b hb)
  -- The element that dominates `b` dominates `a` too, and so it is `a`.
  have hca : D c a := htrans (ho c (h.subset c hc)) (ho b (h'.subset b hb))
    (ho a (h.subset a ha)) hcb hba
  have hsame : c = a := eq_of_antichain h.antichain hc ha hca
  exact ⟨b, hb, hsame ▸ hcb, hba⟩

end Kernel

/-- Two antichains whose elements have their like in each other hold alike
elements, in some order. -/
theorem exists_perm_of_antichain {l l' : List β}
    (htrans : ∀ {a b c}, S a → S b → S c → D a b → D b c → D a c) (hs : ∀ a ∈ l, S a)
    (hs' : ∀ b ∈ l', S b) (hl : l.Pairwise fun a b => ¬ D a b ∧ ¬ D b a)
    (hl' : l'.Pairwise fun a b => ¬ D a b ∧ ¬ D b a)
    (h : ∀ a ∈ l, ∃ b ∈ l', D a b ∧ D b a) (h' : ∀ b ∈ l', ∃ a ∈ l, D a b ∧ D b a) :
    ∃ m, m.Perm l' ∧ List.Forall₂ (fun a b => D a b ∧ D b a) l m := by
  induction l generalizing l' with
  | nil =>
      have hnil : l' = [] := List.eq_nil_iff_forall_not_mem.mpr fun b hb => by
        obtain ⟨a, ha, -⟩ := h' b hb
        exact absurd ha List.not_mem_nil
      exact ⟨[], hnil ▸ .nil, .nil⟩
  | cons a rest ih =>
      obtain ⟨⟨b, hb, hab, hba⟩, hrest⟩ := List.forall_mem_cons.mp h
      obtain ⟨ha, hl⟩ := List.pairwise_cons.mp hl
      obtain ⟨hsa, hsrest⟩ := List.forall_mem_cons.mp hs
      -- The first element and its like are taken out of the two lists.
      obtain ⟨front, back, rfl⟩ := List.append_of_mem hb
      have hperm : (b :: (front ++ back)).Perm (front ++ b :: back) := List.perm_middle.symm
      have hsb := hs' b hb
      have hs' : ∀ c ∈ front ++ back, S c :=
        fun c hc => hs' c (hperm.mem_iff.mp (List.mem_cons_of_mem b hc))
      obtain ⟨hb', hl'⟩ := List.pairwise_cons.mp (hl'.perm hperm.symm fun h => ⟨h.2, h.1⟩)
      have split {c : β} : c ∈ front ++ b :: back → c = b ∨ c ∈ front ++ back := fun hc =>
        List.mem_cons.mp (hperm.mem_iff.mpr hc)
      obtain ⟨m, hm, hall⟩ := ih hsrest hs' hl hl'
        (fun c hc => by
          obtain ⟨d, hd, hcd, hdc⟩ := hrest c hc
          rcases split hd with rfl | hd
          · exact absurd (htrans hsa hsb (hsrest c hc) hab hdc) (ha c hc).1
          · exact ⟨d, hd, hcd, hdc⟩)
        (fun d hd => by
          obtain ⟨c, hc, hcd, hdc⟩ := h' d (hperm.mem_iff.mp (List.mem_cons_of_mem b hd))
          rcases List.mem_cons.mp hc with rfl | hc
          · exact absurd (htrans hsb hsa (hs' d hd) hba hcd) (hb' d hd).1
          · exact ⟨c, hc, hcd, hdc⟩)
      exact ⟨b :: m, (hm.cons b).trans hperm, .cons ⟨hab, hba⟩ hall⟩

/-! ## Without transitivity -/

/-- Dominated only by what it dominates itself. -/
def Unbeaten (D : β → β → Prop) (offered : List β) (a : β) : Prop :=
  ∀ b ∈ offered, D b a → D a b

/-- The unbeaten elements decide: they dominate all others, and those that
dominate each other dominate the same elements. -/
structure Settles (D : β → β → Prop) (offered : List β) : Prop where
  refl : ∀ a ∈ offered, D a a
  reached : ∀ a ∈ offered, ∃ b ∈ offered, Unbeaten D offered b ∧ D b a
  tied : ∀ a ∈ offered, ∀ b ∈ offered, Unbeaten D offered a → D b a →
    Unbeaten D offered b ∧ ∀ c ∈ offered, D a c → D b c

/-- What is kept of the elements seen so far: for each unbeaten one of them an
element that dominates it, and nothing beaten that an unbeaten one of them
dominates. -/
structure KeptOf (D : β → β → Prop) (offered seen kept : List β) : Prop where
  subset : ∀ a ∈ kept, a ∈ seen
  antichain : kept.Pairwise fun a b => ¬ D a b ∧ ¬ D b a
  covers : ∀ a ∈ seen, Unbeaten D offered a → ∃ b ∈ kept, D b a
  clear : ∀ a ∈ kept, ∀ b ∈ seen, Unbeaten D offered b → D b a → Unbeaten D offered a

section Keep

variable [DecidableRel D] {new a : β} {kept front back : List β}

/-- An element that none dominates drives out all that it dominates. -/
theorem keep_of_not_dominated (h : ∀ a ∈ kept, ¬ D a new) :
    keep D new kept = (kept.filter fun a => ¬ D new a) ++ [new] := by
  induction kept with
  | nil => rfl
  | cons old rest ih =>
      obtain ⟨hold, hrest⟩ := List.forall_mem_cons.mp h
      rw [keep, if_neg hold, ih hrest]
      by_cases hnew : D new old
      · rw [if_pos hnew, List.filter_cons_of_neg (by simpa using hnew)]
      · rw [if_neg hnew, List.filter_cons_of_pos (by simpa using hnew), List.cons_append]

/-- An element that is refused may have driven out others before. -/
theorem keep_of_dominated (hfront : ∀ b ∈ front, ¬ D b new) (ha : D a new) :
    keep D new (front ++ a :: back) = (front.filter fun b => ¬ D new b) ++ a :: back := by
  induction front with
  | nil => exact if_pos ha
  | cons old rest ih =>
      obtain ⟨hold, hrest⟩ := List.forall_mem_cons.mp hfront
      rw [List.cons_append, keep, if_neg hold, ih hrest]
      by_cases hnew : D new old
      · rw [if_pos hnew, List.filter_cons_of_neg (by simpa using hnew)]
      · rw [if_neg hnew, List.filter_cons_of_pos (by simpa using hnew), List.cons_append]

variable {offered seen : List β} (hD : Settles D offered) (hseen : ∀ a ∈ seen, a ∈ offered)
  (hnew : new ∈ offered)
include hD hseen hnew

theorem KeptOf.keep_of_not_dominated (h : KeptOf D offered seen kept)
    (hfree : ∀ a ∈ kept, ¬ D a new) : KeptOf D offered (seen ++ [new]) (keep D new kept) := by
  have hmem {a : β} : a ∈ keep D new kept ↔ (a ∈ kept ∧ ¬ D new a) ∨ a = new := by
    rw [QueryPlanner.keep_of_not_dominated hfree]
    simp
  refine ⟨fun a ha => ?_, antichain_keep h.antichain, fun a ha hunbeaten => ?_,
    fun a ha b hb hunbeaten hba => ?_⟩
  · rw [List.mem_append, List.mem_singleton]
    exact (hmem.mp ha).imp_left fun ha => h.subset a ha.1
  · rcases List.mem_append.mp ha with ha | ha
    · obtain ⟨b, hb, hba⟩ := h.covers a ha hunbeaten
      by_cases hnb : D new b
      · -- What drives out an element takes its place.
        have hbo := hseen b (h.subset b hb)
        obtain ⟨hb', -⟩ := hD.tied a (hseen a ha) b hbo hunbeaten hba
        obtain ⟨-, hsame⟩ := hD.tied b hbo new hnew hb' hnb
        exact ⟨new, hmem.mpr (.inr rfl), hsame a (hseen a ha) hba⟩
      · exact ⟨b, hmem.mpr (.inl ⟨hb, hnb⟩), hba⟩
    · rw [List.mem_singleton.mp ha]
      exact ⟨new, hmem.mpr (.inr rfl), hD.refl new hnew⟩
  · rcases hmem.mp ha with ⟨ha, hna⟩ | rfl <;>
    rcases List.mem_append.mp hb with hb | hb
    · exact h.clear a ha b hb hunbeaten hba
    · exact absurd (List.mem_singleton.mp hb ▸ hba) hna
    · -- What is kept for the unbeaten element dominates the new one as well.
      obtain ⟨c, hc, hcb⟩ := h.covers b hb hunbeaten
      obtain ⟨-, hsame⟩ := hD.tied b (hseen b hb) c (hseen c (h.subset c hc)) hunbeaten hcb
      exact absurd (hsame a hnew hba) (hfree c hc)
    · rwa [← List.mem_singleton.mp hb]

theorem KeptOf.keep_of_dominated (h : KeptOf D offered seen (front ++ a :: back))
    (hfront : ∀ b ∈ front, ¬ D b new) (ha : D a new) :
    KeptOf D offered (seen ++ [new]) (keep D new (front ++ a :: back)) := by
  have hmem {b : β} : b ∈ keep D new (front ++ a :: back) ↔
      (b ∈ front ∧ ¬ D new b) ∨ b ∈ a :: back := by
    rw [QueryPlanner.keep_of_dominated hfront ha]
    simp
  have hold {b : β} (hb : b ∈ keep D new (front ++ a :: back)) : b ∈ front ++ a :: back :=
    List.mem_append.mpr ((hmem.mp hb).imp_left (·.1))
  have hak : a ∈ front ++ a :: back := List.mem_append_right _ List.mem_cons_self
  have hao : a ∈ offered := hseen a (h.subset a hak)
  -- If the new element is unbeaten, then so is the one that refuses it, and
  -- the two dominate the same elements; of those kept this is that one alone.
  have hself (hunbeaten : Unbeaten D offered new) {b : β} (hb : b ∈ front ++ a :: back)
      (hnb : D new b) : b = a ∧ Unbeaten D offered a := by
    obtain ⟨ha', hsame⟩ := hD.tied new hnew a hao hunbeaten ha
    have hab : D a b := hsame b (hseen b (h.subset b hb)) hnb
    exact ⟨(eq_of_antichain h.antichain hak hb hab).symm, ha'⟩
  refine ⟨fun b hb => List.mem_append_left _ (h.subset b (hold hb)), antichain_keep h.antichain,
    fun b hb hunbeaten => ?_, fun b hb c hc hunbeaten hcb => ?_⟩
  · rcases List.mem_append.mp hb with hb | hb
    · obtain ⟨c, hc, hcb⟩ := h.covers b hb hunbeaten
      by_cases hkept : c ∈ keep D new (front ++ a :: back)
      · exact ⟨c, hkept, hcb⟩
      · -- It has been driven out, by an element that is unbeaten and refused.
        have hco := hseen c (h.subset c hc)
        have hnc : D new c := by
          by_contra hnc
          exact hkept (hmem.mpr ((List.mem_append.mp hc).imp_left fun hc => ⟨hc, hnc⟩))
        obtain ⟨hc', -⟩ := hD.tied b (hseen b hb) c hco hunbeaten hcb
        obtain ⟨hnew', -⟩ := hD.tied c hco new hnew hc' hnc
        obtain ⟨rfl, -⟩ := hself hnew' hc hnc
        exact absurd (hmem.mpr (.inr List.mem_cons_self)) hkept
    · rw [List.mem_singleton.mp hb]
      exact ⟨a, hmem.mpr (.inr List.mem_cons_self), ha⟩
  · rcases List.mem_append.mp hc with hc | hc
    · exact h.clear b (hold hb) c hc hunbeaten hcb
    · rw [List.mem_singleton.mp hc] at hunbeaten hcb
      obtain ⟨rfl, hb'⟩ := hself hunbeaten (hold hb) hcb
      exact hb'

theorem KeptOf.keep (h : KeptOf D offered seen kept) :
    KeptOf D offered (seen ++ [new]) (keep D new kept) := by
  by_cases hfree : ∀ a ∈ kept, ¬ D a new
  · exact h.keep_of_not_dominated hD hseen hnew hfree
  · obtain ⟨a, ha, han⟩ : ∃ a ∈ kept, D a new := by simpa using hfree
    obtain ⟨b, front, back, hfront, hbn, rfl, -⟩ :=
      List.exists_of_eraseP (p := fun a => decide (D a new)) ha (decide_eq_true han)
    exact h.keep_of_dominated hD hseen hnew (fun c hc => by simpa using hfront c hc)
      (of_decide_eq_true hbn)

end Keep

/-! ### The outcome -/

namespace Settles

variable {offered kept kept' : List β} (h : Settles D offered)
include h

theorem keptOf_foldl [DecidableRel D] {seen new : List β} (hk : KeptOf D offered seen kept)
    (hseen : ∀ a ∈ seen, a ∈ offered) (hnew : ∀ a ∈ new, a ∈ offered) :
    KeptOf D offered (seen ++ new) (new.foldl (fun kept a => keep D a kept) kept) := by
  induction new generalizing seen kept with
  | nil => rwa [List.append_nil]
  | cons a rest ih =>
      obtain ⟨ha, hrest⟩ := List.forall_mem_cons.mp hnew
      have hseen' : ∀ b ∈ seen ++ [a], b ∈ offered := by
        intro b hb
        rcases List.mem_append.mp hb with hb | hb
        · exact hseen b hb
        · exact List.mem_singleton.mp hb ▸ ha
      have hstep := ih (hk.keep h hseen ha) hseen' hrest
      rwa [List.append_assoc, List.singleton_append] at hstep

/-- In whatever order the elements are offered, a kernel of them is kept. -/
theorem kernel [DecidableRel D] {new : List β} (hmem : ∀ a, a ∈ new ↔ a ∈ offered) :
    Kernel D offered (new.foldl (fun kept a => keep D a kept) []) := by
  have hnil : KeptOf D offered [] [] := ⟨nofun, .nil, nofun, nofun⟩
  have hall := h.keptOf_foldl hnil nofun fun a ha => (hmem a).mp ha
  rw [List.nil_append] at hall
  refine ⟨fun a ha => (hmem a).mp (hall.subset a ha), hall.antichain, fun a ha => ?_⟩
  obtain ⟨b, hb, hunbeaten, hba⟩ := h.reached a ha
  obtain ⟨c, hc, hcb⟩ := hall.covers b ((hmem b).mpr hb) hunbeaten
  obtain ⟨-, hsame⟩ := h.tied b hb c ((hmem c).mp (hall.subset c hc)) hunbeaten hcb
  exact ⟨c, hc, hsame a ha hba⟩

/-- A kernel has unbeaten elements only. -/
theorem unbeaten (hk : Kernel D offered kept) {a : β} (ha : a ∈ kept) : Unbeaten D offered a := by
  obtain ⟨b, hb, hunbeaten, hba⟩ := h.reached a (hk.subset a ha)
  obtain ⟨c, hc, hcb⟩ := hk.covers b hb
  obtain ⟨hc', hsame⟩ := h.tied b hb c (hk.subset c hc) hunbeaten hcb
  have hca : D c a := hsame a (hk.subset a ha) hba
  rwa [← eq_of_antichain hk.antichain hc ha hca]

/-- Two kernels hold elements that dominate each other, in some order. -/
theorem exists_perm_alike (hk : Kernel D offered kept) (hk' : Kernel D offered kept') :
    ∃ l, l.Perm kept' ∧ List.Forall₂ (fun a b => D a b ∧ D b a) kept l := by
  have halike {l l' : List β} (hl : Kernel D offered l) (hl' : Kernel D offered l') :
      ∀ a ∈ l, ∃ b ∈ l', D a b ∧ D b a := by
    intro a ha
    obtain ⟨b, hb, hba⟩ := hl'.covers a (hl.subset a ha)
    exact ⟨b, hb, h.unbeaten hl ha b (hl'.subset b hb) hba, hba⟩
  apply exists_perm_of_antichain (S := fun a => a ∈ offered ∧ Unbeaten D offered a)
  · intro a b c ha hb hc hab hbc
    obtain ⟨-, hsame⟩ := h.tied b hb.1 a ha.1 hb.2 hab
    exact hsame c hc.1 hbc
  · exact fun a ha => ⟨hk.subset a ha, h.unbeaten hk ha⟩
  · exact fun b hb => ⟨hk'.subset b hb, h.unbeaten hk' hb⟩
  · exact hk.antichain
  · exact hk'.antichain
  · exact halike hk hk'
  · intro b hb
    obtain ⟨a, ha, hba, hab⟩ := halike hk' hk b hb
    exact ⟨a, ha, hab, hba⟩

end Settles

end QueryPlanner
