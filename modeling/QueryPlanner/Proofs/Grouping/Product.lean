/-
  QueryPlanner.Proofs.Grouping.Product

  The groups of several relations, multiplied.

  Variables are taken apart by relation, and each relation adds one factor,
  which the order of its variables does not change.  So variables in another
  order have the same factors, in another order (`factors_perm`).  A variable
  that is the only one of its relation adds a factor of its own, and may be
  replaced by one of another relation that adds as much (`factors_congr`).
-/

import Mathlib.Data.List.Forall2
import Mathlib.Data.List.Perm.Basic
import QueryPlanner.Grouping
import QueryPlanner.Proofs.Selectivity.Conjunction

namespace QueryPlanner

/-! ## Numbers -/

/-- Any two numbers compare, and neither products nor the greatest of several
numbers depend on their order. -/
class Number.Pools (α : Type) [Number α] : Prop extends Number.Reorders α where
  le_total (a b : α) : a ≤ b ∨ b ≤ a
  mul_comm (a b : α) : a * b = b * a
  max_comm (a b : α) : Number.max a b = Number.max b a
  max_right_comm (a b c : α) : Number.max (Number.max a b) c = Number.max (Number.max a c) b

theorem Number.pools_rational (log2 : Rat → Rat) : @Pools Rat (rational log2) :=
  letI := rational log2
  { reorders_rational log2 with
    le_total := fun _ _ => Rat.le_total
    mul_comm := fun a b => Rat.mul_comm a b
    max_comm := fun a b => by
      rw [max_rational, max_rational, max_comm]
    max_right_comm := fun a b c => by
      rw [max_rational, max_rational, max_rational, max_rational, max_right_comm] }

section Pool

variable {β : Type} {op : β → β → β}

/-- Several numbers brought to one, from the left. -/
def pool (op : β → β → β) : List β → Option β
  | [] => none
  | a :: l => some (l.foldl op a)

theorem pool_perm (hcomm : ∀ a b, op a b = op b a)
    (hright : ∀ a b c, op (op a b) c = op (op a c) b) {l m : List β} (h : l.Perm m) :
    pool op l = pool op m := by
  induction h with
  | nil => rfl
  | cons a h _ => exact congrArg some (h.foldl_eq' (fun x _ y _ z => hright z x y) a)
  | swap a b l =>
      show some (l.foldl op (op b a)) = some (l.foldl op (op a b))
      rw [hcomm]
  | trans _ _ ih ih' => exact ih.trans ih'

theorem foldl_eq_of_cons_perm (hcomm : ∀ a b, op a b = op b a)
    (hright : ∀ a b c, op (op a b) c = op (op a c) b) {a b : β} {l m : List β}
    (h : (a :: l).Perm (b :: m)) : l.foldl op a = m.foldl op b :=
  Option.some.inj (pool_perm hcomm hright h)

end Pool

/-- Elements that stand at one place of two lists are elements of them. -/
theorem forall₂_with_mem {β γ : Type} {R : β → γ → Prop} {l : List β} {m : List γ}
    (h : List.Forall₂ R l m) : List.Forall₂ (fun a b => a ∈ l ∧ b ∈ m ∧ R a b) l m := by
  obtain ⟨hlength, hzip⟩ := List.forall₂_iff_zip.mp h
  refine List.forall₂_iff_zip.mpr ⟨hlength, fun hab => ?_⟩
  exact ⟨(List.of_mem_zip hab).1, (List.of_mem_zip hab).2, hzip hab⟩

namespace Grouping

variable {α : Type} {u v first first' : GroupVar α} {vars vars' others others' : List (GroupVar α)}

/-! ## Relations -/

theorem sameRelation_iff {a b : Option (Relation α)} :
    sameRelation a b = true ↔ a.map (·.id) = b.map (·.id) := by
  rw [sameRelation, beq_iff_eq]

theorem sameRelation_comm (a b : Option (Relation α)) : sameRelation a b = sameRelation b a := by
  rw [sameRelation, sameRelation, Bool.beq_comm]

theorem alongside_cons (hv : sameRelation u.relation v.relation = true) :
    alongside v (u :: vars) = u :: alongside v vars :=
  List.filter_cons_of_pos hv

theorem alongside_cons_of_ne (hv : sameRelation u.relation v.relation = false) :
    alongside v (u :: vars) = alongside v vars :=
  List.filter_cons_of_neg (by simp [hv])

theorem elsewhere_cons (hv : sameRelation u.relation v.relation = true) :
    elsewhere v (u :: vars) = elsewhere v vars :=
  List.filter_cons_of_neg (by simp [hv])

theorem elsewhere_cons_of_ne (hv : sameRelation u.relation v.relation = false) :
    elsewhere v (u :: vars) = u :: elsewhere v vars :=
  List.filter_cons_of_pos (by simp [hv])

theorem alongside_elsewhere (h : sameRelation u.relation v.relation = false) :
    alongside v (elsewhere u vars) = alongside v vars := by
  rw [alongside, elsewhere, List.filter_filter]
  refine List.filter_congr fun w _ => ?_
  cases hv : sameRelation w.relation v.relation with
  | false => rfl
  | true =>
      rw [sameRelation, sameRelation_iff.mp hv, ← sameRelation, sameRelation_comm, h]
      rfl

theorem elsewhere_comm : elsewhere v (elsewhere u vars) = elsewhere u (elsewhere v vars) :=
  List.filter_comm _ _ vars

theorem mem_of_mem_elsewhere (h : v ∈ elsewhere first vars) : v ∈ first :: vars :=
  List.mem_cons_of_mem first (List.mem_of_mem_filter h)

theorem alongside_congr (h : List.Forall₂ (fun u v =>
      sameRelation u.relation first.relation = sameRelation v.relation first'.relation ∧
        (sameRelation u.relation first.relation = true → u = v)) vars vars') :
    alongside first vars = alongside first' vars' := by
  induction h with
  | nil => rfl
  | @cons u v vars vars' huv _ ih =>
      obtain ⟨hside, hone⟩ := huv
      cases hu : sameRelation u.relation first.relation with
      | true => rw [alongside_cons hu, alongside_cons (hside ▸ hu), ih, hone hu]
      | false => rw [alongside_cons_of_ne hu, alongside_cons_of_ne (hside ▸ hu), ih]

theorem forall₂_elsewhere {R : GroupVar α → GroupVar α → Prop}
    (h : List.Forall₂ (fun u v => R u v ∧
      sameRelation u.relation first.relation = sameRelation v.relation first'.relation) vars vars') :
    List.Forall₂ R (elsewhere first vars) (elsewhere first' vars') := by
  refine (List.rel_filter (fun u v huv => ?_) h).imp fun u v huv => huv.1
  show (!sameRelation u.relation first.relation) = true ↔
    (!sameRelation v.relation first'.relation) = true
  rw [huv.2]

/-- The only one of its relation. -/
def Lone (vars : List (GroupVar α)) (v : GroupVar α) : Prop :=
  ∀ w ∈ vars, sameRelation w.relation v.relation = true → w = v

theorem Lone.mono (h : Lone vars v) (hsub : ∀ w ∈ vars', w ∈ vars) : Lone vars' v :=
  fun w hw => h w (hsub w hw)

theorem Lone.apart (h : Lone (first :: vars) v) (hne : first ≠ v) :
    sameRelation v.relation first.relation = false := by
  rw [← Bool.not_eq_true]
  intro hsame
  rw [sameRelation_comm] at hsame
  exact hne (h first List.mem_cons_self hsame)

theorem Lone.all_apart (h : Lone (first :: vars) first) (hfirst : first ∉ vars) :
    ∀ v ∈ vars, sameRelation v.relation first.relation = false := by
  intro v hv
  rw [← Bool.not_eq_true]
  intro hsame
  exact hfirst (h v (List.mem_cons_of_mem first hv) hsame ▸ hv)

/-! ## Factors -/

variable [Number α]

/-- The groups of variables of one relation. -/
def groupsOf : List (GroupVar α) → Option α
  | [] => none
  | first :: others => relationGroups first others

/-- What each relation adds to the product. -/
def factors : List (GroupVar α) → List (Option α)
  | [] => []
  | first :: rest =>
    relationGroups first (alongside first rest) :: factors (elsewhere first rest)
termination_by vars => vars.length
decreasing_by
  have h := length_elsewhere_le first rest
  simp only [List.length_cons]
  omega

/-- A product with one more factor, if there is one. -/
def times (acc : α) : Option α → α
  | some n => acc * n
  | none => acc

theorem product_eq_foldl (acc : α) (vars : List (GroupVar α)) :
    product acc vars = (factors vars).foldl times acc := by
  induction acc, vars using product.induct with
  | case1 acc => rw [product, factors, List.foldl_nil]
  | case2 acc first rest n h ih =>
      rw [product, h, factors, List.foldl_cons, h]
      exact ih
  | case3 acc first rest h ih =>
      rw [product, h, factors, List.foldl_cons, h]
      exact ih

/-! ## Another order -/

section Order

variable [Number.Pools α]

theorem relationGroups_perm (h : (first :: others).Perm (first' :: others'))
    (hrelation : first.relation = first'.relation) :
    relationGroups first others = relationGroups first' others' := by
  have hdistinct : (first.distinct :: others.map (·.distinct)).Perm
      (first'.distinct :: others'.map (·.distinct)) := h.map GroupVar.distinct
  have hproduct := foldl_eq_of_cons_perm Number.Pools.mul_comm Number.Reorders.mul_right_comm
    hdistinct
  have hmost := foldl_eq_of_cons_perm Number.Pools.max_comm Number.Pools.max_right_comm hdistinct
  rw [List.foldl_map, List.foldl_map] at hproduct hmost
  have hempty : others.isEmpty = others'.isEmpty := by
    have hlength := h.length_eq
    cases others <;> cases others' <;> simp_all
  simp only [relationGroups, hrelation, hproduct, hmost, hempty]

theorem groupsOf_perm {r : Option (Relation α)} (h : vars.Perm vars')
    (hr : ∀ v ∈ vars, v.relation = r) : groupsOf vars = groupsOf vars' := by
  cases vars with
  | nil => rw [h.nil_eq]
  | cons first others =>
      cases vars' with
      | nil => exact absurd h.length_eq (by simp)
      | cons first' others' =>
          have hfirst := hr first List.mem_cons_self
          have hfirst' := hr first' (h.mem_iff.mpr List.mem_cons_self)
          exact relationGroups_perm h (hfirst.trans hfirst'.symm)

omit [Number.Pools α] in
/-- Any relation may be taken first. -/
theorem factors_perm_cons (hv : v ∈ vars) :
    (factors vars).Perm (groupsOf (alongside v vars) :: factors (elsewhere v vars)) := by
  induction vars using factors.induct with
  | case1 => exact absurd hv List.not_mem_nil
  | case2 first rest ih =>
      rw [factors]
      cases hsame : sameRelation first.relation v.relation with
      | true =>
          have hkey := sameRelation_iff.mp hsame
          have hside : alongside v rest = alongside first rest := by
            simp only [alongside, sameRelation, hkey]
          have helse : elsewhere v rest = elsewhere first rest := by
            simp only [elsewhere, sameRelation, hkey]
          rw [alongside_cons hsame, elsewhere_cons hsame, hside, helse]
          exact .refl _
      | false =>
          -- The variable stands behind the first relation, which comes in front again.
          have hapart : sameRelation v.relation first.relation = false := by
            rw [sameRelation_comm, hsame]
          have hbehind : v ∈ elsewhere first rest := by
            refine List.mem_filter.mpr ⟨?_, by rw [hapart, Bool.not_false]⟩
            rcases List.mem_cons.mp hv with rfl | hv
            · rw [sameRelation_iff.mpr rfl] at hsame
              exact nomatch hsame
            · exact hv
          have ih := ih hbehind
          rw [alongside_elsewhere hsame, elsewhere_comm] at ih
          rw [alongside_cons_of_ne hsame, elsewhere_cons_of_ne hsame, factors,
            alongside_elsewhere hapart]
          exact (ih.cons _).trans (.swap _ _ _)

/-- Variables in another order have the same factors, in another order. -/
theorem factors_perm (h : vars.Perm vars')
    (hids : ∀ v ∈ vars, ∀ w ∈ vars, sameRelation v.relation w.relation = true →
      v.relation = w.relation) :
    (factors vars).Perm (factors vars') := by
  induction vars using factors.induct generalizing vars' with
  | case1 => rw [h.nil_eq]
  | case2 first rest ih =>
      have hself : sameRelation first.relation first.relation = true := sameRelation_iff.mpr rfl
      have hside : (first :: alongside first rest).Perm (alongside first vars') := by
        rw [← alongside_cons hself]
        exact h.filter _
      have helse : (elsewhere first rest).Perm (elsewhere first vars') := by
        rw [← elsewhere_cons hself]
        exact h.filter _
      have hgroups : relationGroups first (alongside first rest) =
          groupsOf (alongside first vars') := by
        have hone : ∀ v ∈ first :: alongside first rest, v.relation = first.relation := by
          rw [← alongside_cons hself]
          intro v hv
          obtain ⟨hv, hsame⟩ := List.mem_filter.mp hv
          exact hids v hv first List.mem_cons_self hsame
        exact groupsOf_perm hside hone
      have hrest := ih helse fun v hv w hw =>
        hids v (mem_of_mem_elsewhere hv) w (mem_of_mem_elsewhere hw)
      rw [factors, hgroups]
      exact (hrest.cons _).trans (factors_perm_cons (h.mem_iff.mp List.mem_cons_self)).symm

end Order

/-! ## Other variables -/

/-- The same variable, or two that are alone in their lists and add the same
factor. -/
def AddsAsMuch (l m : List (GroupVar α)) (u v : GroupVar α) : Prop :=
  u = v ∨ Lone l u ∧ Lone m v ∧ relationGroups u [] = relationGroups v []

theorem AddsAsMuch.mono {l m l' m' : List (GroupVar α)} (h : AddsAsMuch l m u v)
    (hl : ∀ w ∈ l', w ∈ l) (hm : ∀ w ∈ m', w ∈ m) : AddsAsMuch l' m' u v :=
  h.imp_right fun ⟨hu, hv, hgroups⟩ => ⟨hu.mono hl, hv.mono hm, hgroups⟩

/-- Behind two that add as much, two others that do are both of the relation in
front or both of another, and in the first case they are one. -/
theorem AddsAsMuch.sides (hfirst : AddsAsMuch (first :: vars) (first' :: vars') first first')
    (hvars : first ∉ vars) (hvars' : first' ∉ vars') (hu : u ∈ vars) (hv : v ∈ vars')
    (h : AddsAsMuch (first :: vars) (first' :: vars') u v) :
    sameRelation u.relation first.relation = sameRelation v.relation first'.relation ∧
      (sameRelation u.relation first.relation = true → u = v) := by
  rcases hfirst with rfl | ⟨hlone, hlone', -⟩
  · rcases h with rfl | ⟨hlu, hlv, -⟩
    · exact ⟨rfl, fun _ => rfl⟩
    · have hapart := hlu.apart fun h => hvars (h ▸ hu)
      rw [hapart, hlv.apart fun h => hvars' (h ▸ hv)]
      exact ⟨rfl, nofun⟩
  · rw [hlone.all_apart hvars u hu, hlone'.all_apart hvars' v hv]
    exact ⟨rfl, nofun⟩

/-- Lists of variables that add as much have the same factors. -/
theorem factors_congr (hl : vars.Nodup) (hm : vars'.Nodup)
    (h : List.Forall₂ (AddsAsMuch vars vars') vars vars') : factors vars = factors vars' := by
  induction vars using factors.induct generalizing vars' with
  | case1 => rw [List.forall₂_nil_left_iff.mp h]
  | case2 first rest ih =>
      obtain ⟨first', rest', hfirst, hrest, rfl⟩ := List.forall₂_cons_left_iff.mp h
      obtain ⟨hnl, hl⟩ := List.nodup_cons.mp hl
      obtain ⟨hnm, hm⟩ := List.nodup_cons.mp hm
      have hrest := forall₂_with_mem hrest
      have hside : alongside first rest = alongside first' rest' :=
        alongside_congr (hrest.imp fun _ _ ⟨hu, hv, huv⟩ => hfirst.sides hnl hnm hu hv huv)
      have hgroups : relationGroups first (alongside first rest) =
          relationGroups first' (alongside first' rest') := by
        rcases hfirst with rfl | ⟨hlone, -, hgroups⟩
        · rw [hside]
        · have hnone : alongside first rest = [] := List.filter_eq_nil_iff.mpr fun v hv => by
            rw [hlone.all_apart hnl v hv]
            exact Bool.false_ne_true
          rw [← hside, hnone, hgroups]
      have helse : List.Forall₂ (AddsAsMuch (elsewhere first rest) (elsewhere first' rest'))
          (elsewhere first rest) (elsewhere first' rest') := by
        apply forall₂_elsewhere
        apply hrest.imp
        intro u v ⟨hu, hv, huv⟩
        refine ⟨huv.mono ?_ ?_, (hfirst.sides hnl hnm hu hv huv).1⟩
        · exact fun w => mem_of_mem_elsewhere
        · exact fun w => mem_of_mem_elsewhere
      rw [factors, factors, hgroups]
      exact congrArg _ (ih (hl.filter _) (hm.filter _) helse)

end Grouping

end QueryPlanner
