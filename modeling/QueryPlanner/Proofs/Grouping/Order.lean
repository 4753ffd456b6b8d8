/-
  QueryPlanner.Proofs.Grouping.Order

  The order of grouping expressions.

  Of two columns that are known to be equal, the one with more values is
  superfluous: the other covers it.  This is decided while columns are added,
  and only what is kept at the time can cover a column.  So where a first
  column covers a second and this one a third, but the first does not cover the
  third, it depends on the order whether the third is kept.

  Where every column is covered by one that is unbeaten, what is kept are the
  unbeaten columns, in any order.  Of unbeaten columns that cover each other
  one is kept; where these are interchangeable (`Settled`), the factors of what
  is kept are the same, and so is the estimate.
-/

import QueryPlanner.Pattern.Regex.Engine
import QueryPlanner.Proofs.Grouping.Product
import QueryPlanner.Proofs.Kernel
import QueryPlanner.Proofs.Planner.Changes
import QueryPlanner.Proofs.Planner.Keeps

namespace QueryPlanner

open Planner PlanM

namespace Grouping

variable {α : Type} [Number α] {p : Planner α} {u v w new : GroupVar α}
  {vars vars' kept : List (GroupVar α)} {e : Expr α} {exprs exprs' : List (Expr α)}

/-! ## Variables -/

/-- The variables of a grouping expression: the expression itself if something
is known of it, and otherwise the columns that it reads. -/
def groupVarsOf (p : Planner α) (e : Expr α) : Except (PlanError α) (List (GroupVar α)) :=
  if e.type = .bool then .ok []
  else do
    let v ← Variable.examine p e none
    if v.statistics.isSome || v.isUnique then return [groupVar p e v]
    else e.vars.mapM fun c => groupVar p (.var c) <$> Variable.examine p (.var c) none

/-- The variables of all grouping expressions, as often as they occur. -/
def groupVars (p : Planner α) : List (Expr α) → Except (PlanError α) (List (GroupVar α))
  | [] => .ok []
  | e :: rest => do return (← groupVarsOf p e) ++ (← groupVars p rest)

/-- The factor of the boolean expressions. -/
def doubled (factor : α) (exprs : List (Expr α)) : α :=
  exprs.foldl (fun factor e => if e.type = .bool then factor * 2 else factor) factor

/-- What is kept of variables added one after the other. -/
def addAll (p : Planner α) (new kept : List (GroupVar α)) : List (GroupVar α) :=
  new.foldl (fun kept v => addVar p v kept) kept

theorem addAll_append :
    addAll p (vars ++ vars') kept = addAll p vars' (addAll p vars kept) :=
  List.foldl_append

theorem addColumns_eq (p : Planner α) (kept : List (GroupVar α)) (e : Expr α) :
    addColumns p kept e = (addAll p · kept) <$>
      e.vars.mapM fun c => groupVar p (.var c) <$> Variable.examine p (.var c) none := by
  rw [addColumns]
  induction e.vars generalizing kept with
  | nil => rfl
  | cons c rest ih =>
      rw [List.foldlM_cons, List.mapM_cons]
      cases Variable.examine p (.var c) none with
      | error err => rfl
      | ok v =>
          refine (ih _).trans ?_
          cases rest.mapM fun c => groupVar p (.var c) <$> Variable.examine p (.var c) none with
          | error err => rfl
          | ok vs => rfl

/-- An expression that is not volatile adds its variables. -/
theorem collect_cons (p : Planner α) (factor : α) (kept : List (GroupVar α))
    (rest : List (Expr α)) (h : e.isVolatile = false) :
    collect p factor kept (e :: rest) = groupVarsOf p e >>= fun vars =>
      collect p (if e.type = .bool then factor * 2 else factor) (addAll p vars kept) rest := by
  rw [collect, groupVarsOf]
  by_cases hbool : e.type = .bool
  · rw [if_pos hbool, if_pos hbool, if_pos hbool]
    rfl
  · rw [if_neg hbool, if_neg hbool, if_neg hbool, bind_assoc]
    refine bind_congr fun v => ?_
    by_cases hv : (v.statistics.isSome || v.isUnique) = true
    · rw [if_pos hv, if_pos hv]
      rfl
    · rw [if_neg hv, if_neg hv]
      by_cases hempty : e.vars.isEmpty = true
      · rw [if_pos hempty, h, if_neg Bool.false_ne_true, List.isEmpty_iff.mp hempty]
        rfl
      · rw [if_neg hempty, addColumns_eq, bind_map_left]

/-- Expressions that are not volatile come to what is kept of their
variables. -/
theorem collect_eq (p : Planner α) (factor : α) (kept : List (GroupVar α))
    (h : ∀ e ∈ exprs, e.isVolatile = false) :
    collect p factor kept exprs =
      (fun vars => some (doubled factor exprs, addAll p vars kept)) <$> groupVars p exprs := by
  induction exprs generalizing factor kept with
  | nil => rfl
  | cons e rest ih =>
      obtain ⟨he, hrest⟩ := List.forall_mem_cons.mp h
      rw [collect_cons p factor kept rest he, groupVars, map_bind]
      refine bind_congr fun vars => ?_
      rw [ih _ _ hrest, map_bind]
      cases groupVars p rest with
      | error err => rfl
      | ok others =>
          show Except.ok (some (doubled _ rest, addAll p others (addAll p vars kept))) =
            Except.ok (some (doubled factor (e :: rest), addAll p (vars ++ others) kept))
          rw [addAll_append]
          rfl

/-- Expressions in another order have the same variables, in another order. -/
theorem groupVars_perm (h : exprs.Perm exprs') (hvars : groupVars p exprs = .ok vars) :
    ∃ vars', groupVars p exprs' = .ok vars' ∧ vars.Perm vars' := by
  induction h generalizing vars with
  | nil => exact ⟨vars, hvars, .refl vars⟩
  | cons e _ ih =>
      rw [groupVars] at hvars ⊢
      obtain ⟨own, hown, hvars⟩ := except_bind_eq_ok.mp hvars
      obtain ⟨others, hothers, ⟨⟩⟩ := except_bind_eq_ok.mp hvars
      obtain ⟨others', hothers', hperm⟩ := ih hothers
      rw [hown, hothers']
      exact ⟨_, rfl, hperm.append_left own⟩
  | swap e e' rest =>
      rw [groupVars, groupVars] at hvars ⊢
      obtain ⟨own, hown, hvars⟩ := except_bind_eq_ok.mp hvars
      obtain ⟨_, hrest, ⟨⟩⟩ := except_bind_eq_ok.mp hvars
      obtain ⟨own', hown', hrest⟩ := except_bind_eq_ok.mp hrest
      obtain ⟨others, hothers, ⟨⟩⟩ := except_bind_eq_ok.mp hrest
      rw [hown, hown', hothers]
      refine ⟨_, rfl, ?_⟩
      rw [← List.append_assoc, ← List.append_assoc]
      exact List.perm_append_comm.append_right others
  | trans _ _ ih ih' =>
      obtain ⟨vars', hvars', hperm⟩ := ih hvars
      obtain ⟨vars'', hvars'', hperm'⟩ := ih' hvars'
      exact ⟨vars'', hvars'', hperm.trans hperm'⟩

theorem doubled_perm (factor : α) (h : exprs.Perm exprs') :
    doubled factor exprs = doubled factor exprs' := by
  refine h.foldl_eq' (fun e _ e' _ factor => ?_) factor
  split <;> split <;> rfl

/-- A variable is what its expression is found to be. -/
def Examined (p : Planner α) (v : GroupVar α) : Prop :=
  ∃ found, Variable.examine p v.expr none = .ok found ∧ v = groupVar p v.expr found

theorem Examined.eq_of_expr (hu : Examined p u) (hv : Examined p v) (h : u.expr = v.expr) :
    u = v := by
  obtain ⟨found, hfound, hu⟩ := hu
  obtain ⟨found', hfound', hv⟩ := hv
  rw [← h, hfound] at hfound'
  cases hfound'
  rw [hu, hv, h]

theorem examined_of_groupVarsOf (h : groupVarsOf p e = .ok vars) (hv : v ∈ vars) :
    Examined p v := by
  rw [groupVarsOf] at h
  split_ifs at h with hbool
  · cases h
    exact absurd hv List.not_mem_nil
  · obtain ⟨found, hfound, h⟩ := except_bind_eq_ok.mp h
    split_ifs at h with hknown
    · cases h
      cases List.mem_singleton.mp hv
      exact ⟨found, hfound, rfl⟩
    · obtain ⟨c, -, hc⟩ := mem_of_mapM_eq_ok h hv
      cases hfound : Variable.examine p (.var c) none with
      | error err =>
          rw [hfound] at hc
          exact nomatch hc
      | ok found =>
          rw [hfound] at hc
          cases hc
          exact ⟨found, hfound, rfl⟩

theorem examined_of_groupVars (h : groupVars p exprs = .ok vars) :
    ∀ v ∈ vars, Examined p v := by
  induction exprs generalizing vars with
  | nil =>
      cases h
      exact nofun
  | cons e rest ih =>
      obtain ⟨own, hown, h⟩ := except_bind_eq_ok.mp h
      obtain ⟨others, hothers, ⟨⟩⟩ := except_bind_eq_ok.mp h
      intro v hv
      rcases List.mem_append.mp hv with hv | hv
      · exact examined_of_groupVarsOf hown hv
      · exact ih hothers v hv

/-! ## What is kept -/

/-- Two variables of different relations that are known to be equal. -/
def Linked (p : Planner α) (u v : GroupVar α) : Prop :=
  sameRelation u.relation v.relation = false ∧ p.knownEqual u.expr v.expr = true

/-- The first variable makes the second one superfluous: both are of one
expression, or they are linked and it has no more values. -/
def Covers (p : Planner α) (u v : GroupVar α) : Prop :=
  u.expr = v.expr ∨ Linked p u v ∧ u.distinct ≤ v.distinct

instance (p : Planner α) : DecidableRel (Linked p) := fun _ _ => inferInstanceAs (Decidable (_ ∧ _))

instance (p : Planner α) : DecidableRel (Covers p) := fun _ _ => inferInstanceAs (Decidable (_ ∨ _))

theorem knownEqual_comm (a b : Expr α) : p.knownEqual a b = p.knownEqual b a := by
  simp only [knownEqual, Bool.or_comm]

theorem linked_comm : Linked p u v ↔ Linked p v u := by
  rw [Linked, Linked, sameRelation_comm, knownEqual_comm]

theorem addVar_eq_keep [Number.Pools α] (new : GroupVar α) (kept : List (GroupVar α)) :
    addVar p new kept = keep (Covers p) new kept := by
  induction kept with
  | nil => rfl
  | cons old rest ih =>
      rw [addVar, keep]
      by_cases hexpr : old.expr = new.expr
      · rw [if_pos hexpr, if_pos (.inl hexpr)]
      · rw [if_neg hexpr]
        by_cases hlinked : Linked p new old
        · have hboth : (!sameRelation new.relation old.relation &&
              p.knownEqual new.expr old.expr) = true := by
            rw [hlinked.1, hlinked.2]
            rfl
          rw [if_pos hboth]
          by_cases hle : old.distinct ≤ new.distinct
          · rw [if_pos hle, if_pos (.inr ⟨linked_comm.mp hlinked, hle⟩)]
          · have hold : ¬ Covers p old new := fun h => h.elim hexpr fun h => hle h.2
            have hnew : Covers p new old :=
              .inr ⟨hlinked, (Number.Pools.le_total old.distinct new.distinct).resolve_left hle⟩
            rw [if_neg hle, if_neg hold, if_pos hnew, ih]
        · have hboth : ¬ (!sameRelation new.relation old.relation &&
              p.knownEqual new.expr old.expr) = true := by
            rwa [Bool.and_eq_true, Bool.not_eq_true']
          have hold : ¬ Covers p old new := fun h =>
            h.elim hexpr fun h => hlinked (linked_comm.mp h.1)
          have hnew : ¬ Covers p new old := fun h => h.elim (hexpr ·.symm) fun h => hlinked h.1
          rw [if_neg hboth, if_neg hold, if_neg hnew, ih]

theorem addAll_eq_foldl [Number.Pools α] (new kept : List (GroupVar α)) :
    addAll p new kept = new.foldl (fun kept v => keep (Covers p) v kept) kept := by
  rw [addAll]
  congr
  funext kept v
  exact addVar_eq_keep v kept

/-! ## When the order does not matter -/

/-- No other unbeaten variable is of its relation. -/
def Alone (p : Planner α) (vars : List (GroupVar α)) (v : GroupVar α) : Prop :=
  ∀ w ∈ vars, Unbeaten (Covers p) vars w → sameRelation w.relation v.relation = true →
    w.expr = v.expr

/-- Every variable is covered by an unbeaten one, and unbeaten variables that
cover each other are interchangeable: they cover the same variables, and stand
for as many groups, which no other variable of their relations changes. -/
structure Settled (p : Planner α) (vars : List (GroupVar α)) : Prop where
  reached : ∀ v ∈ vars, ∃ u ∈ vars, Unbeaten (Covers p) vars u ∧ Covers p u v
  tied : ∀ u ∈ vars, ∀ v ∈ vars, Unbeaten (Covers p) vars u → Covers p v u → u.expr ≠ v.expr →
    Unbeaten (Covers p) vars v ∧ (∀ w ∈ vars, Covers p u w → Covers p v w) ∧
      Alone p vars u ∧ Alone p vars v ∧ relationGroups u [] = relationGroups v []

instance (p : Planner α) (vars : List (GroupVar α)) : DecidablePred (Unbeaten (Covers p) vars) :=
  fun _ => inferInstanceAs (Decidable (∀ _ ∈ _, _))

instance (p : Planner α) (vars : List (GroupVar α)) : DecidablePred (Alone p vars) :=
  fun _ => inferInstanceAs (Decidable (∀ _ ∈ _, _))

instance (p : Planner α) (vars : List (GroupVar α)) : Decidable (Settled p vars) :=
  decidable_of_iff (_ ∧ _) ⟨fun h => ⟨h.1, h.2⟩, fun h => ⟨h.1, h.2⟩⟩

theorem nodup_of_kernel (hk : Kernel (Covers p) vars kept) : kept.Nodup :=
  hk.antichain.imp fun h heq => h.1 (.inl (congrArg GroupVar.expr heq))

namespace Settled

variable {kept' : List (GroupVar α)} (h : Settled p vars) (hexamined : ∀ v ∈ vars, Examined p v)
include h hexamined

theorem settles : Settles (Covers p) vars where
  refl := fun _ _ => .inl rfl
  reached := h.reached
  tied := by
    intro u hu v hv hunbeaten hvu
    by_cases hexpr : u.expr = v.expr
    · rw [← (hexamined u hu).eq_of_expr (hexamined v hv) hexpr]
      exact ⟨hunbeaten, fun _ _ => id⟩
    · obtain ⟨hunbeaten', hsame, -⟩ := h.tied u hu v hv hunbeaten hvu hexpr
      exact ⟨hunbeaten', hsame⟩

theorem lone (hk : Kernel (Covers p) vars kept) (hv : v ∈ vars) (halone : Alone p vars v) :
    Lone kept v := by
  intro w hw hsame
  have hunbeaten := (h.settles hexamined).unbeaten hk hw
  have hexpr := halone w (hk.subset w hw) hunbeaten hsame
  exact (hexamined w (hk.subset w hw)).eq_of_expr (hexamined v hv) hexpr

/-- Variables of two kernels of which one covers the other add as much. -/
theorem addsAsMuch (hk : Kernel (Covers p) vars kept) (hk' : Kernel (Covers p) vars kept')
    (hu : u ∈ kept) (hv : v ∈ kept') (hvu : Covers p v u) : AddsAsMuch kept kept' u v := by
  have hu' := hk.subset u hu
  have hv' := hk'.subset v hv
  by_cases hexpr : u.expr = v.expr
  · exact .inl ((hexamined u hu').eq_of_expr (hexamined v hv') hexpr)
  · have hunbeaten := (h.settles hexamined).unbeaten hk hu
    obtain ⟨-, -, halone, halone', hgroups⟩ := h.tied u hu' v hv' hunbeaten hvu hexpr
    exact .inr ⟨h.lone hexamined hk hu' halone, h.lone hexamined hk' hv' halone', hgroups⟩

/-- Two kernels have the same factors, in some order. -/
theorem factors_kernel [Number.Pools α]
    (hids : ∀ u ∈ vars, ∀ v ∈ vars, sameRelation u.relation v.relation = true →
      u.relation = v.relation)
    (hk : Kernel (Covers p) vars kept) (hk' : Kernel (Covers p) vars kept') :
    (factors kept).Perm (factors kept') := by
  obtain ⟨m, hperm, halike⟩ := (h.settles hexamined).exists_perm_alike hk hk'
  have hm := hk'.perm hperm.symm
  have hadds : List.Forall₂ (AddsAsMuch kept m) kept m := by
    apply (forall₂_with_mem halike).imp
    intro u v ⟨hu, hv, _, hvu⟩
    exact h.addsAsMuch hexamined hk hm hu hv hvu
  rw [factors_congr (nodup_of_kernel hk) (nodup_of_kernel hm) hadds]
  exact factors_perm hperm fun u hu v hv => hids u (hm.subset u hu) v (hm.subset v hv)

/-- Whatever the order of the variables, a kernel of them is kept. -/
theorem kernel [Number.Pools α] (hperm : vars.Perm vars') :
    Kernel (Covers p) vars (addAll p vars' []) := by
  rw [addAll_eq_foldl]
  exact (h.settles hexamined).kernel fun v => hperm.mem_iff.symm

end Settled

/-! ## The estimate -/

/-- The estimate from what is kept. -/
def total (factor rows : α) : List (GroupVar α) → α
  | [] => Number.min factor rows
  | kept => Number.max (Number.min (Number.ceil (product factor kept)) rows) 1

theorem estimate_eq (p : Planner α) (rows : α) (h : ∀ e ∈ exprs, e.isVolatile = false) :
    estimate p exprs rows =
      (fun vars => total (doubled 1 exprs) rows (addAll p vars [])) <$> groupVars p exprs := by
  rw [estimate, collect_eq p 1 [] h]
  cases groupVars p exprs with
  | error err => rfl
  | ok vars =>
      show (Except.ok (some (doubled 1 exprs, addAll p vars [])) >>= _) =
        Except.ok (total (doubled 1 exprs) rows (addAll p vars []))
      cases addAll p vars [] <;> rfl

theorem product_perm [Number.Pools α] (acc : α) (h : (factors vars).Perm (factors vars')) :
    product acc vars = product acc vars' := by
  rw [product_eq_foldl, product_eq_foldl]
  refine h.foldl_eq' (fun m _ n _ acc => ?_) acc
  cases m <;> cases n
  · rfl
  · rfl
  · rfl
  · exact Number.Reorders.mul_right_comm _ _ _

theorem total_perm [Number.Pools α] (factor rows : α) (h : (factors vars).Perm (factors vars')) :
    total factor rows vars = total factor rows vars' := by
  cases vars with
  | nil =>
      cases vars' with
      | nil => rfl
      | cons v rest =>
          rw [factors, factors] at h
          exact absurd h.nil_eq (List.cons_ne_nil _ _).symm
  | cons v rest =>
      cases vars' with
      | nil =>
          rw [factors, factors] at h
          exact absurd h.eq_nil (List.cons_ne_nil _ _)
      | cons v' rest' =>
          show Number.max (Number.min (Number.ceil (product factor (v :: rest))) rows) 1 = _
          rw [product_perm factor h]
          rfl

omit [Number α] in
theorem mem_relations_of_baseRelation {relid : RtIndex} {r : Relation α}
    (h : p.baseRelation relid = .ok r) : r ∈ p.relations := by
  rw [Planner.baseRelation] at h
  cases hfound : p.baseRelation? relid with
  | none =>
      rw [hfound] at h
      cases h
  | some s =>
      rw [hfound] at h
      cases h
      exact Planner.mem_of_baseRelation? hfound

/-- A relation that an expression is bound to is one of the planner's. -/
theorem mem_relations_of_examine {found : Variable α} {r : Relation α}
    (h : Variable.examine p e none = .ok found) (hr : found.relation = some r) :
    r ∈ p.relations := by
  have hexpr (h : Variable.ofExpr p e none = .ok found) : r ∈ p.relations := by
    rw [Variable.ofExpr] at h
    split at h
    · -- An expression over no relation is bound to none.
      cases h
      exact nomatch hr
    · obtain ⟨s, hs, ⟨⟩⟩ := except_bind_eq_ok.mp h
      cases hr
      exact mem_relations_of_baseRelation hs
    · cases h
      cases hjoin : p.joinRelation? e.stripRelabel.relations with
      | none =>
          rw [hjoin] at hr
          exact nomatch hr
      | some s =>
          rw [hjoin] at hr
          cases hr
          exact Planner.mem_of_joinRelation? hjoin
  rw [Variable.examine] at h
  split at h
  · obtain ⟨s, hs, h⟩ := except_bind_eq_ok.mp h
    obtain ⟨entry, -, ⟨⟩⟩ := except_bind_eq_ok.mp h
    cases hr
    exact mem_relations_of_baseRelation hs
  · exact hexpr h

/-- Relations are told apart by their numbers. -/
theorem relation_eq_of_sameRelation (hp : Outline.Consistent p.outlines) (hu : Examined p u)
    (hv : Examined p v) (h : sameRelation u.relation v.relation = true) :
    u.relation = v.relation := by
  obtain ⟨found, hfound, hu⟩ := hu
  obtain ⟨found', hfound', hv⟩ := hv
  have hru : u.relation = found.relation := congrArg GroupVar.relation hu
  have hrv : v.relation = found'.relation := congrArg GroupVar.relation hv
  rw [hru, hrv, sameRelation_iff] at h
  rw [hru, hrv]
  cases hr : found.relation with
  | none =>
      rw [hr] at h
      exact (Option.map_eq_none_iff.mp h.symm).symm
  | some r =>
      rw [hr] at h
      obtain ⟨r', hr', hid⟩ := Option.map_eq_some_iff.mp h.symm
      have hplace := relation_id hp (mem_relations_of_examine hfound hr)
      have hplace' := relation_id hp (mem_relations_of_examine hfound' hr')
      rw [hid, hplace] at hplace'
      rw [hr', Except.ok.inj hplace']

theorem estimate_perm [Number.Pools α] (hp : Outline.Consistent p.outlines) (rows : α)
    (hperm : exprs.Perm exprs') (hvolatile : ∀ e ∈ exprs, e.isVolatile = false)
    (hvars : groupVars p exprs = .ok vars) (hsettled : Settled p vars) :
    estimate p exprs rows = estimate p exprs' rows := by
  obtain ⟨vars', hvars', hperm'⟩ := groupVars_perm hperm hvars
  have hvolatile' : ∀ e ∈ exprs', e.isVolatile = false :=
    fun e he => hvolatile e (hperm.mem_iff.mpr he)
  have hexamined := examined_of_groupVars hvars
  have hids : ∀ u ∈ vars, ∀ v ∈ vars, sameRelation u.relation v.relation = true →
      u.relation = v.relation :=
    fun u hu v hv => relation_eq_of_sameRelation hp (hexamined u hu) (hexamined v hv)
  have hfactors := hsettled.factors_kernel hexamined hids (hsettled.kernel hexamined (.refl vars))
    (hsettled.kernel hexamined hperm')
  rw [estimate_eq p rows hvolatile, estimate_eq p rows hvolatile', hvars, hvars',
    doubled_perm 1 hperm]
  exact congrArg Except.ok (total_perm _ rows hfactors)

/-- **The number of groups does not depend on the order of the grouping
expressions**, in exact numbers and after any requests, as long as their
variables are settled. -/
theorem estimate_reordered (log2 : Rat → Rat) (settings : Settings Rat)
    (operators : OperatorCatalog Rat) (catalog : RelationSource Rat)
    (statistics : StatisticsProvider Rat) (rangeTable : List RangeTableEntry)
    (requests : List (Request Rat)) {p : Planner Rat} {exprs exprs' : List (Expr Rat)}
    {rows n : Rat} :
    letI := Number.rational log2
    (session requests (.start settings operators catalog statistics rangeTable)).2 = p →
    exprs.Perm exprs' → (∀ e ∈ exprs, e.isVolatile = false) →
    (∀ vars, groupVars p exprs = .ok vars → Settled p vars) →
    estimate p exprs rows = .ok n → estimate p exprs' rows = .ok n := by
  let _ := Number.rational log2
  have hpools := Number.pools_rational log2
  intro hsession hperm hvolatile hsettled hn
  have hp : Outline.Consistent p.outlines := by
    rw [← hsession]
    exact session_keeps (I := fun p => Outline.Consistent p.outlines)
      (fun _ _ _ h hp => h.consistent hp) requests Outline.consistent_nil
  obtain ⟨vars, hvars⟩ : ∃ vars, groupVars p exprs = .ok vars := by
    rw [estimate_eq p rows hvolatile] at hn
    cases hvars : groupVars p exprs with
    | error err =>
        rw [hvars] at hn
        exact nomatch hn
    | ok vars => exact ⟨vars, rfl⟩
  rw [← estimate_perm hp rows hperm hvolatile hvars (hsettled vars hvars), hn]

section Example

local instance exactGroups : Number Rat := .rational id

/-- Three tables of 1000 rows, whose first columns have 5, 10 and 20 values. -/
def linkedStatistics : StatisticsProvider Rat where
  column := fun relation column =>
    [((100, 1), 5), ((200, 1), 10), ((300, 1), 20), ((100, 2), 10), ((200, 2), 10),
      ((200, 3), 50)].lookup (relation, column) |>.map fun distinct => ⟨0, 4, distinct, []⟩
  index := fun _ _ => none

def linkedTables : Planner Rat :=
  let stored : StoredRelation Rat := ⟨"t", 10, 1000, []⟩
  .start .standard (.builtin Regex.engine)
    (Catalog.source ⟨[(100, stored), (200, stored), (300, stored)]⟩)
    linkedStatistics [.stored 100, .stored 200, .stored 300]

def column (relation : RtIndex) (number : AttrNumber) : Expr Rat :=
  .var ⟨relation, number, .int4, -1⟩

/-- The first columns are equal, of the first two tables and of the last two;
and so are the second columns of the first two. -/
def linkColumns : List (Request Rat) :=
  [.distribute (.op 1012 [column 1 1, column 2 1]),
    .distribute (.op 1012 [column 2 1, column 3 1]),
    .distribute (.op 1012 [column 1 2, column 2 2]),
    .estimateSize 1, .estimateSize 2, .estimateSize 3]

/-- The session with these links. -/
def linkedSession : Planner Rat := (session linkColumns linkedTables).2

/-- Two columns that are equal, and another one of the second table. -/
def groupedColumns : List (Expr Rat) := [column 2 1, column 2 3, column 1 1]

theorem settled_groupedColumns (vars : List (GroupVar Rat))
    (h : groupVars linkedSession groupedColumns = .ok vars) : Settled linkedSession vars := by
  have hsettled : (match groupVars linkedSession groupedColumns with
      | .ok vars => decide (Settled linkedSession vars)
      | .error _ => false) = true := by decide +kernel
  rw [h] at hsettled
  exact of_decide_eq_true hsettled

theorem eq_ok_of_toOption {β ε : Type} {x : Except ε β} {b : β} (h : x.toOption = some b) :
    x = .ok b := by
  cases x with
  | ok b' => exact congrArg Except.ok (Option.some.inj h)
  | error err => exact nomatch h

/-- The column with 10 values is superfluous next to the one with 5, so there
are 5 times 50 groups either way round. -/
theorem estimate_reordered_groupedColumns :
    groupedColumns.Perm groupedColumns.reverse ∧
      (∀ e ∈ groupedColumns, e.isVolatile = false) ∧
      estimate linkedSession groupedColumns 100000 = .ok 250 ∧
      estimate linkedSession groupedColumns.reverse 100000 = .ok 250 := by
  have hperm : groupedColumns.Perm groupedColumns.reverse := (List.reverse_perm _).symm
  have hvolatile : ∀ e ∈ groupedColumns, e.isVolatile = false := by decide
  have hrun : estimate linkedSession groupedColumns 100000 = .ok 250 :=
    eq_ok_of_toOption (by decide +kernel)
  exact ⟨hperm, hvolatile, hrun,
    estimate_reordered id .standard (.builtin Regex.engine) _ linkedStatistics _ linkColumns rfl
      hperm hvolatile settled_groupedColumns hrun⟩

/-- Three columns of which the first is known to equal the second and the
second the third, but not the first the third: next to the first one the
second goes, and the third stays unless it has gone before.  And where two
columns with as many values are known to be equal, the one that comes first
stays, with or without company of its relation. -/
theorem estimate_depends_on_order :
    let chain := [column 1 1, column 2 1, column 3 1]
    let chain' := [column 2 1, column 3 1, column 1 1]
    let tied := [column 1 2, column 2 2, column 2 3]
    let tied' := [column 2 2, column 1 2, column 2 3]
    (chain.Perm chain' ∧ (∀ e ∈ chain, e.isVolatile = false) ∧
      estimate linkedSession chain 100000 = .ok 100 ∧
      estimate linkedSession chain' 100000 = .ok 5) ∧
    (tied.Perm tied' ∧ (∀ e ∈ tied, e.isVolatile = false) ∧
      estimate linkedSession tied 100000 = .ok 500 ∧
      estimate linkedSession tied' 100000 = .ok 100) := by
  refine ⟨⟨by decide, by decide, ?_, ?_⟩, by decide, by decide, ?_, ?_⟩
  all_goals exact eq_ok_of_toOption (by decide +kernel)

end Example

end Grouping

end QueryPlanner
