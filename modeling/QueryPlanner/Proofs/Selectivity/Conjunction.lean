/-
  QueryPlanner.Proofs.Selectivity.Conjunction

  The order of ANDed clauses does not matter.

  A conjunction is read in two parts.  Clauses that bound nothing are
  multiplied; the others leave, for each expression that they bound, the
  smallest fraction of its lower bounds and that of its upper bounds.  Both
  parts are told by the clauses alone, so clauses in another order leave the
  same product and the same bounds, the bounds in another order.

  What this takes of the numbers is `Number.Reorders`, which exact rationals
  have with any logarithm.
-/

import Mathlib.Data.List.Nodup
import Mathlib.Data.List.Perm.Basic
import Mathlib.Tactic.Ring
import QueryPlanner.Pattern.Regex.Engine
import QueryPlanner.Proofs.Datum.Order
import QueryPlanner.Proofs.PlanM
import QueryPlanner.Selectivity.Clause

namespace QueryPlanner

open PlanM

/-! ## Numbers -/

/-- Products and minima do not depend on the order of their terms. -/
class Number.Reorders (α : Type) [Number α] : Prop where
  mul_right_comm (a b c : α) : a * b * c = a * c * b
  min_comm (a b : α) : Number.min a b = Number.min b a
  min_right_comm (a b c : α) : Number.min (Number.min a b) c = Number.min (Number.min a c) b

theorem Number.reorders_rational (log2 : Rat → Rat) : @Reorders Rat (rational log2) :=
  letI := rational log2
  { mul_right_comm := fun a b c => by
      show a * b * c = a * c * b
      ring
    min_comm := fun a b => by
      rw [min_rational, min_rational, min_comm]
    min_right_comm := fun a b c => by
      rw [min_rational, min_rational, min_rational, min_rational, min_right_comm] }

namespace Selectivity

variable {α : Type} [Number α] {p : Planner α} {var : Option RtIndex} {type : JoinType}
  {e e' : Expr α} {isLower side : Bool} {f g : α} {bounds bounds' : List (Bounds α)}

/-! ## Bounds -/

/-- The lower or the upper bound. -/
def Bounds.on (b : Bounds α) (isLower : Bool) : Option α := if isLower then b.lower else b.upper

/-- The lower or the upper bound found on an expression. -/
def limit (bounds : List (Bounds α)) (e : Expr α) (isLower : Bool) : Option α :=
  (bounds.find? fun b => b.expr = e).bind (·.on isLower)

/-- A bound counts for its own expression, on its own side. -/
theorem limit_addBound :
    limit (addBound e isLower f bounds) e' side =
      if e = e' ∧ isLower = side then tighten (limit bounds e' side) f
      else limit bounds e' side := by
  induction bounds with
  | nil =>
      rw [addBound, limit, limit]
      cases isLower <;> cases side <;> by_cases he : e = e' <;> simp [he, Bounds.on, tighten]
  | cons b rest ih =>
      rw [addBound]
      by_cases hb : b.expr = e
      · rw [if_pos hb, limit, limit]
        cases isLower <;> cases side <;> by_cases he : e = e' <;>
          simp [hb, he, Bounds.on]
      · rw [if_neg hb]
        by_cases he : b.expr = e'
        · have hne : ¬ (e = e' ∧ isLower = side) := fun h => hb (he.trans h.1.symm)
          rw [if_neg hne, limit, limit, List.find?_cons_of_pos (by simp [he]),
            List.find?_cons_of_pos (by simp [he])]
        · rw [limit, limit, List.find?_cons_of_neg (by simp [he]),
            List.find?_cons_of_neg (by simp [he])]
          exact ih

/-- An expression that is bounded for the first time comes last. -/
theorem map_expr_addBound : (addBound e isLower f bounds).map (·.expr) =
    if e ∈ bounds.map (·.expr) then bounds.map (·.expr) else bounds.map (·.expr) ++ [e] := by
  induction bounds with
  | nil => cases isLower <;> rfl
  | cons b rest ih =>
      rw [addBound]
      by_cases hb : b.expr = e
      · rw [if_pos hb, if_pos (List.mem_map.mpr ⟨b, List.mem_cons_self, hb⟩)]
        cases isLower <;> rfl
      · rw [if_neg hb, List.map_cons, ih, List.map_cons]
        simp only [List.mem_cons, Ne.symm hb, false_or]
        split <;> rfl

theorem mem_exprs_addBound : e' ∈ (addBound e isLower f bounds).map (·.expr) ↔
    e' ∈ bounds.map (·.expr) ∨ e' = e := by
  rw [map_expr_addBound]
  split
  · rename_i he
    exact ⟨.inl, fun h => h.elim id fun h => h ▸ he⟩
  · rw [List.mem_append, List.mem_singleton]

/-- Bounds on different expressions are told by what is found on each. -/
theorem eq_map_limit (h : (bounds.map (·.expr)).Nodup) :
    bounds = (bounds.map (·.expr)).map fun e => ⟨e, limit bounds e true, limit bounds e false⟩ := by
  induction bounds with
  | nil => rfl
  | cons b rest ih =>
      rw [List.map_cons, List.nodup_cons] at h
      rw [List.map_cons, List.map_cons]
      congr 1
      · simp [limit, Bounds.on]
      · conv_lhs => rw [ih h.2]
        refine List.map_congr_left fun e he => ?_
        have hne : b.expr ≠ e := fun heq => h.1 (heq ▸ he)
        simp only [limit, List.find?_cons, decide_eq_false hne]

/-- Two lists of bounds are one in two orders, if they bound the same
expressions alike. -/
theorem perm_of_limit (h : (bounds.map (·.expr)).Nodup) (h' : (bounds'.map (·.expr)).Nodup)
    (hexprs : ∀ e, e ∈ bounds.map (·.expr) ↔ e ∈ bounds'.map (·.expr))
    (hlimits : ∀ e isLower, limit bounds e isLower = limit bounds' e isLower) :
    bounds.Perm bounds' := by
  rw [eq_map_limit h, eq_map_limit h']
  simp only [hlimits]
  exact ((List.perm_ext_iff_of_nodup h h').mpr hexprs).map _

/-! ## Conjunctions -/

/-- What clauses leave, behind what others have left. -/
def Conjunction.addAll (p : Planner α) (var : Option RtIndex) (c : Conjunction α)
    (clauses : List (Expr α × α)) : Conjunction α :=
  clauses.foldl (fun c x => c.add p var x.1 x.2) c

/-- The fractions of the clauses that bound nothing. -/
def factors (p : Planner α) (var : Option RtIndex) (clauses : List (Expr α × α)) : List α :=
  (clauses.filter fun x => (bound? p x.1 var).isNone).map (·.2)

/-- The fractions of the clauses that bound an expression from one side. -/
def fractionsOn (p : Planner α) (var : Option RtIndex) (e : Expr α) (isLower : Bool)
    (clauses : List (Expr α × α)) : List α :=
  (clauses.filter fun x => bound? p x.1 var = some (e, isLower)).map (·.2)

variable {c : Conjunction α} {clauses clauses' : List (Expr α × α)}

theorem product_addAll :
    (c.addAll p var clauses).product = (factors p var clauses).foldl (· * ·) c.product := by
  induction clauses generalizing c with
  | nil => rfl
  | cons x rest ih =>
      rw [Conjunction.addAll, List.foldl_cons, ← Conjunction.addAll, ih]
      cases hx : bound? p x.1 var <;> simp [factors, Conjunction.add, hx]

/-- On each side of an expression the smallest fraction is left. -/
theorem limit_addAll :
    limit (c.addAll p var clauses).bounds e isLower =
      (fractionsOn p var e isLower clauses).foldl tighten (limit c.bounds e isLower) := by
  induction clauses generalizing c with
  | nil => rfl
  | cons x rest ih =>
      rw [Conjunction.addAll, List.foldl_cons, ← Conjunction.addAll, ih]
      cases hx : bound? p x.1 var with
      | none => simp [fractionsOn, Conjunction.add, hx]
      | some b =>
          obtain ⟨e', side⟩ := b
          by_cases hb : e' = e ∧ side = isLower
          · simp [fractionsOn, Conjunction.add, hx, limit_addBound, hb]
          · simp [fractionsOn, Conjunction.add, hx, limit_addBound, hb]

/-- The expressions bounded are those that some clause bounds. -/
theorem mem_exprs_addAll : e ∈ (c.addAll p var clauses).bounds.map (·.expr) ↔
    e ∈ c.bounds.map (·.expr) ∨ ∃ x ∈ clauses, ∃ isLower, bound? p x.1 var = some (e, isLower) := by
  induction clauses generalizing c with
  | nil => simp [Conjunction.addAll]
  | cons x rest ih =>
      have hadd : e ∈ (c.add p var x.1 x.2).bounds.map (·.expr) ↔
          e ∈ c.bounds.map (·.expr) ∨ ∃ isLower, bound? p x.1 var = some (e, isLower) := by
        rw [Conjunction.add]
        cases hx : bound? p x.1 var with
        | none => simp
        | some b =>
            dsimp only
            rw [mem_exprs_addBound]
            simp [Prod.ext_iff, eq_comm]
      rw [Conjunction.addAll, List.foldl_cons, ← Conjunction.addAll, ih, hadd, or_assoc,
        List.exists_mem_cons_iff]

theorem nodup_exprs_addAll (h : (c.bounds.map (·.expr)).Nodup) :
    ((c.addAll p var clauses).bounds.map (·.expr)).Nodup := by
  refine List.foldlRecOn (motive := fun c : Conjunction α => (c.bounds.map (·.expr)).Nodup)
    clauses _ h ?_
  intro c hc x _
  rw [Conjunction.add]
  split
  · rw [map_expr_addBound]
    split
    · exact hc
    · rename_i he
      rw [← List.concat_eq_append]
      exact hc.concat he
  · exact hc

/-! ## Order -/

section Order

variable [Number.Reorders α]

open Number (Reorders)

theorem tighten_right_comm (bound : Option α) (f g : α) :
    tighten (tighten bound f) g = tighten (tighten bound g) f := by
  cases bound with
  | none => exact congrArg some (Reorders.min_comm f g)
  | some b => exact congrArg some (Reorders.min_right_comm b f g)

theorem product_perm (h : clauses.Perm clauses') :
    (c.addAll p var clauses).product = (c.addAll p var clauses').product := by
  rw [product_addAll, product_addAll]
  exact ((h.filter _).map _).foldl_eq' (fun f _ g _ a => Reorders.mul_right_comm a f g) _

/-- Clauses in another order leave the bounds in another order. -/
theorem bounds_perm (h : clauses.Perm clauses') (hc : (c.bounds.map (·.expr)).Nodup) :
    (c.addAll p var clauses).bounds.Perm (c.addAll p var clauses').bounds := by
  refine perm_of_limit (nodup_exprs_addAll hc) (nodup_exprs_addAll hc) (fun e => ?_)
    fun e isLower => ?_
  · rw [mem_exprs_addAll, mem_exprs_addAll]
    simp only [h.mem_iff]
  · rw [limit_addAll, limit_addAll]
    exact ((h.filter _).map _).foldl_eq' (fun f _ g _ bound => tighten_right_comm bound f g) _

/-- Bounds are estimated one by one, in any order. -/
theorem foldlM_fraction_perm (h : bounds.Perm bounds') {a : α} :
    bounds.foldlM (fun acc b => do return acc * (← b.fraction p var)) a = .ok f →
      bounds'.foldlM (fun acc b => do return acc * (← b.fraction p var)) a = .ok f := by
  induction h generalizing a with
  | nil => exact id
  | cons b _ ih =>
      intro hf
      rw [List.foldlM_cons] at hf ⊢
      obtain ⟨a', ha', hf⟩ := except_bind_eq_ok.mp hf
      exact except_bind_eq_ok.mpr ⟨a', ha', ih hf⟩
  | swap b b' rest =>
      intro hf
      simp only [List.foldlM_cons] at hf ⊢
      obtain ⟨a', ha', hf⟩ := except_bind_eq_ok.mp hf
      obtain ⟨x', hx', ha'⟩ := except_bind_eq_ok.mp ha'
      cases ha'
      obtain ⟨a'', ha'', hf⟩ := except_bind_eq_ok.mp hf
      obtain ⟨x, hx, ha''⟩ := except_bind_eq_ok.mp ha''
      cases ha''
      rw [hx, hx']
      show List.foldlM _ (a * x * x') rest = Except.ok f
      rw [Reorders.mul_right_comm]
      exact hf
  | trans _ _ ih ih' => exact fun hf => ih' (ih hf)

theorem together_perm (h : clauses.Perm clauses') (hf : together p var clauses = .ok f) :
    together p var clauses' = .ok f := by
  obtain ⟨product, hproduct, hf⟩ := except_bind_eq_ok.mp hf
  refine except_bind_eq_ok.mpr ⟨product, ?_, hf⟩
  have hbounds : (Conjunction.addAll p var ⟨1, []⟩ clauses).bounds.Perm
      (Conjunction.addAll p var ⟨1, []⟩ clauses').bounds := bounds_perm h List.nodup_nil
  have hstart : (Conjunction.addAll p var ⟨1, []⟩ clauses).product =
      (Conjunction.addAll p var ⟨1, []⟩ clauses').product := product_perm h
  exact hstart ▸ foldlM_fraction_perm hbounds hproduct

omit [Reorders α] in
/-- Each clause keeps its own fraction, wherever it stands. -/
theorem each_perm {es es' : List (Expr α)} (h : es.Perm es') {fs : List α}
    (hfs : each p var type es = .ok fs) :
    ∃ fs', each p var type es' = .ok fs' ∧ (es.zip fs).Perm (es'.zip fs') := by
  induction h generalizing fs with
  | nil => exact ⟨fs, hfs, .refl _⟩
  | cons e _ ih =>
      rw [each] at hfs
      obtain ⟨f, hf, hfs⟩ := except_bind_eq_ok.mp hfs
      obtain ⟨rest, hrest, hfs⟩ := except_bind_eq_ok.mp hfs
      cases hfs
      obtain ⟨rest', hrest', hperm⟩ := ih hrest
      refine ⟨f :: rest', ?_, hperm.cons _⟩
      rw [each, hf, hrest']
      rfl
  | swap e e' es =>
      rw [each, each] at hfs
      obtain ⟨f', hf', hfs⟩ := except_bind_eq_ok.mp hfs
      obtain ⟨fs', hfs', hfs⟩ := except_bind_eq_ok.mp hfs
      obtain ⟨f, hf, hfs'⟩ := except_bind_eq_ok.mp hfs'
      obtain ⟨rest, hrest, hfs'⟩ := except_bind_eq_ok.mp hfs'
      cases hfs'
      cases hfs
      refine ⟨f :: f' :: rest, ?_, .swap _ _ _⟩
      rw [each, each, hf, hf', hrest]
      rfl
  | trans _ _ ih ih' =>
      obtain ⟨gs, hgs, hperm⟩ := ih hfs
      obtain ⟨fs', hfs', hperm'⟩ := ih' hgs
      exact ⟨fs', hfs', hperm.trans hperm'⟩

theorem clauseList_of_perm {es es' : List (Expr α)} (h : es.Perm es')
    (hf : clauseList p es var type = .ok f) : clauseList p es' var type = .ok f := by
  obtain ⟨fs, hfs, hf⟩ := except_bind_eq_ok.mp hf
  obtain ⟨fs', hfs', hperm⟩ := each_perm h hfs
  exact except_bind_eq_ok.mpr ⟨fs', hfs', together_perm hperm hf⟩

end Order

/-- In exact numbers the estimate of a list of clauses is that of the same
clauses in any other order, however many bounds they set. -/
theorem clauseList_reordered (log2 : Rat → Rat) (p : Planner Rat) (var : Option RtIndex)
    (type : JoinType) {es es' : List (Expr Rat)} (h : es.Perm es') (f : Rat) :
    letI := Number.rational log2
    clauseList p es var type = .ok f ↔ clauseList p es' var type = .ok f := by
  let _ := Number.rational log2
  have hnumbers := Number.reorders_rational log2
  exact ⟨clauseList_of_perm h, clauseList_of_perm h.symm⟩

section Example

/-- Ages from 0 to 100, a tenth of them unknown and two of them common. -/
def ages : ColumnStatistics Rat where
  nullFraction := 1 / 10
  averageWidth := 4
  distinct := -1
  slots := [⟨.mcv, 1012, [.int4 30, .int4 45], [1 / 5, 1 / 10]⟩,
    ⟨.histogram, 1014, [.int4 0, .int4 50, .int4 100], []⟩]

/-- A table whose first column holds ages; of its others nothing is known. -/
def people : Planner Rat :=
  letI := Number.rational id
  (Planner.start .standard (.builtin Regex.engine) Catalog.empty.source
    ⟨fun _ column => if column = 1 then some ages else none, fun _ _ => none⟩
    [.stored 7]).addRelation (Relation.blank 0 .base (RelSet.singleton 1))

/-- A comparison of a column with a number. -/
def compared (opno : Oid) (column : AttrNumber) (bound : Int32) : Expr Rat :=
  .op opno [.var ⟨1, column, .int4, -1⟩, .const .int4 (some (.int4 bound))]

/-- `age > 20 AND height < 3 AND age < 70 AND age <> 30 AND height > 1 AND age < 60` -/
def sixClauses : List (Expr Rat) :=
  [compared 1016 1 20, compared 1014 2 3, compared 1014 1 70, compared 1013 1 30,
    compared 1016 2 1, compared 1014 1 60]

theorem clauseList_sixClauses :
    letI := Number.rational id
    clauseList people sixClauses (some 1) .inner = .ok (27 / 12500) := by
  let _ := Number.rational id
  have hrun : (clauseList people sixClauses (some 1) .inner).toOption =
      some (27 / 12500) := by decide +kernel
  cases hlist : clauseList people sixClauses (some 1) .inner with
  | ok f =>
      rw [hlist] at hrun
      rw [Option.some.inj hrun]
  | error e =>
      rw [hlist] at hrun
      cases hrun

theorem clauseList_reordered_sixClauses :
    letI := Number.rational id
    sixClauses.Perm sixClauses.reverse ∧
      clauseList people sixClauses.reverse (some 1) .inner = .ok (27 / 12500) := by
  have hperm : sixClauses.Perm sixClauses.reverse := (List.reverse_perm _).symm
  exact ⟨hperm, (clauseList_reordered id people (some 1) .inner hperm _).mp clauseList_sixClauses⟩

end Example

end Selectivity

end QueryPlanner
