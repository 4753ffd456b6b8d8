/-
  QueryPlanner.Proofs.Selectivity

  Estimates of equations.

  An estimate looks up operators, relations and range table entries, and fails
  where one is missing.  For an equation between relations that are built none
  is: its operator names operators of the catalog only, and its columns belong
  to relations that the session knows.
-/

import QueryPlanner.Grouping
import QueryPlanner.Proofs.Operator.Catalog
import QueryPlanner.Proofs.PlanM
import QueryPlanner.Proofs.TargetList
import QueryPlanner.Selectivity.Clause
import QueryPlanner.Selectivity.MergeScan

namespace QueryPlanner

open PlanM

variable {α : Type} {p : Planner α} {e l r : Expr α} {opno : Oid} {type : JoinType}

/-! ## Equations -/

namespace Expr

theorem relations_stripRelabel (e : Expr α) : e.stripRelabel.relations = e.relations := by
  cases e <;> rfl

/-- `l = r` by an equality operator of the catalog, each side with relations
of its own. -/
structure Equation (operators : OperatorCatalog α) (e l r : Expr α) : Prop where
  operator : ∃ opno op, e = .op opno [l, r] ∧ operators.get? opno = some op ∧
    op.restrict = some .equality ∧ op.join = some .equality
  left : l.relations.toFinset.Nonempty
  right : r.relations.toFinset.Nonempty
  disjoint : Disjoint l.relations.toFinset r.relations.toFinset

variable {operators : OperatorCatalog α}

theorem Equation.mem_relations {x : RtIndex} (h : e.Equation operators l r) :
    x ∈ e.relations.toFinset ↔ x ∈ l.relations.toFinset ∨ x ∈ r.relations.toFinset := by
  obtain ⟨opno, op, rfl, -⟩ := h.operator
  rw [relations_op, Finset.mem_union]

/-- Both sides together read several relations. -/
theorem Equation.two_le_size (h : e.Equation operators l r) : 2 ≤ e.relations.size := by
  obtain ⟨x, hx⟩ := h.left
  obtain ⟨y, hy⟩ := h.right
  have hxy : x ≠ y := fun he => Finset.disjoint_left.mp h.disjoint hx (he ▸ hy)
  rw [relations, (RelSet.ascending_ofList _).size_eq]
  exact Finset.one_lt_card.mpr ⟨x, h.mem_relations.mpr (.inl hx), y, h.mem_relations.mpr (.inr hy),
    hxy⟩

end Expr

/-- An equation bounds nothing. -/
theorem Selectivity.bound?_eq_none (h : e.Equation p.operators l r) : bound? p e none = none := by
  obtain ⟨opno, op, rfl, hop, hrestrict, -⟩ := h.operator
  rw [bound?, Expr.binary?]
  simp only [hop, Option.bind_some, hrestrict]
  split <;> simp_all

/-- The comparisons found for a merge are in the catalog. -/
theorem Selectivity.exists_lookup_atMost {operators : OperatorCatalog α} {m : MergeOperators}
    {forward backward : Oid} (hc : operators.Closed)
    (h : atMostOperators? operators m = some (forward, backward)) :
    (∃ op, operators.lookup forward = .ok op) ∧ ∃ op, operators.lookup backward = .ok op := by
  obtain ⟨f, hf, h⟩ := Option.bind_eq_some_iff.mp h
  obtain ⟨b, hb, h⟩ := Option.bind_eq_some_iff.mp h
  cases h
  obtain ⟨less, -, hless⟩ := Option.bind_eq_some_iff.mp hb
  exact ⟨hc.exists_negator hf, hc.exists_negator hless⟩

variable [Number α]

/-! ## Variables -/

/-- The relation of a range table position is built, and its entry is there. -/
structure Planner.Binds (p : Planner α) (relid : RtIndex) : Prop where
  relation : ∃ r, p.baseRelation relid = .ok r
  entry : ∃ e, p.entry relid = .ok e

/-- Every relation that an expression reads is bound. -/
def Planner.BindsAll (p : Planner α) (e : Expr α) : Prop := ∀ r ∈ e.relations.toFinset, p.Binds r

/-- An expression is an equation between relations that are bound. -/
def Planner.Equates (p : Planner α) (e : Expr α) : Prop :=
  (∃ l r, e.Equation p.operators l r) ∧ p.BindsAll e

omit [Number α] in
/-- Either side of it reads bound relations. -/
theorem Planner.Equates.sides (h : p.Equates e) :
    ∃ l r, e.Equation p.operators l r ∧ p.BindsAll l ∧ p.BindsAll r := by
  obtain ⟨⟨l, r, he⟩, hb⟩ := h
  exact ⟨l, r, he, fun x hx => hb x (he.mem_relations.mpr (.inl hx)),
    fun x hx => hb x (he.mem_relations.mpr (.inr hx))⟩

namespace Variable

/-- Of an expression over relations that are built it is found what is known
of it. -/
theorem examine_total {var : Option RtIndex} (h : p.BindsAll e) :
    ∃ v, examine p e var = .ok v := by
  rw [Planner.BindsAll, ← Expr.relations_stripRelabel] at h
  have hexpr : ∃ v, ofExpr p e var = .ok v := by
    rw [ofExpr]
    split
    · exact ⟨_, rfl⟩
    · rename_i x hx
      split
      · exact except_bind_total (h x (RelSet.mem_of_membership hx)).relation fun _ _ => ⟨_, rfl⟩
      · exact ⟨_, rfl⟩
    · cases var with
      | none => exact ⟨_, rfl⟩
      | some x =>
          rw [ofSeveral.eq_def]
          dsimp only
          split
          · rename_i hx
            exact except_bind_total (h x (RelSet.contains_iff.mp hx)).relation fun _ _ => ⟨_, rfl⟩
          · exact ⟨_, rfl⟩
  rw [examine]
  split
  · rename_i v hv
    split
    · have hbound : p.Binds v.relation := by
        rw [hv, Expr.relations_var, RelSet.toFinset_singleton] at h
        exact h v.relation (Finset.mem_singleton_self v.relation)
      exact except_bind_total hbound.relation fun _ _ => except_bind_total hbound.entry fun _ _ =>
        ⟨_, rfl⟩
    · exact hexpr
  · exact hexpr

theorem maximum?_total {v : Variable α} {sort : Oid}
    (h : ∃ op, p.operators.lookup sort = .ok op) : ∃ top, v.maximum? p sort = .ok top := by
  rw [maximum?]
  split
  · exact ⟨_, rfl⟩
  · split
    · exact ⟨_, rfl⟩
    · split
      · exact ⟨_, rfl⟩
      · exact except_bind_total h fun _ _ => ⟨_, rfl⟩

end Variable

namespace Selectivity

theorem comparison_total {greater : Bool} {v : Variable α} {constant : Datum α}
    {dataType : DataType} (h : ∃ op, p.operators.lookup opno = .ok op) :
    ∃ f, comparison p opno greater v constant dataType = .ok f := by
  rw [comparison]
  split
  · exact ⟨_, rfl⟩
  · exact except_bind_total h fun _ _ => ⟨_, rfl⟩

theorem joinEquality_total (hl : p.BindsAll l) (hr : p.BindsAll r)
    (h : ∃ op, p.operators.lookup opno = .ok op) :
    ∃ f, joinEquality p opno [l, r] type = .ok f := by
  have hoperands : ∃ v, Variable.joinOperands p [l, r] = .ok v :=
    except_bind_total (Variable.examine_total hl) fun _ _ =>
      except_bind_total (Variable.examine_total hr) fun _ _ => ⟨_, rfl⟩
  refine except_bind_total hoperands fun v _ => ?_
  dsimp only
  split
  · exact except_bind_total h fun _ _ => ⟨_, rfl⟩
  · exact ⟨_, rfl⟩

/-- An equation is estimated as a join clause. -/
theorem clause_total (h : p.Equates e) : ∃ f, clause p none type e = .ok f := by
  obtain ⟨l, r, he, hl, hr⟩ := h.sides
  have hsize := he.two_le_size
  obtain ⟨opno, op, rfl, hop, -, hjoin⟩ := he.operator
  have hlookup := OperatorCatalog.lookup_of_get? hop
  rw [clause, if_pos (by rw [Option.isNone_none, Bool.true_and, decide_eq_true_eq]; omega),
    joinClause]
  refine except_bind_total_of_ok hlookup ?_
  simp only [hjoin]
  exact except_bind_total (joinEquality_total hl hr ⟨op, hlookup⟩) fun _ _ => ⟨_, rfl⟩

theorem each_total {es : List (Expr α)} (h : ∀ e ∈ es, p.Equates e) :
    ∃ fs, each p none type es = .ok fs := by
  induction es with
  | nil => exact ⟨[], by rw [each]⟩
  | cons e rest ih =>
      rw [each]
      refine except_bind_total (clause_total (h e List.mem_cons_self)) fun f _ => ?_
      exact except_bind_total (ih fun e he => h e (List.mem_cons_of_mem _ he)) fun _ _ => ⟨_, rfl⟩

theorem together_total {clauses : List (Expr α × α)} (h : ∀ x ∈ clauses, p.Equates x.1) :
    ∃ f, together p none clauses = .ok f := by
  have hbounds : (clauses.foldl (fun (c : Conjunction α) x => c.add p none x.1 x.2)
      ⟨1, []⟩).bounds = [] := by
    refine List.foldlRecOn (motive := fun c : Conjunction α => c.bounds = []) clauses _ rfl ?_
    intro c hc x hx
    obtain ⟨⟨l, r, he⟩, -⟩ := h x hx
    rw [Conjunction.add, bound?_eq_none he]
    exact hc
  rw [together]
  simp only [hbounds]
  exact ⟨_, rfl⟩

theorem clauseList_total {es : List (Expr α)} (h : ∀ e ∈ es, p.Equates e) :
    ∃ f, clauseList p es none type = .ok f := by
  refine except_bind_total (each_total h) fun fs _ => together_total fun x hx => ?_
  exact h x.1 (List.of_mem_zip hx).1

/-- What a merge on an equation reads of its inputs can be estimated. -/
theorem mergeScan_total (hp : p.operators.Closed) (h : p.Equates e) :
    ∃ s, mergeScan p e = .ok s := by
  obtain ⟨l, r, he, hl, hr⟩ := h.sides
  obtain ⟨opno, op, rfl, hop, -⟩ := he.operator
  rw [mergeScan, Expr.binary?]
  refine except_bind_total (Variable.examine_total hl) fun lv _ => ?_
  refine except_bind_total (Variable.examine_total hr) fun rv _ => ?_
  split
  · exact ⟨_, rfl⟩
  · rename_i m hm
    have hmerge : op.merge = some m := by
      rw [OperatorCatalog.merge?, hop] at hm
      exact hm
    have hsort {sort : Oid} (hs : sort ∈ [m.leftSort, m.rightSort, m.less, m.greater]) :
        ∃ op, p.operators.lookup sort = .ok op := by
      refine hp.exists_lookup hop (List.mem_append_right _ ?_)
      rw [hmerge, Option.toList_some, List.flatMap_singleton]
      exact hs
    refine except_bind_total (Variable.maximum?_total (hsort List.mem_cons_self)) fun lmax _ => ?_
    split
    · exact ⟨_, rfl⟩
    · refine except_bind_total (Variable.maximum?_total
        (hsort (List.mem_cons_of_mem _ List.mem_cons_self))) fun rmax _ => ?_
      split
      · exact ⟨_, rfl⟩
      · split
        · exact ⟨_, rfl⟩
        · rename_i forward backward hatMost
          obtain ⟨hforward, hbackward⟩ := exists_lookup_atMost hp hatMost
          exact except_bind_total (comparison_total hforward) fun _ _ =>
            except_bind_total (comparison_total hbackward) fun _ _ => ⟨_, rfl⟩

end Selectivity

/-- The buckets that one side of an equation falls into can be estimated. -/
theorem Grouping.bucketSize_total {buckets : Nat} (h : p.BindsAll e) :
    ∃ f, bucketSize p e buckets = .ok f := by
  refine except_bind_total (Variable.examine_total h) fun v _ => ?_
  dsimp only
  split
  · exact ⟨_, rfl⟩
  · exact ⟨_, rfl⟩

end QueryPlanner
