/-
  QueryPlanner.Relation

  Relations of a planning session: base relations, one per range table entry,
  and joins of them.
-/

import QueryPlanner.Path

namespace QueryPlanner

inductive RelationKind where
  | base
  | join
deriving DecidableEq

def RelationKind.label : RelationKind → String
  | .base => "base" | .join => "join"

/-- A relation with its estimated size and the paths found for it.  The
physical size, the indexes and the restrictions are those of a base
relation. -/
structure Relation (α : Type) where
  id : Nat
  kind : RelationKind
  relids : RelSet
  /-- Estimated rows after restrictions. -/
  rows : α
  /-- Estimated width of a row in bytes. -/
  width : Int32
  target : TargetList α
  paths : List (Path α)
  pages : α
  tuples : α
  indexed : Bool
  indexes : List (Index α)
  restrictions : List (Clause α)
  joinInfo : List (JoinInfo α)

/-- Never less than one row, and a whole number of them. -/
def clampRows {α : Type} [Number α] (rows : α) : α := if rows ≤ 1 then 1 else Number.round rows

namespace Relation

variable {α : Type} [Number α]

/-- A relation of which nothing but its members is known. -/
def blank (id : Nat) (kind : RelationKind) (relids : RelSet) : Relation α where
  id := id
  kind := kind
  relids := relids
  rows := 0
  width := 0
  target := []
  paths := []
  pages := 0
  tuples := 0
  indexed := false
  indexes := []
  restrictions := []
  joinInfo := []

/-- The range table position of a base relation. -/
def relid? (r : Relation α) : Option RtIndex :=
  match r.kind with
  | .base => r.relids.members.head?
  | .join => none

/-- A unique index that is not partial has this column as its only key. -/
def hasUniqueIndex (r : Relation α) (column : AttrNumber) : Bool :=
  r.indexes.any fun i => i.unique && !i.isPartial && i.keys == [.column column]

/-- Every join clause, once. -/
def joinClauses (r : Relation α) : List (Clause α) := JoinInfo.clausesOf r.joinInfo

/-- The expressions of the restrictions. -/
def restrictionExprs (r : Relation α) : List (Expr α) := r.restrictions.map (·.expr)

/-- Offers paths to a relation, one after the other. -/
def offer (paths : List (Path α)) (r : Relation α) : Relation α :=
  { r with paths := Path.addAll paths r.paths }

/-- What is changed of a relation that is built. -/
inductive Edit (α : Type) where
  /-- An expression is shown, once. -/
  | target (e : Expr α)
  | size (rows : α) (width : Int32)
  | restriction (c : Clause α)
  /-- A clause waits for other relations to be joined in. -/
  | filing (c : Clause α) (others : RelSet)
  | offer (paths : List (Path α))

namespace Edit

/-- The relation behind a change. -/
def apply : Edit α → Relation α → Relation α
  | .target e, r => { r with target := r.target.add e }
  | .size rows width, r => { r with rows := rows, width := width }
  | .restriction c, r => { r with restrictions := r.restrictions ++ [c] }
  | .filing c others, r => { r with joinInfo := JoinInfo.update others (· ++ [c]) r.joinInfo }
  | .offer paths, r => r.offer paths

instance : CoeFun (Edit α) fun _ => Relation α → Relation α := ⟨apply⟩

@[simp] theorem apply_kind (f : Edit α) (r : Relation α) : (f r).kind = r.kind := by
  cases f <;> rfl

@[simp] theorem apply_relids (f : Edit α) (r : Relation α) : (f r).relids = r.relids := by
  cases f <;> rfl

@[simp] theorem apply_relid? (f : Edit α) (r : Relation α) : (f r).relid? = r.relid? := by
  rw [relid?, relid?, apply_kind, apply_relids]

end Edit

/-! ## Numbers

A relation is numbered by its place in a list. -/

/-- The positions that have a base relation, each with its number. -/
def baseIds (rs : List (Relation α)) : List (RtIndex × Nat) :=
  rs.zipIdx.filterMap fun (r, id) => r.relid?.map (·, id)

/-- The numbers of the joins. -/
def joinIds (rs : List (Relation α)) : List Nat :=
  rs.zipIdx.filterMap fun (r, id) => if r.kind = .join then some id else none

omit [Number α] in
theorem baseIds_append (rs : List (Relation α)) (r : Relation α) :
    baseIds (rs ++ [r]) = baseIds rs ++ (r.relid?.map (·, rs.length)).toList := by
  rw [baseIds, List.zipIdx_append, List.filterMap_append, baseIds]
  congr 1
  cases h : r.relid? <;> simp [h]

omit [Number α] in
theorem joinIds_append (rs : List (Relation α)) (r : Relation α) :
    joinIds (rs ++ [r]) = joinIds rs ++ if r.kind = .join then [rs.length] else [] := by
  rw [joinIds, List.zipIdx_append, List.filterMap_append, joinIds]
  congr 1
  by_cases h : r.kind = .join <;> simp [h]

/-- What is read of numbered relations is the same behind a change that it does
not tell. -/
theorem filterMap_zipIdx_modify {β : Type} {g : Relation α × Nat → Option β} {f : Edit α}
    (h : ∀ r i, g (f r, i) = g (r, i)) (rs : List (Relation α)) (id start : Nat) :
    ((rs.modify id f).zipIdx start).filterMap g = (rs.zipIdx start).filterMap g := by
  induction rs generalizing id start with
  | nil => rw [List.modify_nil]
  | cons r rest ih =>
      cases id with
      | zero =>
          rw [List.modify_zero_cons, List.zipIdx_cons, List.zipIdx_cons, List.filterMap_cons,
            List.filterMap_cons, h]
      | succ id =>
          rw [List.modify_succ_cons, List.zipIdx_cons, List.zipIdx_cons, List.filterMap_cons,
            List.filterMap_cons, ih]

/-- No change makes a relation one of another kind or position. -/
theorem baseIds_modify (rs : List (Relation α)) (id : Nat) (f : Edit α) :
    baseIds (rs.modify id f) = baseIds rs :=
  filterMap_zipIdx_modify (fun r _ => by dsimp only; rw [f.apply_relid?]) rs id 0

theorem joinIds_modify (rs : List (Relation α)) (id : Nat) (f : Edit α) :
    joinIds (rs.modify id f) = joinIds rs :=
  filterMap_zipIdx_modify (fun r _ => by dsimp only; rw [f.apply_kind]) rs id 0

end Relation

end QueryPlanner
