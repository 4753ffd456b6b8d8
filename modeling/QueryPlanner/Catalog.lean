/-
  QueryPlanner.Catalog

  Stored relations and their indexes.

  The planner asks a `RelationSource` for sizes and indexes; `Catalog` is the
  source that holds them as values.  Index keys and predicates are stored
  unbound, over position 0, and bound when a relation is built.
-/

import QueryPlanner.Error

namespace QueryPlanner

/-! ## Indexes -/

inductive AccessMethod where
  | btree | hash | rtree | gist
deriving DecidableEq

namespace AccessMethod

def all : List AccessMethod := [.btree, .hash, .rtree, .gist]

def label : AccessMethod → String
  | .btree => "btree" | .hash => "hash" | .rtree => "rtree" | .gist => "gist"

end AccessMethod

/-- A key of an index: a column of the relation, or a value computed from
its columns. -/
inductive IndexKey (α : Type) where
  | column (number : AttrNumber)
  | expr (e : Expr α)
deriving DecidableEq

/-- A key computed by a function of columns. -/
def IndexKey.function {α : Type} (id : Oid) (type : DataType)
    (columns : List (AttrNumber × DataType)) : IndexKey α :=
  .expr (.func id type
    (columns.map fun c => .var { relation := 0, column := c.1, type := c.2 }) false)

/-- An index of a relation.  `ordering` has a sort operator per key, or is
empty where the access method has no order; the predicate of a partial index
is a list of clauses that all hold. -/
structure Index (α : Type) where
  oid : Oid
  method : AccessMethod
  keys : List (IndexKey α)
  ordering : List Oid
  unique : Bool
  predicate : List (Expr α)
  pages : α
  tuples : α

namespace Index

variable {α : Type}

/-- An index with one page, no known order and no predicate. -/
def plain [Number α] (oid : Oid) (method : AccessMethod) (keys : List (IndexKey α)) : Index α where
  oid := oid
  method := method
  keys := keys
  ordering := []
  unique := false
  predicate := []
  pages := 1
  tuples := 0

def isPartial (i : Index α) : Bool := !i.predicate.isEmpty

/-- The index of the relation at a range table position. -/
def bind (r : RtIndex) (i : Index α) : Index α :=
  { i with
    keys := i.keys.map fun
      | .column a => .column a
      | .expr e => .expr (e.bind r)
    predicate := i.predicate.map (·.bind r) }

end Index

/-! ## Relations -/

/-- The size of a stored relation. -/
structure RelationSize (α : Type) where
  pages : α
  tuples : α
  indexed : Bool

/-- Where sizes and indexes of stored relations come from. -/
structure RelationSource (α : Type) where
  size : Oid → Except (PlanError α) (RelationSize α)
  indexes : Oid → Except (PlanError α) (List (Index α))

/-- A stored relation. -/
structure StoredRelation (α : Type) where
  name : String
  pages : α
  tuples : α
  indexes : List (Index α)

/-- Stored relations by identifier. -/
structure Catalog (α : Type) where
  relations : List (Oid × StoredRelation α)

namespace Catalog

variable {α : Type}

def empty : Catalog α := ⟨[]⟩

def find? (c : Catalog α) (relation : Oid) : Option (StoredRelation α) :=
  c.relations.lookup relation

/-- The relation with an identifier that has to exist. -/
def lookup (c : Catalog α) (relation : Oid) : Except (PlanError α) (StoredRelation α) :=
  match c.find? relation with
  | some r => .ok r
  | none => .error (.unknownRelation relation)

/-- Stores a relation without indexes, in place of one with its identifier. -/
def addRelation (c : Catalog α) (relation : Oid) (name : String) (pages tuples : α) : Catalog α :=
  ⟨(relation, ⟨name, pages, tuples, []⟩) :: c.relations⟩

/-- Adds an index behind those of a relation. -/
def addIndex (c : Catalog α) (relation : Oid) (index : Index α) :
    Except (PlanError α) (Catalog α) := do
  let r ← c.lookup relation
  return ⟨(relation, { r with indexes := r.indexes ++ [index] }) :: c.relations⟩

def name? (c : Catalog α) (relation : Oid) : Option String := (c.find? relation).map (·.name)

def size (c : Catalog α) (relation : Oid) : Except (PlanError α) (RelationSize α) := do
  let r ← c.lookup relation
  return ⟨r.pages, r.tuples, !r.indexes.isEmpty⟩

def indexes (c : Catalog α) (relation : Oid) : Except (PlanError α) (List (Index α)) := do
  let r ← c.lookup relation
  return r.indexes

/-- The catalog as a source. -/
def source (c : Catalog α) : RelationSource α := ⟨c.size, c.indexes⟩

end Catalog

/-- An entry of a query's range table. -/
inductive RangeTableEntry where
  | stored (relation : Oid)
  | subquery
deriving DecidableEq

/-- The stored relation behind an entry. -/
def RangeTableEntry.relation? : RangeTableEntry → Option Oid
  | .stored relation => some relation
  | .subquery => none

end QueryPlanner
