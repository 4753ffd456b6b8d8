/-
  QueryPlanner.Statistics.Cache

  Statistics borrowed through a cache.

  The provider is asked at most once for an identifier and position, absent
  statistics included, and every borrow is counted until it is handed back.
-/

import QueryPlanner.Statistics

namespace QueryPlanner

/-- A request made of the provider. -/
inductive Fetch where
  | column (relation : Oid) (position : AttrNumber)
  | index (index : Oid) (position : AttrNumber)
deriving DecidableEq

namespace Fetch

/-- What a request is remembered by. -/
def key : Fetch → Oid × AttrNumber
  | .column id n => (id, n)
  | .index id n => (id, n)

/-- The request as a line of a log. -/
def text : Fetch → String
  | .column id n => "column " ++ toString id.toNat ++ " " ++ toString n
  | .index id n => "index " ++ toString id.toNat ++ " " ++ toString n

/-- The provider's answer. -/
def ask {α : Type} (p : StatisticsProvider α) : Fetch → Option (ColumnStatistics α)
  | .column id n => p.column id n
  | .index id n => p.index id n

end Fetch

/-- Answers remembered, requests made in order, and borrows not handed back. -/
structure StatisticsCache (α : Type) where
  snapshots : List ((Oid × AttrNumber) × Option (ColumnStatistics α))
  fetches : List Fetch
  outstanding : Nat

namespace StatisticsCache

variable {α : Type}

def empty : StatisticsCache α := ⟨[], [], 0⟩

/-- The remembered answer to a request. -/
def remembered? (c : StatisticsCache α) (f : Fetch) : Option (Option (ColumnStatistics α)) :=
  c.snapshots.lookup f.key

/-- The cache with the answer to a request remembered. -/
def fetch (p : StatisticsProvider α) (f : Fetch) (c : StatisticsCache α) : StatisticsCache α :=
  match c.remembered? f with
  | some _ => c
  | none => { c with
      snapshots := (f.key, f.ask p) :: c.snapshots
      fetches := c.fetches ++ [f] }

/-- Borrows statistics; absent ones are not counted. -/
def acquire (p : StatisticsProvider α) (f : Fetch) (c : StatisticsCache α) :
    Option (ColumnStatistics α) × StatisticsCache α :=
  let c := c.fetch p f
  match c.remembered? f with
  | some (some s) => (some s, { c with outstanding := c.outstanding + 1 })
  | _ => (none, c)

/-- Hands one borrow back. -/
def release (c : StatisticsCache α) : StatisticsCache α :=
  { c with outstanding := c.outstanding - 1 }

end StatisticsCache

/-- A cache with the guards it has handed out, in order; a guard without
statistics holds nothing, or no longer. -/
structure Borrowing (α : Type) where
  cache : StatisticsCache α
  guards : List (Option (ColumnStatistics α))

namespace Borrowing

variable {α : Type}

def empty : Borrowing α := ⟨.empty, []⟩

/-- Borrows statistics under a new guard. -/
def acquire (p : StatisticsProvider α) (f : Fetch) (b : Borrowing α) : Borrowing α :=
  let (s, cache) := b.cache.acquire p f
  ⟨cache, b.guards ++ [s]⟩

/-- The statistics that a guard holds. -/
def held? (b : Borrowing α) (guard : Nat) : Option (ColumnStatistics α) :=
  b.guards[guard]?.join

/-- Hands back what a guard holds. -/
def drop (guard : Nat) (b : Borrowing α) : Borrowing α :=
  match b.held? guard with
  | some _ => ⟨b.cache.release, b.guards.set guard none⟩
  | none => b

end Borrowing

end QueryPlanner
