/-
  QueryPlanner.RelSet

  Sets of range table positions, kept in strictly ascending order so that two
  sets with the same members are the same value.
-/

namespace QueryPlanner

/-- Position of a relation in the range table, from 1. -/
abbrev RtIndex := Nat

/-- A list with an element put at its place in ascending order, once. -/
def insertAscending (r : Nat) : List Nat → List Nat
  | [] => [r]
  | s :: rest =>
    if r < s then r :: s :: rest
    else if r = s then s :: rest
    else s :: insertAscending r rest

/-- A set of range table positions. -/
structure RelSet where
  /-- The members in ascending order. -/
  members : List RtIndex
deriving DecidableEq

/-- A set classified by its size. -/
inductive Membership where
  | empty
  | single (r : RtIndex)
  | multiple
deriving DecidableEq

namespace RelSet

/-- The set without members. -/
def empty : RelSet := ⟨[]⟩

def insert (s : RelSet) (r : RtIndex) : RelSet := ⟨insertAscending r s.members⟩

def singleton (r : RtIndex) : RelSet := empty.insert r

/-- The set of the elements of a list. -/
def ofList (rs : List RtIndex) : RelSet := rs.foldl insert empty

def isEmpty (s : RelSet) : Bool := s.members.isEmpty

def size (s : RelSet) : Nat := s.members.length

def contains (s : RelSet) (r : RtIndex) : Bool := s.members.contains r

def union (s t : RelSet) : RelSet := t.members.foldl insert s

/-- The members of `s` that `t` lacks. -/
def difference (s t : RelSet) : RelSet := ⟨s.members.filter fun r => !t.contains r⟩

def isSubset (s t : RelSet) : Bool := s.members.all fun r => t.contains r

/-- Some member is in both sets. -/
def overlaps (s t : RelSet) : Bool := s.members.any fun r => t.contains r

def membership (s : RelSet) : Membership :=
  match s.members with
  | [] => .empty
  | [r] => .single r
  | _ => .multiple

/-- The members in parentheses. -/
def display (s : RelSet) : String := "(" ++ " ".intercalate (s.members.map toString) ++ ")"

end RelSet

end QueryPlanner
