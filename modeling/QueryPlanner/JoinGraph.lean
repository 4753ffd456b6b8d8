/-
  QueryPlanner.JoinGraph

  The base relations of a query, linked where a join clause mentions two of
  them.
-/

import QueryPlanner.Relation

namespace QueryPlanner

/-- Base relations and the links between them.  A link is listed once, from
the relation built earlier to the one built later. -/
structure JoinGraph where
  nodes : List RtIndex
  links : List (RtIndex × RtIndex)
deriving DecidableEq

namespace JoinGraph

variable {α : Type}

/-- Some join clause of a relation still misses this relation. -/
def mentions (r : Relation α) (other : RtIndex) : Bool :=
  r.joinInfo.any fun info => info.unjoined.contains other

/-- The links from every relation to those behind it. -/
def linksOf : List (Relation α × RtIndex) → List (RtIndex × RtIndex)
  | [] => []
  | (r, relid) :: rest =>
    ((rest.map (·.2)).filter (mentions r)).map (relid, ·) ++ linksOf rest

/-- The graph of base relations in the order they were built. -/
def ofRelations [Number α] (rels : List (Relation α)) : JoinGraph :=
  let bases := rels.filterMap fun r => r.relid?.map (r, ·)
  ⟨bases.map (·.2), linksOf bases⟩

/-- Two relations are linked, in whatever direction. -/
def adjacent (g : JoinGraph) (a b : RtIndex) : Bool :=
  g.links.contains (a, b) || g.links.contains (b, a)

/-- A member of one set is linked to a member of another. -/
def linked (g : JoinGraph) (a b : RelSet) : Bool :=
  a.members.any fun r => b.members.any (g.adjacent r)

/-- A member of a set is linked to a relation outside it. -/
def hasOutsideLinks (g : JoinGraph) (s : RelSet) : Bool :=
  s.members.any fun r => g.nodes.any fun other => g.adjacent r other && !s.contains other

/-- A partition in which the classes of two elements are made one. -/
def merge (a b : RtIndex) (classes : List (List RtIndex)) : List (List RtIndex) :=
  let touched := classes.filter fun c => c.contains a || c.contains b
  touched.flatten :: classes.filter fun c => !(c.contains a || c.contains b)

/-- The classes of relations that links connect. -/
def components (g : JoinGraph) : List (List RtIndex) :=
  g.links.foldl (fun classes link => merge link.1 link.2 classes) (g.nodes.map ([·]))

end JoinGraph

end QueryPlanner
