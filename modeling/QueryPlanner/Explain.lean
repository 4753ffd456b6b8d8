/-
  QueryPlanner.Explain

  The table of a session's relations with the cheapest path of each.
-/

import QueryPlanner.Planner
import QueryPlanner.Text.Table

namespace QueryPlanner.Explain

/-- The names of the columns. -/
def titles : List String := ["relids", "rows", "width", "paths", "cheapest total", "pathkeys"]

/-- A path with its costs, to two places. -/
def pathText (path : Path Float) : String :=
  path.operatorText ++ " (" ++ Decimal.fixedText 2 path.startup ++ ".."
    ++ Decimal.fixedText 2 path.total ++ ")"

/-- What is told of the cheapest path; a dash stands where there is none. -/
def pathCells (r : Relation Float) : List String :=
  match Path.cheapest? .total r.paths with
  | some path => [pathText path, path.pathkeys.display]
  | none => ["-", "-"]

/-- The row of a relation. -/
def row (r : Relation Float) : List String :=
  [r.relids.display, doubleText r.rows, toString r.width.toInt, toString r.paths.length]
    ++ pathCells r

/-- The lines of the table. -/
def lines (p : Planner Float) : List String := Text.Table.render titles (p.relations.map row)

end QueryPlanner.Explain
