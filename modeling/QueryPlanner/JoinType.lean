/-
  QueryPlanner.JoinType

  The kinds of join.
-/

namespace QueryPlanner

/-- The kinds of join.  A semi join keeps an outer row once if it has a match
(`semi`), or an inner one (`reverseSemi`); the last two are inner joins after
one input has been made unique. -/
inductive JoinType where
  | inner
  | left
  | full
  | right
  | semi
  | reverseSemi
  | uniqueOuter
  | uniqueInner
deriving DecidableEq

namespace JoinType

def all : List JoinType :=
  [.inner, .left, .full, .right, .semi, .reverseSemi, .uniqueOuter, .uniqueInner]

def label : JoinType → String
  | .inner => "Inner" | .left => "Left" | .full => "Full" | .right => "Right"
  | .semi => "In" | .reverseSemi => "ReverseIn"
  | .uniqueOuter => "UniqueOuter" | .uniqueInner => "UniqueInner"

/-- Sees each distinct inner value once per outer row.  The unique side is the
right operand of the clause, whichever input it ends up as. -/
def dedupsInner : JoinType → Bool
  | .semi | .reverseSemi | .uniqueOuter | .uniqueInner => true
  | _ => false

end JoinType

end QueryPlanner
