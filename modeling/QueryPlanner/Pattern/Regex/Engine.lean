/-
  QueryPlanner.Pattern.Regex.Engine

  An engine that reads regular expressions and searches by marks.
-/

import QueryPlanner.Pattern
import QueryPlanner.Pattern.Regex.Reader

namespace QueryPlanner

/-- The engine that reads an expression and searches the characters of a text. -/
def Regex.engine : RegexEngine where
  compile anyCase source := (parse? anyCase source).map fun r text => r.search (Utf8.decode text)

end QueryPlanner
