/-
  QueryPlanner.Pattern

  The kinds of pattern a match operator takes, and the meaning of each: which
  values are matched by which pattern.  What a regular expression matches is
  left to the engine that compiles it.
-/

import QueryPlanner.Datum
import QueryPlanner.Pattern.Like
import QueryPlanner.Text.Utf8

namespace QueryPlanner

/-- LIKE and regular expression patterns, each with and without regard to
case. -/
inductive PatternType where
  | like
  | likeAnyCase
  | regex
  | regexAnyCase
deriving DecidableEq

namespace PatternType

def all : List PatternType := [.like, .likeAnyCase, .regex, .regexAnyCase]

def anyCase : PatternType → Bool
  | .like | .regex => false
  | .likeAnyCase | .regexAnyCase => true

/-- The short name of a kind. -/
def label : PatternType → String
  | .like => "Like" | .likeAnyCase => "LikeIc" | .regex => "Regex" | .regexAnyCase => "RegexIc"

end PatternType

/-- The director that may stand before a regular expression. -/
def director : List Char := ['*', '*', '*', ':']

/-- A regular expression without its director. -/
def withoutDirector (cs : List Char) : List Char :=
  if director.isPrefixOf cs then cs.drop 4 else cs

/-- An engine for regular expressions: what it compiles, without regard to case
or with it, and the byte strings that what it compiled matches. -/
structure RegexEngine where
  compile : Bool → List Char → Option (List UInt8 → Bool)

/-- Whether a byte string is matched by a pattern, both as bytes; `none` for
a pattern that is no regular expression. -/
def patternMatch (engine : RegexEngine) (kind : PatternType) (text pattern : List UInt8) :
    Option Bool :=
  match kind with
  | .like => some (Like.isMatch text pattern)
  | .likeAnyCase => some (Like.isMatchIgnoringCase text pattern)
  | .regex | .regexAnyCase =>
    (engine.compile kind.anyCase (withoutDirector (Utf8.decodeLossy pattern))).map (· text)

end QueryPlanner
