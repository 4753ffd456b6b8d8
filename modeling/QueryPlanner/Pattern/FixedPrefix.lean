/-
  QueryPlanner.Pattern.FixedPrefix

  What a pattern fixes at the front of every value it matches.

  A pattern splits into a literal prefix and the rest.  The split of a LIKE
  pattern is the same walk over characters (of text) and over bytes (of
  binary strings), so it is written over symbols with a code.
-/

import QueryPlanner.Error
import QueryPlanner.Pattern

namespace QueryPlanner

/-- How much of a pattern its prefix is. -/
inductive PrefixStatus where
  /-- Nothing is fixed. -/
  | absent
  /-- The prefix stands before something else. -/
  | front
  /-- The pattern is its prefix. -/
  | whole
deriving DecidableEq

def PrefixStatus.label : PrefixStatus → String
  | .absent => "None" | .front => "Partial" | .whole => "Exact"

/-- A pattern split into literal prefix and rest. -/
structure FixedPrefix (α : Type) where
  status : PrefixStatus
  fixed : Option (Datum α)
  rest : Datum α

/-- The place of a symbol in ASCII, or above it. -/
class HasCode (σ : Type) where
  code : σ → Nat

instance : HasCode Char := ⟨Char.toNat⟩

instance : HasCode UInt8 := ⟨UInt8.toNat⟩

namespace FixedPrefix

variable {σ : Type} [HasCode σ]

/-- The symbol is a given ASCII character. -/
def is (x : σ) (c : Char) : Bool := HasCode.code x == c.toNat

/-- The symbol may differ from a match in case: ASCII letters, and all that
is not ASCII. -/
def varies (x : σ) : Bool :=
  let n := HasCode.code x
  decide (0x80 ≤ n) || (Char.ofNat n).isAlpha

/-- A LIKE pattern split behind its fixed symbols.  Unescaped wildcards end
the prefix, and so do letters if case does not count. -/
def splitLike (anyCase : Bool) : List σ → List σ × List σ
  | [] => ([], [])
  | c :: rest =>
    if is c '%' || is c '_' then ([], c :: rest)
    else if is c '\\' then
      match rest with
      | [] => ([], [])
      | d :: after =>
        if anyCase && varies d then ([], d :: after)
        else (d :: (splitLike anyCase after).1, (splitLike anyCase after).2)
    else if anyCase && varies c then ([], c :: rest)
    else (c :: (splitLike anyCase rest).1, (splitLike anyCase rest).2)

/-- The status of a split by what it leaves. -/
def statusOf (fixed rest : List σ) : PrefixStatus :=
  if rest.isEmpty then .whole else if fixed.isEmpty then .absent else .front

/-- A LIKE pattern split. -/
def ofLike {α : Type} (anyCase : Bool) : Datum α → Except (PlanError α) (FixedPrefix α)
  | .text s =>
    let (fixed, rest) := splitLike anyCase s.toList
    .ok ⟨statusOf fixed rest, some (.text (String.ofList fixed)), .text (String.ofList rest)⟩
  | .bytea b =>
    if anyCase then .error .caseInsensitiveBytes
    else
      let (fixed, rest) := splitLike anyCase b
      .ok ⟨statusOf fixed rest, some (.bytea fixed), .bytea rest⟩
  | d => .error (.notAPattern d)

/-- The literal front of a regular expression behind its anchor, and what is
left.  A quantifier makes the character before it optional, except `+`, which
repeats it; `fixed` and `before` are what is fixed with and without that
character, latest first, and `back` is where it starts. -/
def splitRegex (anyCase : Bool) (fixed before back : List Char) :
    List Char → List Char × List Char
  | [] => (fixed.reverse, [])
  | c :: rest =>
    if ['.', '(', ')', '[', '^', '$'].contains c then (fixed.reverse, c :: rest)
    else if anyCase && varies c then (fixed.reverse, c :: rest)
    else if c = '*' ∨ c = '?' ∨ c = '{' ∨ (c = '\\' ∧ rest.head? = some '{') then
      (before.reverse, back)
    else if c = '+' then (fixed.reverse, back)
    else if c = '\\' then
      match rest with
      | [] => (fixed.reverse, [])
      | d :: after =>
        if d.isAlphanum ∨ d = '(' then (fixed.reverse, c :: rest)
        else splitRegex anyCase (d :: fixed) fixed (d :: after) after
    else splitRegex anyCase (c :: fixed) fixed (c :: rest) rest

/-- What stands behind an opening parenthesis, if it groups and no more. -/
def groupBody? : List Char → Option (List Char)
  | '(' :: '?' :: ':' :: body => some body
  | '(' :: '?' :: _ => none
  | '(' :: body => some body
  | _ => none

/-- A regular expression split.  Only an expression anchored at the start and
without alternatives fixes anything. -/
def ofRegex {α : Type} (anyCase : Bool) : Datum α → Except (PlanError α) (FixedPrefix α)
  | .text s =>
    match withoutDirector s.toList with
    | '^' :: anchored =>
      if anchored.contains '|' then .ok ⟨.absent, none, .text s⟩
      else
        let group := groupBody? anchored
        let body := group.getD anchored
        let (fixed, rest) := splitRegex anyCase [] [] body body
        let tail := if group.isSome ∧ rest.head? = some ')' then rest.drop 1 else rest
        let prefixText := Datum.text (String.ofList fixed)
        .ok <|
          if tail = ['$'] then ⟨.whole, some prefixText, .text ""⟩
          else if fixed.isEmpty then ⟨.absent, some prefixText, .text (String.ofList rest)⟩
          else ⟨.front, some prefixText, .text (String.ofList rest)⟩
    | _ => .ok ⟨.absent, none, .text s⟩
  | .bytea _ => .error .regexOnBytes
  | d => .error (.notAPattern d)

/-- A pattern split into prefix and rest. -/
def ofPattern {α : Type} (kind : PatternType) (pattern : Datum α) :
    Except (PlanError α) (FixedPrefix α) :=
  match kind with
  | .like | .likeAnyCase => ofLike kind.anyCase pattern
  | .regex | .regexAnyCase => ofRegex kind.anyCase pattern

end FixedPrefix

end QueryPlanner
