/-
  QueryPlanner.Pattern.Regex.Class

  Reading of character classes, from behind the opening bracket to the closing
  one.

  A class lists characters, ranges, named classes such as `[:digit:]`, and
  classes in brackets of their own; `&&`, `--` and `~~` combine what stands on
  their two sides, from left to right.  A hyphen, or a closing bracket in
  first place, is a member.
-/

import QueryPlanner.Pattern.Regex

namespace QueryPlanner.Regex

/-! ## Characters -/

/-- The character an escaped one stands for. -/
def unescape? (c : Char) : Option Char :=
  if c = 'n' then some '\n'
  else if c = 't' then some '\t'
  else if c = 'r' then some '\r'
  else if c = 'a' then some '\x07'
  else if c = 'f' then some '\x0c'
  else if c = 'v' then some '\x0b'
  else if c.toNat < 128 ∧ ¬ c.isAlphanum ∧ c ≠ '<' ∧ c ≠ '>' then some c
  else none

/-- The character that `c` begins, and how many more characters it takes. -/
def character? (c : Char) (rest : List Char) : Option (Char × Nat) :=
  if c = '\\' then
    match rest with
    | d :: _ => (unescape? d).map (·, 1)
    | [] => none
  else some (c, 0)

/-- The character or range that `c` begins, and how many more characters it
takes. -/
def range? (c : Char) (rest : List Char) : Option (CharSet × Nat) :=
  match character? c rest with
  | none => none
  | some (lo, k) =>
    match rest.drop k with
    | '-' :: d :: more =>
      if d = ']' ∨ d = '-' then some (.only lo, k)
      else
        match character? d more with
        | none => none
        | some (hi, m) => if lo ≤ hi then some (.range lo hi, k + m + 2) else none
    | _ => some (.only lo, k)

/-! ## Named classes -/

/-- The classes that have a name. -/
def named? (name : String) : Option CharSet :=
  match name with
  | "alnum" => some (.ofRanges [('0', '9'), ('A', 'Z'), ('a', 'z')])
  | "alpha" => some (.ofRanges [('A', 'Z'), ('a', 'z')])
  | "ascii" => some (.range '\x00' '\x7f')
  | "blank" => some (.ofRanges [('\t', '\t'), (' ', ' ')])
  | "cntrl" => some (.ofRanges [('\x00', '\x1f'), ('\x7f', '\x7f')])
  | "digit" => some (.range '0' '9')
  | "graph" => some (.range '!' '~')
  | "lower" => some (.range 'a' 'z')
  | "print" => some (.range ' ' '~')
  | "punct" => some (.ofRanges [('!', '/'), (':', '@'), ('[', '\x60'), ('\x7b', '~')])
  | "space" => some (.ofRanges [('\t', '\r'), (' ', ' ')])
  | "upper" => some (.range 'A' 'Z')
  | "word" => some (.ofRanges [('0', '9'), ('A', 'Z'), ('_', '_'), ('a', 'z')])
  | "xdigit" => some (.ofRanges [('0', '9'), ('A', 'F'), ('a', 'f')])
  | _ => none

/-- A named class behind its opening bracket, and how many characters it
takes. -/
def namedClass? (anyCase : Bool) (cs : List Char) : Option (CharSet × Nat) :=
  let negated := cs[1]? == some '^'
  let skipped := if negated then 2 else 1
  let name := (cs.drop skipped).takeWhile (· ≠ ':')
  let taken := skipped + name.length
  if cs.head? = some ':' ∧ (cs.drop taken).take 2 = [':', ']'] then
    (named? (String.ofList name)).map fun s =>
      (if negated then .not (s.folded anyCase) else s.folded anyCase, taken + 2)
  else none

/-! ## Brackets -/

/-- How two sets are combined. -/
inductive SetOperator where
  | inter
  | minus
  | differ

def SetOperator.apply : SetOperator → CharSet → CharSet → CharSet
  | .inter => .inter
  | .minus => .minus
  | .differ => .differ

/-- A class whose bracket is still open: the operand on the left with its
operator, and the members read since. -/
structure OpenClass where
  negated : Bool
  left : Option (SetOperator × CharSet)
  members : CharSet

namespace OpenClass

def add (s : CharSet) (k : OpenClass) : OpenClass := { k with members := .union k.members s }

/-- What has been read, operators applied. -/
def value (anyCase : Bool) (k : OpenClass) : CharSet :=
  match k.left with
  | none => k.members
  | some (op, s) => op.apply (s.folded anyCase) (k.members.folded anyCase)

/-- The class at its closing bracket; case is left out of regard before the
complement is taken. -/
def close (anyCase : Bool) (k : OpenClass) : CharSet :=
  let s := (k.value anyCase).folded anyCase
  if k.negated then .not s else s

/-- The class behind an opening bracket, and how many characters begin it. -/
def begin (cs : List Char) : OpenClass × Nat :=
  let negated := cs.head? = some '^'
  let skipped := if negated then 1 else 0
  let body := cs.drop skipped
  let hyphens := (body.takeWhile (· = '-')).length
  if hyphens ≠ 0 then (⟨negated, none, .only '-'⟩, skipped + hyphens)
  else if body.head? = some ']' then (⟨negated, none, .only ']'⟩, skipped + 1)
  else (⟨negated, none, .none⟩, skipped)

end OpenClass

/-- A step in a class. -/
inductive ClassToken where
  | member (s : CharSet)
  | open (k : OpenClass)
  | close
  | operator (op : SetOperator)

/-- The step that `c` begins, and how many more characters it takes. -/
def classToken? (anyCase : Bool) (c : Char) (rest : List Char) : Option (ClassToken × Nat) :=
  match c, rest with
  | '[', _ =>
    match namedClass? anyCase rest with
    | some (s, k) => some (.member s, k)
    | none => let (k, n) := OpenClass.begin rest; some (.open k, n)
  | ']', _ => some (.close, 0)
  | '&', '&' :: _ => some (.operator .inter, 1)
  | '-', '-' :: _ => some (.operator .minus, 1)
  | '~', '~' :: _ => some (.operator .differ, 1)
  | _, _ => (range? c rest).map fun (s, k) => (.member s, k)

/-- The rest of a class with the classes around it, and how many characters
it takes. -/
def classRest? (anyCase : Bool) (k : OpenClass) (outer : List OpenClass) :
    List Char → Option (CharSet × Nat)
  | [] => none
  | c :: cs =>
    match classToken? anyCase c cs with
    | none => none
    | some (t, n) =>
      let counted := fun (r : CharSet × Nat) => (r.1, r.2 + n + 1)
      match t with
      | .member s => (classRest? anyCase (k.add s) outer (cs.drop n)).map counted
      | .open inner => (classRest? anyCase inner (k :: outer) (cs.drop n)).map counted
      | .operator op =>
        (classRest? anyCase ⟨k.negated, some (op, k.value anyCase), .none⟩ outer
          (cs.drop n)).map counted
      | .close =>
        match outer with
        | [] => some (k.close anyCase, n + 1)
        | parent :: up =>
          (classRest? anyCase (parent.add (k.close anyCase)) up (cs.drop n)).map counted
termination_by cs => cs.length
decreasing_by all_goals simp only [List.length_drop, List.length_cons]; omega

/-- A class behind its opening bracket, and how many characters it takes. -/
def charClass? (anyCase : Bool) (cs : List Char) : Option (CharSet × Nat) :=
  let (k, n) := OpenClass.begin cs
  (classRest? anyCase k [] (cs.drop n)).map fun (s, m) => (s, n + m)

end QueryPlanner.Regex
