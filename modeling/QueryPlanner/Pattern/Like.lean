/-
  QueryPlanner.Pattern.Like

  Matching of byte strings with LIKE patterns.

  A pattern is read into tokens, and these are followed along the text.  What
  is behind a `%` is tried at one place after the other.  Once it has led to
  the next `%` it stays where it first fits: taken later, it could only leave
  less text for what is behind.
-/

namespace QueryPlanner.Like

/-! ## Patterns -/

/-- `%`, any bytes. -/
def percent : UInt8 := 37

/-- `_`, any single byte. -/
def underscore : UInt8 := 95

/-- The escape character. -/
def backslash : UInt8 := 92

/-- What a pattern asks for at one place. -/
inductive Token where
  | anyRun
  | anyByte
  | byte (b : UInt8)
deriving DecidableEq

/-- The tokens of a pattern.  An escape takes the next byte literally; at the
end of the pattern it stands for itself. -/
def tokens : List UInt8 → List Token
  | [] => []
  | c :: rest =>
    if c = percent then .anyRun :: tokens rest
    else if c = underscore then .anyByte :: tokens rest
    else if c = backslash then
      match rest with
      | [] => [.byte c]
      | d :: after => .byte d :: tokens after
    else .byte c :: tokens rest

/-! ## Matching -/

/-- Where a walk along the text ends. -/
inductive Stop where
  /-- The text is over, and the tokens left do without any, or they do not. -/
  | ended (matched : Bool)
  /-- A `%` comes next: the tokens behind it, and the text left. -/
  | anyRun (after : List Token) (text : List UInt8)
  /-- No token takes the next byte. -/
  | misfit

/-- Follows the tokens along the text up to the next `%`. -/
def follow : List Token → List UInt8 → Stop
  | ts, [] => .ended (ts.all (· == .anyRun))
  | [], _ :: _ => .misfit
  | .anyRun :: ts, c :: text => .anyRun ts (c :: text)
  | .anyByte :: ts, _ :: text => follow ts text
  | .byte b :: ts, c :: text => if b = c then follow ts text else .misfit

/-- Behind a `%` there are fewer tokens, and no more text. -/
theorem length_of_follow {ts after : List Token} {text rest : List UInt8}
    (h : follow ts text = .anyRun after rest) :
    after.length < ts.length ∧ rest.length ≤ text.length := by
  fun_induction follow ts text with
  | case1 | case2 | case6 => cases h
  | case3 ts c text =>
      cases h
      exact ⟨Nat.lt_succ_self _, Nat.le_refl _⟩
  | case4 ts _ text ih | case5 ts _ text ih =>
      obtain ⟨hafter, hrest⟩ := ih h
      exact ⟨Nat.lt_succ_of_lt hafter, Nat.le_succ_of_le hrest⟩

/-- Whether a `%` and the tokens behind it match the text.  On a misfit the `%`
takes one more byte; at the next `%` it is forgotten. -/
def search (after : List Token) (text : List UInt8) : Bool :=
  match _h : follow after text with
  | .ended matched => matched
  | .anyRun next rest => search next rest
  | .misfit =>
    match text with
    | [] => false
    | _ :: text => search after text
-- The next `%` leaves fewer tokens, a retry the same tokens and less text.
termination_by after.length + text.length
decreasing_by
  · have hlength := length_of_follow _h
    omega
  · rw [List.length_cons]
    omega

/-- The text is `LIKE` the pattern. -/
def isMatch (text pattern : List UInt8) : Bool :=
  match follow (tokens pattern) text with
  | .ended matched => matched
  | .anyRun after rest => search after rest
  | .misfit => false

/-- An ASCII capital letter as a small one. -/
def lower (b : UInt8) : UInt8 := if 65 ≤ b ∧ b ≤ 90 then b + 32 else b

/-- The text is `ILIKE` the pattern: ASCII letters match in either case. -/
def isMatchIgnoringCase (text pattern : List UInt8) : Bool :=
  isMatch (text.map lower) (pattern.map lower)

end QueryPlanner.Like
