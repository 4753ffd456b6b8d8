/-
  QueryPlanner.Proofs.Pattern.RegexEngine

  What is known of an engine for regular expressions.

  An expression without alternatives is a sequence of pieces, each written by
  some of its characters, and it matches only where the pieces match one
  behind the other.  Literals, anchors, groups and quantifiers have their usual
  meaning.  Of all else, such as classes, flags and the boundaries of words,
  only the characters are known that begin it.

  A place in a text is told by the bytes that are behind it.
-/

import QueryPlanner.Pattern

namespace QueryPlanner

/-! ## Repetition -/

/-- Matches one behind the other, so many times. -/
def Repeats {σ : Type} (R : σ → σ → Prop) : Nat → σ → σ → Prop
  | 0, i, j => i = j
  | n + 1, i, j => ∃ k, R i k ∧ Repeats R n k j

/-- The bounds of a repetition admit a number of times. -/
def Admits (lo : Nat) (hi : Option Nat) (n : Nat) : Prop := lo ≤ n ∧ ∀ m ∈ hi, n ≤ m

/-! ## Quantifiers -/

/-- The characters write a number in decimal, blanks apart. -/
def IsNumeral (cs : List Char) (n : Nat) : Prop :=
  ∃ before digits after, cs = before ++ digits ++ after ∧
    (∀ c ∈ before ++ after, c.isDigit = false) ∧ digits ≠ [] ∧
    (∀ c ∈ digits, c.isDigit = true) ∧
    digits.foldl (fun n c => n * 10 + (c.toNat - '0'.toNat)) 0 = n

/-- What a greedy quantifier asks for: how often at least, and at most if there
is a bound. -/
inductive Quantifies : List Char → Nat → Option Nat → Prop
  | star : Quantifies ['*'] 0 none
  | plus : Quantifies ['+'] 1 none
  | mark : Quantifies ['?'] 0 (some 1)
  | exactly {cs : List Char} {n : Nat} (h : IsNumeral cs n) :
      Quantifies ('{' :: (cs ++ ['}'])) n (some n)
  | atLeast {cs : List Char} {n : Nat} (h : IsNumeral cs n) :
      Quantifies ('{' :: (cs ++ [',', '}'])) n none
  | between {cs ds : List Char} {n m : Nat} (hn : IsNumeral cs n) (hm : IsNumeral ds m) :
      Quantifies ('{' :: (cs ++ ',' :: (ds ++ ['}']))) n (some m)

/-- The characters are a quantifier, greedy or lazy. -/
def IsQuantifier (cs : List Char) (lo : Nat) (hi : Option Nat) : Prop :=
  ∃ greedy, Quantifies greedy lo hi ∧ (cs = greedy ∨ cs = greedy ++ ['?'])

/-! ## Pieces -/

/-- A piece of a regular expression. -/
inductive Piece where
  | literal (c : Char)
  /-- A character behind a backslash that stands for itself. -/
  | escaped (c : Char)
  /-- The anchor `^`. -/
  | start
  /-- The anchor `$`. -/
  | stop
  /-- Pieces in parentheses. -/
  | group (opening : List Char) (body : List Piece)
  /-- At least `lo` and at most `hi` times, without an upper bound if there is
  none. -/
  | times (a : Piece) (quantifier : List Char) (lo : Nat) (hi : Option Nat)
  /-- Anything else, with its meaning: in a text it leads from a place to
  another. -/
  | other (cs : List Char) (leads : List UInt8 → List UInt8 → List UInt8 → Prop)

namespace Piece

mutual

/-- The characters of a piece. -/
def written : Piece → List Char
  | .literal c => [c]
  | .escaped c => ['\\', c]
  | .start => ['^']
  | .stop => ['$']
  | .group opening body => opening ++ writtenAll body ++ [')']
  | .times a quantifier _ _ => a.written ++ quantifier
  | .other cs _ => cs

def writtenAll : List Piece → List Char
  | [] => []
  | p :: ps => p.written ++ writtenAll ps

end

/-- What never stands for itself. -/
def specials : List Char := ['\\', '.', '+', '*', '?', '(', ')', '|', '[', '^', '$', '{']

/-- How pieces begin that are not modelled: the dot, classes, groups with flags
or a name, escapes with a meaning, and the boundaries of words. -/
inductive BeginsOther : List Char → Prop
  | dot (cs : List Char) : BeginsOther ('.' :: cs)
  | bracket (cs : List Char) : BeginsOther ('[' :: cs)
  | flags {c : Char} (hc : c ≠ ':') (cs : List Char) : BeginsOther ('(' :: '?' :: c :: cs)
  | escape {c : Char} (hc : c.isAlphanum = true) (cs : List Char) : BeginsOther ('\\' :: c :: cs)
  | boundary {c : Char} (hc : c = '<' ∨ c = '>') : BeginsOther ['\\', c]

mutual

/-- The piece is written by the rules. -/
def IsGrammatical : Piece → Prop
  | .literal c => c ∉ specials
  | .escaped c => c.toNat < 0x80 ∧ c.isAlphanum = false ∧ c ≠ '<' ∧ c ≠ '>'
  | .start | .stop => True
  | .group opening body =>
    (opening = ['('] ∨ opening = ['(', '?', ':']) ∧ AreGrammatical body
  | .times a quantifier lo hi => a.IsGrammatical ∧ IsQuantifier quantifier lo hi
  | .other cs _ => BeginsOther cs

def AreGrammatical : List Piece → Prop
  | [] => True
  | p :: ps => p.IsGrammatical ∧ AreGrammatical ps

end

section Spans

variable (same : Char → Char → Prop) (text : List UInt8)

mutual

/-- In the text the piece matches from a place to another, where literals match
the same characters. -/
def Spans : Piece → List UInt8 → List UInt8 → Prop
  | .literal c, i, j | .escaped c, i, j => ∃ d, same d c ∧ i = String.utf8EncodeChar d ++ j
  | .start, i, j => i = j ∧ i = text
  | .stop, i, j => i = j ∧ i = []
  | .group _ body, i, j => SpansAll body i j
  | .times a _ lo hi, i, j => ∃ n, Admits lo hi n ∧ Repeats (Spans a) n i j
  | .other _ leads, i, j => leads text i j

/-- Some pieces match one behind the other. -/
def SpansAll : List Piece → List UInt8 → List UInt8 → Prop
  | [], i, j => i = j
  | p :: ps, i, j => ∃ k, Spans p i k ∧ SpansAll ps k j

end

end Spans

section Append

variable {same : Char → Char → Prop} {text i j : List UInt8} {ps ps' : List Piece}

theorem areGrammatical_iff : AreGrammatical ps ↔ ∀ p ∈ ps, p.IsGrammatical := by
  induction ps with
  | nil => exact iff_of_true trivial nofun
  | cons p ps ih => rw [AreGrammatical, ih, List.forall_mem_cons]

theorem areGrammatical_append :
    AreGrammatical (ps ++ ps') ↔ AreGrammatical ps ∧ AreGrammatical ps' := by
  simp only [areGrammatical_iff, List.forall_mem_append]

theorem writtenAll_append : writtenAll (ps ++ ps') = writtenAll ps ++ writtenAll ps' := by
  induction ps with
  | nil => rfl
  | cons p ps ih => rw [List.cons_append, writtenAll, writtenAll, ih, List.append_assoc]

theorem spansAll_append :
    SpansAll same text (ps ++ ps') i j ↔
      ∃ k, SpansAll same text ps i k ∧ SpansAll same text ps' k j := by
  induction ps generalizing i with
  | nil =>
      constructor
      · exact fun h => ⟨i, rfl, h⟩
      · rintro ⟨k, rfl, h⟩
        exact h
  | cons p ps ih =>
      constructor
      · rintro ⟨k, hp, h⟩
        obtain ⟨l, hps, hps'⟩ := ih.mp h
        exact ⟨l, ⟨k, hp, hps⟩, hps'⟩
      · rintro ⟨l, ⟨k, hp, hps⟩, hps'⟩
        exact ⟨k, hp, ih.mpr ⟨l, hps, hps'⟩⟩

end Append

end Piece

/-! ## Engines -/

/-- The character may differ from another one in case only: ASCII letters, and
all that is not ASCII. -/
def IsCased (c : Char) : Prop := 0x80 ≤ c.toNat ∨ c.isAlpha = true

/-- A reading of the expressions without alternatives that explains what the
engine matches: each is read as pieces that are written as it is, and it
matches no text but those in which its pieces match somewhere, one behind the
other. -/
structure RegexEngine.Reading (engine : RegexEngine) where
  /-- The characters are letters that differ in case only. -/
  differInCase : Char → Char → Prop
  cased : ∀ {c d}, differInCase d c → IsCased c
  pieces : Bool → List Char → List Piece
  grammatical : ∀ {anyCase source}, (engine.compile anyCase source).isSome = true →
    '|' ∉ source → Piece.AreGrammatical (pieces anyCase source)
  written : ∀ {anyCase source}, (engine.compile anyCase source).isSome = true →
    '|' ∉ source → Piece.writtenAll (pieces anyCase source) = source
  explains : ∀ {anyCase source found}, engine.compile anyCase source = some found →
    '|' ∉ source → ∀ text : String, found (utf8 text) = true →
      ∃ i j, Piece.SpansAll (fun d c => d = c ∨ anyCase = true ∧ differInCase d c) (utf8 text)
        (pieces anyCase source) i j

end QueryPlanner
