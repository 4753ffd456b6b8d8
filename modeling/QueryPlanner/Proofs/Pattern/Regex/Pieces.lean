/-
  QueryPlanner.Proofs.Pattern.Regex.Pieces

  The engine that searches by marks has a reading.

  Its tokens are spelled by the characters they are cut from.  Read with a
  stack of open groups, as the engine reads them, they become pieces that are
  written by these characters and match where the expression does.
-/

import Mathlib.Data.List.Forall2
import Mathlib.Data.List.TakeWhile
import QueryPlanner.Pattern.Regex.Engine
import QueryPlanner.Proofs.Pattern.CaseFold
import QueryPlanner.Proofs.Pattern.Regex.Reading
import QueryPlanner.Proofs.Pattern.RegexEngine

namespace QueryPlanner.Regex

open Piece (writtenAll IsGrammatical AreGrammatical BeginsOther)
open Utf8 (encoded)

variable {anyCase : Bool} {c d : Char} {cs rest source : List Char} {r : Regex} {p : Piece}
  {lo n k i j : Nat} {hi : Option Nat} {t : Token}

/-! ## Numbers and bounds -/

theorem isDigit_of_isBlank (h : isBlank c = true) : c.isDigit = false := by
  have hdigits : ∀ n < 0x3A, isBlank (Char.ofNat n) = true → (Char.ofNat n).isDigit = false := by
    decide
  by_cases hc : c.toNat < 0x3A
  · have hblank := hdigits c.toNat hc
    rw [Char.ofNat_toNat] at hblank
    exact hblank h
  · rw [Char.isDigit, Bool.and_eq_false_iff, decide_eq_false_iff_not, decide_eq_false_iff_not]
    exact .inr fun hle => hc (Nat.lt_succ_of_le (UInt32.le_iff_toNat_le.mp hle))

theorem take_takeWhile (f : Char → Bool) (cs : List Char) :
    cs.take (cs.takeWhile f).length = cs.takeWhile f :=
  (List.prefix_iff_eq_take.mp (List.takeWhile_prefix f)).symm

theorem isNumeral_of_number? (h : number? cs = some (n, k)) : IsNumeral (cs.take k) n := by
  rw [number?] at h
  split_ifs at h with hnumber
  cases h
  let before := (cs.takeWhile isBlank).length
  let digits := (cs.drop before).takeWhile Char.isDigit
  refine ⟨cs.takeWhile isBlank, digits, (cs.drop (before + digits.length)).takeWhile isBlank, ?_,
    ?_, (not_or.mp hnumber).1, fun c hc => List.mem_takeWhile_imp hc, rfl⟩
  · rw [List.take_add, List.take_add, take_takeWhile, take_takeWhile, take_takeWhile]
  · intro c hc
    obtain hc | hc := List.mem_append.mp hc <;> exact isDigit_of_isBlank (List.mem_takeWhile_imp hc)

/-- Bounds behind an opening brace are a quantifier with it. -/
theorem quantifies_of_bounds? (h : bounds? cs = some (lo, hi, k)) :
    Quantifies ('{' :: cs.take k) lo hi := by
  rw [bounds?] at h
  split at h
  · cases h
  · rename_i n k₀ hn
    have hnumeral := isNumeral_of_number? hn
    split at h
    · rename_i more hrest
      cases h
      rw [List.take_add, hrest]
      exact .exactly hnumeral
    · rename_i more hrest
      cases h
      rw [List.take_add, hrest]
      exact .atLeast hnumeral
    · rename_i rest _ hrest
      split at h
      · cases h
      · rename_i m k₁ hm
        split_ifs at h with hbounds
        cases h
        obtain ⟨more, hmore⟩ := List.head?_eq_some_iff.mp hbounds.1
        have hk : k₀ + k₁ + 2 = k₀ + (k₁ + 1 + 1) := by omega
        rw [hk, List.take_add, hrest, List.take_succ_cons, List.take_add, hmore]
        exact .between hnumeral (isNumeral_of_number? hm)
    · cases h

/-- The mark of the lazy form may stand behind a quantifier. -/
theorem isQuantifier_of_quantifier (h : Quantifies (c :: cs.take k) lo hi) :
    IsQuantifier (c :: cs.take (quantifier lo hi k cs).2) lo hi := by
  refine ⟨_, h, ?_⟩
  rw [quantifier]
  split
  · rename_i hlazy
    obtain ⟨more, hmore⟩ := List.head?_eq_some_iff.mp hlazy
    refine .inr ?_
    rw [List.take_add, hmore]
    rfl
  · exact .inl rfl

/-! ## Places -/

/-- A character of which the engine takes another one for a variant. -/
def DifferInCase (d c : Char) : Prop := d ≠ c ∧ ((CharSet.only c).folded true).contains d = true

/-- Characters that the engine takes for the same. -/
def Same (anyCase : Bool) (d c : Char) : Prop := d = c ∨ anyCase = true ∧ DifferInCase d c

theorem same_of_contains (h : ((CharSet.only c).folded anyCase).contains d = true) :
    Same anyCase d c := by
  by_cases hd : d = c
  · exact .inl hd
  · cases anyCase with
    | false => exact .inl (CharSet.contains_only.mp h)
    | true => exact .inr ⟨rfl, hd, h⟩

theorem isCased_of_differInCase (h : DifferInCase d c) : IsCased c := by
  -- Among the ASCII characters only letters have a variant.
  have hletters : ∀ n : Nat, n < 0x80 → CaseFold.AreLetters n n →
      (Char.ofNat n).isAlpha = true := by
    decide
  by_contra hcased
  rw [IsCased, not_or, Nat.not_le] at hcased
  refine h.1 (CharSet.eq_of_contains_folded (fun _ hletter => hcased.2 ?_) h.2)
  have halpha := hletters c.toNat hcased.1 hletter
  rwa [Char.ofNat_toNat] at halpha

/-- What is behind so many characters of a text. -/
def place (cs : List Char) (i : Nat) : List UInt8 := encoded (cs.drop i)

/-- The piece matches wherever the expression does. -/
def Covers (anyCase : Bool) (p : Piece) (r : Regex) : Prop :=
  ∀ (cs : List Char) (i j : Nat), r.Spans (cs.map some) i j →
    p.Spans (Same anyCase) (encoded cs) (place cs i) (place cs j)

/-- Where an expression leads in a text. -/
def leads (r : Regex) (text i j : List UInt8) : Prop :=
  ∃ cs a b, text = encoded cs ∧ i = place cs a ∧ j = place cs b ∧ r.Spans (cs.map some) a b

theorem covers_other (r : Regex) (cs : List Char) : Covers anyCase (.other cs r.leads) r :=
  fun text i j h => ⟨text, i, j, rfl, rfl, rfl, h⟩

theorem covers_start : Covers anyCase .start .start := by
  rintro cs i j ⟨rfl, rfl⟩
  exact ⟨rfl, rfl⟩

theorem covers_stop : Covers anyCase .stop .stop := by
  rintro cs i j ⟨rfl, rfl⟩
  rw [List.length_map]
  exact ⟨rfl, by rw [place, List.drop_length]; rfl⟩

theorem place_of_set (h : (set ((CharSet.only c).folded anyCase)).Spans (cs.map some) i j) :
    ∃ d, Same anyCase d c ∧ place cs i = String.utf8EncodeChar d ++ place cs j := by
  obtain ⟨rfl, d, hd, hset⟩ := h
  rw [List.getElem?_map, Option.map_eq_some_iff] at hd
  obtain ⟨_, hd, ⟨⟩⟩ := hd
  obtain ⟨hi, rfl⟩ := List.getElem?_eq_some_iff.mp hd
  refine ⟨_, same_of_contains hset, ?_⟩
  rw [place, List.drop_eq_getElem_cons hi]
  exact List.flatMap_cons

/-! ## Tokens -/

/-- The piece that some characters write, read as an expression. -/
def pieceOf (r : Regex) : List Char → Piece
  | [c] =>
    if c = '^' then .start
    else if c = '$' then .stop
    else if c ∈ Piece.specials then .other [c] r.leads
    else .literal c
  | [b, c] => if b = '\\' ∧ c.isAlphanum = false then .escaped c else .other [b, c] r.leads
  | cs => .other cs r.leads

/-- A token is spelled by some characters. -/
def Token.IsSpelled (anyCase : Bool) (cs : List Char) : Token → Prop
  | .open => cs = ['('] ∨ cs = ['(', '?', ':']
  | .close => cs = [')']
  | .bar => True
  | .times lo hi => IsQuantifier cs lo hi
  | .atom r => (pieceOf r cs).IsGrammatical ∧ (pieceOf r cs).written = cs ∧
    Covers anyCase (pieceOf r cs) r

theorem isSpelled_literal (hc : c ∉ Piece.specials) :
    (literal anyCase c).IsSpelled anyCase [c] := by
  have hpiece : pieceOf (.set ((CharSet.only c).folded anyCase)) [c] = .literal c := by
    have hne {x : Char} (hx : x ∈ Piece.specials) : c ≠ x := fun hcx => hc (hcx ▸ hx)
    rw [pieceOf, if_neg (hne (by decide)), if_neg (hne (by decide)), if_neg hc]
  rw [literal, Token.IsSpelled, hpiece]
  exact ⟨hc, rfl, fun text i j h => place_of_set h⟩

/-- Only punctuation of ASCII stands for itself behind a backslash. -/
theorem isSpelled_escaped (h : unescape? d = some c) :
    (literal anyCase c).IsSpelled anyCase ['\\', d] := by
  rw [literal, Token.IsSpelled, pieceOf]
  cases halnum : d.isAlphanum with
  | true =>
      rw [if_neg fun h => Bool.true_eq_false.mp h.2]
      exact ⟨.escape halnum [], rfl, covers_other _ _⟩
  | false =>
      rw [if_pos ⟨rfl, rfl⟩]
      have hne {x : Char} (hx : x.isAlphanum = true) : d ≠ x := by
        rintro rfl
        rw [hx] at halnum
        cases halnum
      rw [unescape?, if_neg (hne rfl), if_neg (hne rfl), if_neg (hne rfl), if_neg (hne rfl),
        if_neg (hne rfl), if_neg (hne rfl)] at h
      split_ifs at h with hascii
      cases h
      exact ⟨⟨hascii.1, halnum, hascii.2.2⟩, rfl, fun text i j h => place_of_set h⟩

theorem isSpelled_of_token? (h : token? anyCase c rest = some (t, k)) :
    t.IsSpelled anyCase (c :: rest.take k) := by
  rw [token?.eq_def] at h
  split at h
  case h_1 =>
    split at h <;> cases h
    · exact .inr rfl
    · exact .inl rfl
  case h_2 | h_3 =>
    cases h
    trivial
  case h_4 =>
    cases h
    exact ⟨trivial, rfl, covers_start⟩
  case h_5 =>
    cases h
    exact ⟨trivial, rfl, covers_stop⟩
  case h_6 =>
    cases h
    exact ⟨.dot [], rfl, covers_other _ _⟩
  case h_7 =>
    cases h
    exact isQuantifier_of_quantifier .star
  case h_8 =>
    cases h
    exact isQuantifier_of_quantifier .plus
  case h_9 =>
    cases h
    exact isQuantifier_of_quantifier .mark
  case h_10 =>
    obtain ⟨⟨lo, hi, n⟩, hbounds, h⟩ := Option.map_eq_some_iff.mp h
    cases h
    exact isQuantifier_of_quantifier (quantifies_of_bounds? hbounds)
  case h_11 =>
    obtain ⟨⟨s, n⟩, hclass, h⟩ := Option.map_eq_some_iff.mp h
    cases h
    have hpiece (cs : List Char) :
        pieceOf (.set s) ('[' :: cs) = .other ('[' :: cs) (Regex.set s).leads := by
      rcases cs with _ | ⟨c, _ | ⟨d, cs⟩⟩ <;> rfl
    rw [Token.IsSpelled, hpiece]
    exact ⟨.bracket _, rfl, covers_other _ _⟩
  case h_12 =>
    split at h
    · cases h
      exact ⟨.escape rfl [], rfl, covers_other _ _⟩
    · cases h
      exact ⟨.escape rfl [], rfl, covers_other _ _⟩
    · obtain ⟨⟨d, n⟩, hc, h⟩ := Option.map_eq_some_iff.mp h
      cases h
      rw [character?.eq_def, if_pos rfl] at hc
      split at hc
      · obtain ⟨d, hd, h⟩ := Option.map_eq_some_iff.mp hc
        cases h
        exact isSpelled_escaped hd
      · cases hc
  case h_13 =>
    obtain ⟨⟨d, n⟩, hc, h⟩ := Option.map_eq_some_iff.mp h
    cases h
    rename_i hparenthesis hclose hbar hstart hstop hdot hstar hplus hmark hbrace hbracket hbackslash
    rw [character?.eq_def, if_neg hbackslash] at hc
    cases hc
    refine isSpelled_literal ?_
    simp only [Piece.specials, List.mem_cons, List.not_mem_nil, or_false, not_or]
    exact ⟨hbackslash, hdot, hplus, hstar, hmark, hparenthesis, hclose, hbar, hbracket, hstart,
      hstop, hbrace⟩

/-- The tokens of a text, each with the characters that spell it. -/
def spelled? (anyCase : Bool) : List Char → Option (List (Token × List Char))
  | [] => some []
  | c :: cs =>
    match token? anyCase c cs with
    | none => none
    | some (t, k) => (spelled? anyCase (cs.drop k)).map ((t, c :: cs.take k) :: ·)
termination_by cs => cs.length
decreasing_by simp only [List.length_drop, List.length_cons]; omega

/-- The tokens of a text are spelled by its characters. -/
theorem exists_spelled? {ts : List Token} (h : tokens? anyCase cs = some ts) :
    ∃ spelled, spelled? anyCase cs = some spelled ∧ spelled.map (·.1) = ts ∧
      spelled.flatMap (·.2) = cs ∧ ∀ s ∈ spelled, s.1.IsSpelled anyCase s.2 := by
  fun_induction tokens? anyCase cs generalizing ts with
  | case1 =>
      cases h
      exact ⟨[], by rw [spelled?], rfl, rfl, nofun⟩
  | case2 => cases h
  | case3 c cs t k ht ih =>
      obtain ⟨ts, hts, rfl⟩ := Option.map_eq_some_iff.mp h
      obtain ⟨spelled, hspelled, rfl, hcs, hall⟩ := ih hts
      refine ⟨(t, c :: cs.take k) :: spelled, ?_, rfl, ?_, ?_⟩
      · rw [spelled?, ht]
        exact congrArg (Option.map _) hspelled
      · rw [List.flatMap_cons, hcs, List.cons_append, List.take_append_drop]
      · exact List.forall_mem_cons.mpr ⟨isSpelled_of_token? ht, hall⟩

/-! ## Groups -/

/-- Reads spelled tokens with the pieces of the innermost group, latest first,
and behind them the enclosing groups, each with the characters that open the
next one. -/
def gather : List Piece → List (List Char × List Piece) → List (Token × List Char) →
    Option (List Piece)
  | body, [], [] => some body.reverse
  | _, _ :: _, [] => none
  | body, outer, (.open, cs) :: rest => gather [] ((cs, body) :: outer) rest
  | _, [], (.close, _) :: _ => none
  | body, (opening, before) :: outer, (.close, _) :: rest =>
    gather (.group opening body.reverse :: before) outer rest
  | _, _, (.bar, _) :: _ => none
  | body, outer, (.atom r, cs) :: rest => gather (pieceOf r cs :: body) outer rest
  | [], _, (.times .., _) :: _ => none
  | p :: before, outer, (.times lo hi, cs) :: rest =>
    gather (.times p cs lo hi :: before) outer rest

/-- The characters of open groups. -/
def writtenOpen : List Piece → List (List Char × List Piece) → List Char
  | body, [] => writtenAll body.reverse
  | body, (opening, before) :: outer =>
    writtenOpen before outer ++ opening ++ writtenAll body.reverse

theorem writtenOpen_cons (p : Piece) (body : List Piece) (outer : List (List Char × List Piece)) :
    writtenOpen (p :: body) outer = writtenOpen body outer ++ p.written := by
  have hbody : writtenAll (p :: body).reverse = writtenAll body.reverse ++ p.written := by
    rw [List.reverse_cons, Piece.writtenAll_append, writtenAll, writtenAll, List.append_nil]
  cases outer with
  | nil => exact hbody
  | cons frame outer => rw [writtenOpen, writtenOpen, hbody, List.append_assoc _ _ p.written]

theorem writtenAll_of_gather {body ps : List Piece} {outer : List (List Char × List Piece)}
    {spelled : List (Token × List Char)} (hall : ∀ s ∈ spelled, s.1.IsSpelled anyCase s.2)
    (h : gather body outer spelled = some ps) :
    writtenAll ps = writtenOpen body outer ++ spelled.flatMap (·.2) := by
  fun_induction gather body outer spelled with
  | case1 body =>
      cases h
      exact (List.append_nil _).symm
  | case2 | case4 | case6 | case8 => cases h
  | case3 body outer cs rest ih =>
      rw [ih (List.forall_mem_cons.mp hall).2 h, writtenOpen, List.flatMap_cons]
      simp only [List.reverse_nil, writtenAll, List.append_nil, List.append_assoc]
  | case5 body opening before outer cs rest ih =>
      obtain ⟨hclose, hrest⟩ := List.forall_mem_cons.mp hall
      obtain rfl : cs = [')'] := hclose
      rw [ih hrest h, writtenOpen_cons, writtenOpen, List.flatMap_cons, Piece.written]
      simp only [List.append_assoc]
  | case7 body outer r cs rest ih =>
      obtain ⟨⟨-, hwritten, -⟩, hall⟩ := List.forall_mem_cons.mp hall
      rw [ih hall h, writtenOpen_cons, hwritten, List.flatMap_cons, List.append_assoc]
  | case9 p before outer lo hi cs rest ih =>
      rw [ih (List.forall_mem_cons.mp hall).2 h, writtenOpen_cons, writtenOpen_cons,
        List.flatMap_cons, Piece.written]
      simp only [List.append_assoc]

theorem areGrammatical_of_gather {body ps : List Piece} {outer : List (List Char × List Piece)}
    {spelled : List (Token × List Char)} (hall : ∀ s ∈ spelled, s.1.IsSpelled anyCase s.2)
    (hbody : ∀ p ∈ body, p.IsGrammatical)
    (houter : ∀ frame ∈ outer, (frame.1 = ['('] ∨ frame.1 = ['(', '?', ':']) ∧
      ∀ p ∈ frame.2, p.IsGrammatical)
    (h : gather body outer spelled = some ps) : AreGrammatical ps := by
  fun_induction gather body outer spelled with
  | case1 body =>
      cases h
      exact Piece.areGrammatical_iff.mpr fun p hp => hbody p (List.mem_reverse.mp hp)
  | case2 | case4 | case6 | case8 => cases h
  | case3 body outer cs rest ih =>
      obtain ⟨hopen, hrest⟩ := List.forall_mem_cons.mp hall
      exact ih hrest nofun (List.forall_mem_cons.mpr ⟨⟨hopen, hbody⟩, houter⟩) h
  | case5 body opening before outer cs rest ih =>
      obtain ⟨⟨hopening, hbefore⟩, houter⟩ := List.forall_mem_cons.mp houter
      have hgroup : AreGrammatical body.reverse :=
        Piece.areGrammatical_iff.mpr fun p hp => hbody p (List.mem_reverse.mp hp)
      exact ih (List.forall_mem_cons.mp hall).2
        (List.forall_mem_cons.mpr ⟨⟨hopening, hgroup⟩, hbefore⟩) houter h
  | case7 body outer r cs rest ih =>
      obtain ⟨⟨hpiece, -⟩, hrest⟩ := List.forall_mem_cons.mp hall
      exact ih hrest (List.forall_mem_cons.mpr ⟨hpiece, hbody⟩) houter h
  | case9 p before outer lo hi cs rest ih =>
      obtain ⟨htimes, hrest⟩ := List.forall_mem_cons.mp hall
      obtain ⟨hp, hbefore⟩ := List.forall_mem_cons.mp hbody
      exact ih hrest (List.forall_mem_cons.mpr ⟨⟨hp, htimes⟩, hbefore⟩) houter h

/-! ## Matches -/

theorem spansAll_of_covers {ps : List Piece} {rs : List Regex}
    (h : List.Forall₂ (Covers anyCase) ps rs) (hspans : SpansAll (cs.map some) rs i j) :
    Piece.SpansAll (Same anyCase) (encoded cs) ps (place cs i) (place cs j) := by
  induction h generalizing i with
  | nil => exact congrArg (place cs) hspans
  | cons hp _ ih =>
      obtain ⟨k, hr, hspans⟩ := hspans
      exact ⟨place cs k, hp cs i k hr, ih hspans⟩

theorem covers_times {quantifier : List Char} (h : Covers anyCase p r) :
    Covers anyCase (.times p quantifier lo hi) (.times r lo hi) := by
  rintro cs i j ⟨n, hn, hrepeats⟩
  refine ⟨n, hn, ?_⟩
  clear hn
  induction n generalizing i with
  | zero => exact congrArg (place cs) hrepeats
  | succ n ih =>
      obtain ⟨k, hr, hrepeats⟩ := hrepeats
      exact ⟨place cs k, h cs i k hr, ih k hrepeats⟩

/-- The pieces of a group are read to its factors, and it has no alternatives. -/
structure IsRead (anyCase : Bool) (body : List Piece) (g : Group) : Prop where
  done : g.done = []
  factors : List.Forall₂ (Covers anyCase) body g.factors

namespace IsRead

variable {body : List Piece} {g : Group}

theorem push (h : IsRead anyCase body g) (hp : Covers anyCase p r) :
    IsRead anyCase (p :: body) { g with factors := r :: g.factors } :=
  ⟨h.done, .cons hp h.factors⟩

theorem spansAll (h : IsRead anyCase body g) (hspans : g.close.Spans (cs.map some) i j) :
    Piece.SpansAll (Same anyCase) (encoded cs) body.reverse (place cs i) (place cs j) := by
  have hclose : g.close = concat g.factors.reverse := by
    rw [Group.close, h.done]
    rfl
  rw [hclose, spans_concat] at hspans
  exact spansAll_of_covers (List.forall₂_reverse_iff.mpr h.factors) hspans

theorem covers_group (h : IsRead anyCase body g) (opening : List Char) :
    Covers anyCase (.group opening body.reverse) (.group g.close) :=
  fun _ _ _ hspans => h.spansAll hspans

end IsRead

/-- A quantifier repeats the latest factor, and there has to be one. -/
theorem exists_factor_of_assemble {g : Group} {outer : List Group} {ts : List Token}
    (h : assemble g outer (.times lo hi :: ts) = some r) :
    ∃ f before, g.factors = f :: before ∧
      assemble { g with factors := .times f lo hi :: before } outer ts = some r := by
  rw [assemble.eq_def] at h
  cases hfactors : g.factors with
  | nil => simp only [hfactors, reduceCtorEq] at h
  | cons f before =>
      simp only [hfactors] at h
      exact ⟨f, before, rfl, h⟩

/-- Without alternatives all that is read as an expression is gathered to
pieces, which match wherever it does. -/
theorem exists_gather {body : List Piece} {outer : List (List Char × List Piece)} {g : Group}
    {groups : List Group} {spelled : List (Token × List Char)}
    (hall : ∀ s ∈ spelled, s.1.IsSpelled anyCase s.2) (hbars : .bar ∉ spelled.map (·.1))
    (hbody : IsRead anyCase body g)
    (houter : List.Forall₂ (fun frame g => IsRead anyCase frame.2 g) outer groups)
    (h : assemble g groups (spelled.map (·.1)) = some r) :
    ∃ ps, gather body outer spelled = some ps ∧
      ∀ cs i j, r.Spans (cs.map some) i j →
        Piece.SpansAll (Same anyCase) (encoded cs) ps (place cs i) (place cs j) := by
  -- Pieces and factors are kept on stacks of the same depth, each frame read to the other.
  fun_induction gather body outer spelled generalizing g groups with
  | case1 body =>
      cases houter
      cases h
      exact ⟨_, rfl, fun cs i j hspans => hbody.spansAll hspans⟩
  | case2 | case4 =>
      cases houter
      cases h
  | case3 body outer cs rest ih =>
      rw [List.map_cons, assemble] at h
      exact ih (List.forall_mem_cons.mp hall).2 (mt (List.mem_cons_of_mem _) hbars) ⟨rfl, .nil⟩
        (.cons hbody houter) h
  | case5 body opening before outer cs rest ih =>
      obtain _ | ⟨hbefore, houter⟩ := houter
      rw [List.map_cons, assemble] at h
      exact ih (List.forall_mem_cons.mp hall).2 (mt (List.mem_cons_of_mem _) hbars)
        (hbefore.push (hbody.covers_group opening)) houter h
  | case6 => exact absurd List.mem_cons_self hbars
  | case7 body outer r cs rest ih =>
      obtain ⟨⟨-, -, hpiece⟩, hrest⟩ := List.forall_mem_cons.mp hall
      rw [List.map_cons, assemble] at h
      exact ih hrest (mt (List.mem_cons_of_mem _) hbars) (hbody.push hpiece) houter h
  | case8 outer =>
      obtain ⟨f, before, hfactors, -⟩ := exists_factor_of_assemble h
      have hnone := hbody.factors
      rw [hfactors] at hnone
      cases hnone
  | case9 p before outer lo hi cs rest ih =>
      obtain ⟨f, factors, hfactors, h⟩ := exists_factor_of_assemble h
      have hread := hbody.factors
      rw [hfactors] at hread
      obtain _ | ⟨hp, hbefore⟩ := hread
      have htimes : IsRead anyCase (.times p cs lo hi :: before)
          { g with factors := .times f lo hi :: factors } :=
        ⟨hbody.done, .cons (covers_times hp) hbefore⟩
      exact ih (List.forall_mem_cons.mp hall).2 (mt (List.mem_cons_of_mem _) hbars) htimes houter h

/-! ## The reading -/

/-- The pieces of an expression without alternatives. -/
def pieces (anyCase : Bool) (source : List Char) : List Piece :=
  ((spelled? anyCase source).bind (gather [] [])).getD []

/-- The pieces of an expression are written as it is and match where it does. -/
theorem pieces_of_parse? (h : parse? anyCase source = some r) (hbar : '|' ∉ source) :
    AreGrammatical (pieces anyCase source) ∧ writtenAll (pieces anyCase source) = source ∧
      ∀ cs i j, r.Spans (cs.map some) i j →
        Piece.SpansAll (Same anyCase) (encoded cs) (pieces anyCase source) (place cs i)
          (place cs j) := by
  obtain ⟨ts, hts, hread⟩ := exists_of_parse? h
  obtain ⟨spelled, hspelled, rfl, hsource, hall⟩ := exists_spelled? hts
  -- An alternative is begun by nothing but a bar.
  have hbars : .bar ∉ spelled.map (·.1) := fun hmem => by
    obtain ⟨c, hc, rfl⟩ := exists_begunBy hts hmem
    exact hbar hc
  obtain ⟨ps, hgather, hspans⟩ := exists_gather hall hbars ⟨rfl, .nil⟩ .nil hread
  have hpieces : pieces anyCase source = ps := by
    rw [pieces, hspelled, Option.bind_some, hgather, Option.getD_some]
  rw [hpieces]
  exact ⟨areGrammatical_of_gather hall (fun _ hp => absurd hp List.not_mem_nil)
      (fun _ hframe => absurd hframe List.not_mem_nil) hgather,
    (writtenAll_of_gather hall hgather).trans hsource, hspans⟩

theorem exists_parse? (h : (engine.compile anyCase source).isSome = true) :
    ∃ r, parse? anyCase source = some r := by
  rw [engine, Option.isSome_map] at h
  exact Option.isSome_iff_exists.mp h

/-- The engine's own reading. -/
def reading : engine.Reading where
  differInCase := DifferInCase
  cased := isCased_of_differInCase
  pieces := pieces
  grammatical h hbar := (pieces_of_parse? (exists_parse? h).choose_spec hbar).1
  written h hbar := (pieces_of_parse? (exists_parse? h).choose_spec hbar).2.1
  explains h hbar text hfound := by
    obtain ⟨r, hr, rfl⟩ := Option.map_eq_some_iff.mp h
    dsimp only at hfound
    rw [Utf8.decode_utf8, search_iff (isBounded_of_parse? hr)] at hfound
    obtain ⟨i, j, -, hspans⟩ := hfound
    rw [Utf8.utf8_eq_encoded]
    exact ⟨_, _, (pieces_of_parse? hr hbar).2.2 _ i j hspans⟩

end QueryPlanner.Regex
