/-
  QueryPlanner.Proofs.Pattern.RegexPrefix

  The prefix of a regular expression and the texts it matches.

  A match begins with the literals at the front of the expression, as long as
  no quantifier lets them be left out.  The split of an expression looks at
  the first quantifier behind the last literal only: one behind the leading
  group, or a second one behind the last literal, can undo what it reports.
  And it takes the boundary of a word for a literal.
-/

import QueryPlanner.Operator
import QueryPlanner.Proofs.Pattern.LikeRange
import QueryPlanner.Proofs.Pattern.Regex.Pieces
import QueryPlanner.Proofs.Pattern.RegexFront

namespace QueryPlanner

namespace PatternType

/-- The kind is one of regular expressions. -/
def IsRegex (kind : PatternType) : Prop := kind = .regex ∨ kind = .regexAnyCase

end PatternType

namespace FixedPrefix

open Piece (written writtenAll IsGrammatical AreGrammatical SpansAll)
open Utf8 (encoded)

variable {anyCase : Bool} {same : Char → Char → Prop} {p : Piece} {ps : List Piece} {c : Char}
  {out rest anchored : List Char} {text i j : List UInt8}

/-! ## Ends -/

/-- What is behind the split of an expression, without the parenthesis that
closes a leading group. -/
def behindSplit (anyCase : Bool) (anchored : List Char) : List Char :=
  let rest := (splitFront anyCase anchored).2
  if (groupBody? anchored).isSome ∧ rest.head? = some ')' then rest.drop 1 else rest

theorem rest_of_behindSplit (h : behindSplit anyCase anchored = ['$']) :
    (splitFront anyCase anchored).2 = ['$'] ∨
      (groupBody? anchored).isSome ∧ (splitFront anyCase anchored).2 = [')', '$'] := by
  rw [behindSplit] at h
  split_ifs at h with hclose
  · obtain ⟨hgroup, hhead⟩ := hclose
    obtain ⟨rest, hrest⟩ := List.head?_eq_some_iff.mp hhead
    rw [hrest] at h ⊢
    exact .inr ⟨hgroup, congrArg (')' :: ·) h⟩
  · exact .inl h

/-- A split that leaves but a closing parenthesis and the end of the text has
reported all pieces up to there. -/
theorem Splits.ends_of_subset {tail : List Char} (h : Splits anyCase ps tail out rest)
    (hrest : rest ⊆ [')', '$']) :
    ∃ front back, ps = front ++ back ∧ List.Forall₂ (Shows anyCase) front out ∧
      rest = writtenAll back ++ tail := by
  cases h with
  | ends hps hfront => exact ⟨_, _, hps, hfront, rfl⟩
  | quantified _ hc hmem =>
      have hboth := hrest hmem
      simp only [List.mem_cons, List.not_mem_nil, or_false] at hboth
      obtain rfl | rfl := hboth <;> exact absurd hc (by decide)

/-- With nothing but the end of the text left, a leading group is all there is,
and is reported. -/
theorem Leads.of_behindSplit {body items : List Piece} {behind : List Char}
    (hps : AreGrammatical ps) (h : Leads ps body items behind)
    (hbehind : behindSplit anyCase (writtenAll ps) = ['$']) :
    List.Forall₂ (Shows anyCase) body (splitFront anyCase (writtenAll ps)).1 ∧
      ∃ opening, ps = [.group opening body, .stop] := by
  obtain ⟨p, opening, rfl, hp, -, hlast⟩ := h.piece
  have hbody := Piece.isGrammatical_core hps.1
  rw [hp] at hbody
  have hrest := rest_of_behindSplit hbehind
  have hsubset : (splitFront anyCase (writtenAll (p :: items))).2 ⊆ [')', '$'] := by
    obtain h | ⟨-, h⟩ := hrest <;> simp [h]
  obtain ⟨front, back, rfl, hfront, hleft⟩ := (h.splits hbody.2).ends_of_subset hsubset
  rw [hleft] at hrest
  cases back with
  | nil =>
      obtain hrest | ⟨-, hrest⟩ := hrest
      · cases hrest
      · obtain ⟨rfl, hcore⟩ | ⟨q, hq, more, rfl⟩ := hlast
        · obtain rfl := Piece.eq_stop_of_writtenAll hps.2 (List.cons.inj hrest).2
          rw [List.append_nil] at hp ⊢
          exact ⟨hfront, opening, by rw [← hcore, hp]⟩
        · obtain rfl : q = '$' := (List.cons.inj (List.cons.inj hrest).2).1
          exact absurd hq (by decide)
  | cons b back =>
      -- What follows the pieces reported does not begin with a parenthesis.
      obtain ⟨c, cs, hw, -, hc⟩ := Piece.exists_written_cons
        (Piece.areGrammatical_append.mp hbody.2).2.1
      rw [writtenAll, hw] at hrest
      obtain hrest | ⟨-, hrest⟩ := hrest
      · obtain ⟨-, hnil⟩ := List.cons.inj hrest
        cases (List.append_eq_nil_iff.mp hnil).2
      · obtain rfl := (List.cons.inj hrest).1
        exact absurd List.mem_cons_self hc

/-- With nothing but the end of the text left, all pieces before it are
reported. -/
theorem eq_append_stop_of_behindSplit (hps : AreGrammatical ps)
    (hgroup : groupBody? (writtenAll ps) = none)
    (hbehind : behindSplit anyCase (writtenAll ps) = ['$']) :
    ∃ front, ps = front ++ [.stop] ∧
      List.Forall₂ (Shows anyCase) front (splitFront anyCase (writtenAll ps)).1 := by
  have hrest := rest_of_behindSplit hbehind
  rw [hgroup] at hrest
  obtain hrest | ⟨hsome, -⟩ := hrest
  · have hsplits : Splits anyCase ps [] _ _ := splits_of_groupBody? hps hgroup
    obtain ⟨front, back, hparts, hfront, hleft⟩ := hsplits.ends_of_subset (by simp [hrest])
    rw [hrest, List.append_nil] at hleft
    rw [hparts] at hps
    obtain rfl := Piece.eq_stop_of_writtenAll (Piece.areGrammatical_append.mp hps).2 hleft.symm
    exact ⟨front, hparts, hfront⟩
  · cases hsome

/-! ## Matches -/

section Matches

/-- Characters that do not differ in case are the same as themselves alone. -/
def Caseless (anyCase : Bool) (same : Char → Char → Prop) : Prop :=
  ∀ c d, (anyCase && varies c) = false → same d c → d = c

variable (hsame : Caseless anyCase same)

include hsame

/-- A literal matches the character that it shows. -/
theorem Shows.eq_append (h : Shows anyCase p c) (hliteral : p.isLiteral = true)
    (hspans : p.Spans same text i j) : i = String.utf8EncodeChar c ++ j := by
  obtain rfl | rfl | ⟨leads, rfl⟩ := h.piece
  case inr.inr => cases hliteral
  all_goals
    obtain ⟨d, hd, rfl⟩ := hspans
    rw [hsame c d h.caseless hd]

/-- Literals match the characters that they show. -/
theorem eq_append_of_shows {front : List Piece} (h : List.Forall₂ (Shows anyCase) front out)
    (hliterals : ∀ p ∈ front, p.isLiteral = true) (hspans : SpansAll same text front i j) :
    i = encoded out ++ j := by
  induction h generalizing i with
  | nil => exact hspans
  | cons h _ ih =>
      obtain ⟨hp, hliterals⟩ := List.forall_mem_cons.mp hliterals
      obtain ⟨k, hpiece, hspans⟩ := hspans
      rw [h.eq_append hsame hp hpiece, ih hliterals hspans, encoded, encoded, List.flatMap_cons,
        List.append_assoc]

/-- What is reported of literals is found where they match, if the last one is
not left out. -/
theorem exists_eq_append_of_reports (h : Reports anyCase ps out)
    (hliterals : ∀ p ∈ ps.take out.length, p.isLiteral = true)
    (hneeded : ∀ p ∈ ps.take out.length, p.isNeeded = true) (hspans : SpansAll same text ps i j) :
    ∃ k, i = encoded out ++ k := by
  induction h generalizing i with
  | none => exact ⟨i, rfl⟩
  | @last p ps c h =>
      have hp : p.core.isLiteral = true :=
        p.isLiteral_core.trans (hliterals p List.mem_cons_self)
      obtain ⟨k, hpiece, -⟩ := hspans
      obtain ⟨k, hcore⟩ := Piece.exists_spans_core (hneeded p List.mem_cons_self) hpiece
      rw [h.eq_append hsame hp hcore, encoded, List.flatMap_singleton]
      exact ⟨k, rfl⟩
  | next h _ ih =>
      obtain ⟨hp, hliterals⟩ := List.forall_mem_cons.mp hliterals
      obtain ⟨k, hpiece, hspans⟩ := hspans
      obtain ⟨l, rfl⟩ := ih hliterals (List.forall_mem_cons.mp hneeded).2 hspans
      refine ⟨l, ?_⟩
      rw [h.eq_append hsame hp hpiece, encoded, encoded, List.flatMap_cons, List.append_assoc]

/-- Where the pieces behind the anchor match, the split reports what is found
there, if its pieces are literals and none of them is left out. -/
theorem exists_eq_append_of_splitFront (hps : AreGrammatical ps)
    (hout : (splitFront anyCase (writtenAll ps)).1 = out)
    (hliterals : ∀ p ∈ (Piece.front ps).take out.length, p.isLiteral = true)
    (hneeded : ∀ p ∈ ps.take 1 ++ (Piece.front ps).take out.length, p.isNeeded = true)
    (hspans : SpansAll same text ps i j) : ∃ k, i = encoded out ++ k := by
  obtain ⟨hfirst, hlast⟩ := List.forall_mem_append.mp hneeded
  rcases leads_or_front_eq hps with ⟨body, rest, behind, hleads⟩ | ⟨hgroup, hfront⟩
  · rw [hleads.front_eq] at hliterals hlast
    obtain ⟨p, opening, rfl, hp, -⟩ := hleads.piece
    have hbody := Piece.isGrammatical_core hps.1
    rw [hp] at hbody
    have hreports : Reports anyCase body out := hout ▸ (hleads.splits hbody.2).reports
    obtain ⟨k, hpiece, -⟩ := hspans
    obtain ⟨k, hcore⟩ := Piece.exists_spans_core (hfirst p List.mem_cons_self) hpiece
    rw [hp] at hcore
    exact exists_eq_append_of_reports hsame hreports hliterals hlast hcore
  · rw [hfront] at hliterals hlast
    have hreports : Reports anyCase ps out := hout ▸ (splits_of_groupBody? hps hgroup).reports
    exact exists_eq_append_of_reports hsame hreports hliterals hlast hspans

/-- Where nothing but the end of the text is left, the split reports all that
the pieces behind the anchor match. -/
theorem eq_encoded_of_splitFront (hps : AreGrammatical ps)
    (hbehind : behindSplit anyCase (writtenAll ps) = ['$'])
    (hout : (splitFront anyCase (writtenAll ps)).1 = out)
    (hliterals : ∀ p ∈ (Piece.front ps).take out.length, p.isLiteral = true)
    (hspans : SpansAll same text ps i j) : i = encoded out := by
  rcases leads_or_front_eq hps with ⟨body, rest, behind, hleads⟩ | ⟨hgroup, hfront⟩
  · rw [hleads.front_eq] at hliterals
    obtain ⟨hshows, opening, rfl⟩ := hleads.of_behindSplit hps hbehind
    rw [hout] at hshows
    rw [← hshows.length_eq, List.take_length] at hliterals
    obtain ⟨k, hbody, _, ⟨-, rfl⟩, -⟩ := hspans
    rw [eq_append_of_shows hsame hshows hliterals hbody, List.append_nil]
  · obtain ⟨front, rfl, hshows⟩ := eq_append_stop_of_behindSplit hps hgroup hbehind
    rw [hout] at hshows
    rw [hfront, List.take_left' hshows.length_eq] at hliterals
    obtain ⟨k, hpieces, _, ⟨-, rfl⟩, -⟩ := Piece.spansAll_append.mp hspans
    rw [eq_append_of_shows hsame hshows hliterals hpieces, List.append_nil]

end Matches

/-! ## Patterns -/

section Patterns

variable {α : Type} {engine : RegexEngine} {kind : PatternType} {pattern text : String}
  {split : FixedPrefix α}

theorem ofRegex_of_anchored (hanchored : withoutDirector pattern.toList = '^' :: anchored)
    (hbar : '|' ∉ anchored) :
    ofRegex anyCase (.text pattern : Datum α) = .ok
      (let fixed := (splitFront anyCase anchored).1
      let rest := Datum.text (String.ofList (splitFront anyCase anchored).2)
      if behindSplit anyCase anchored = ['$'] then
        ⟨.whole, some (.text (String.ofList fixed)), .text ""⟩
      else if fixed.isEmpty then ⟨.absent, some (.text (String.ofList fixed)), rest⟩
      else ⟨.front, some (.text (String.ofList fixed)), rest⟩) := by
  rw [ofRegex, hanchored]
  exact if_neg (mt List.contains_iff_mem.mp hbar)

/-- A split that reports something has found an anchor and no alternatives. -/
theorem exists_anchored (hsplit : ofRegex anyCase (.text pattern : Datum α) = .ok split)
    (hstatus : split.status ≠ .absent) :
    ∃ anchored, withoutDirector pattern.toList = '^' :: anchored ∧ '|' ∉ anchored ∧
      split.fixed = some (.text (String.ofList (splitFront anyCase anchored).1)) ∧
      (behindSplit anyCase anchored = ['$'] ∨
        split.status = .front ∧ (splitFront anyCase anchored).1 ≠ []) := by
  have hunfold := hsplit
  rw [ofRegex] at hunfold
  split at hunfold
  next anchored hanchored =>
    split at hunfold
    · cases hunfold
      exact absurd rfl hstatus
    · rename_i hbar
      rw [List.contains_iff_mem] at hbar
      rw [ofRegex_of_anchored hanchored hbar] at hsplit
      refine ⟨anchored, hanchored, hbar, ?_⟩
      dsimp only at hsplit
      split_ifs at hsplit with htail hnil <;> cases hsplit
      · exact ⟨rfl, .inl htail⟩
      · exact absurd rfl hstatus
      · exact ⟨rfl, .inr ⟨rfl, mt List.isEmpty_iff.mpr hnil⟩⟩
  next =>
    cases hunfold
    exact absurd rfl hstatus

/-- A quantifier at the front leaves nothing to report. -/
theorem splitFront_quantifier (anyCase : Bool) {q : Char} (hq : q ∈ quantifiers)
    (rest : List Char) :
    splitFront anyCase (q :: rest) = ([], q :: rest) ∧
      behindSplit anyCase (q :: rest) = q :: rest := by
  have hgroup : groupBody? (q :: rest) = none := groupBody?_of_ne fun h => by
    rw [h] at hq
    exact absurd hq (by decide)
  have hsplit : splitFront anyCase (q :: rest) = ([], q :: rest) := by
    rw [splitFront, frontOf, hgroup, Option.getD_none, splitRegex_quantifier hq, List.reverse_nil,
      ite_self]
  refine ⟨hsplit, ?_⟩
  rw [behindSplit, hsplit, hgroup]
  exact if_neg fun h => Bool.false_ne_true h.1

/-- Where something is reported, the anchor is a piece of its own. -/
theorem eq_start_cons (hps : AreGrammatical ps) (hwritten : writtenAll ps = '^' :: anchored)
    (hreports : behindSplit anyCase anchored = ['$'] ∨ (splitFront anyCase anchored).1 ≠ []) :
    ∃ behind, ps = .start :: behind ∧ writtenAll behind = anchored := by
  cases ps with
  | nil => cases hwritten
  | cons p ps =>
      obtain ⟨c, cs, hw, -⟩ := Piece.exists_written_cons hps.1
      obtain ⟨behind, hcore, hbehind⟩ := Piece.exists_written hps.1
      rw [writtenAll, hw, List.cons_append] at hwritten
      obtain ⟨rfl, hrest⟩ := List.cons.inj hwritten
      have hstart := Piece.core_eq_start hps.1 hw
      rw [hstart, hw] at hcore
      obtain rfl : cs = behind := (List.cons.inj hcore).2
      obtain ⟨rfl, hp⟩ | ⟨q, hq, more, rfl⟩ := hbehind
      · exact ⟨ps, by rw [← hp, hstart], hrest⟩
      · -- With a quantifier behind the anchor nothing is fixed.
        obtain ⟨hnone, hall⟩ := splitFront_quantifier anyCase hq (more ++ writtenAll ps)
        rw [← hrest, List.cons_append, hnone, hall] at hreports
        obtain hend | hne := hreports
        · obtain rfl := (List.cons.inj hend).1
          exact absurd hq (by decide)
        · exact absurd rfl hne

theorem caseless_reading (reading : engine.Reading) (anyCase : Bool) :
    Caseless anyCase fun d c => d = c ∨ anyCase = true ∧ reading.differInCase d c := by
  rintro c d hvaries (rfl | ⟨rfl, hdiffer⟩)
  · rfl
  · rw [Bool.true_and, varies_eq, Bool.or_eq_false_iff, decide_eq_false_iff_not] at hvaries
    obtain hhigh | halpha := reading.cased hdiffer
    · exact absurd hhigh hvaries.1
    · rw [hvaries.2] at halpha
      cases halpha

theorem exists_of_patternMatch (hkind : kind.IsRegex)
    (h : patternMatch engine kind (utf8 text) (utf8 pattern) = some true) :
    ∃ found, engine.compile kind.anyCase (withoutDirector pattern.toList) = some found ∧
      found (utf8 text) = true := by
  obtain rfl | rfl := hkind
  all_goals
    obtain ⟨found, hcompile, hfound⟩ := Option.map_eq_some_iff.mp h
    rw [Utf8.decodeLossy_utf8] at hcompile
    exact ⟨found, hcompile, hfound⟩

theorem ofPattern_of_isRegex (hkind : kind.IsRegex) (p : Datum α) :
    ofPattern kind p = ofRegex kind.anyCase p := by
  obtain rfl | rfl := hkind <;> rfl

/-- The pieces of a pattern behind its anchor. -/
def behindAnchor (reading : engine.Reading) (kind : PatternType) (pattern : String) : List Piece :=
  (reading.pieces kind.anyCase (withoutDirector pattern.toList)).drop 1

/-- The first pieces that the split of a pattern reads, as many as it reports
characters. -/
def reportedPieces (reading : engine.Reading) (kind : PatternType) (pattern fixed : String) :
    List Piece :=
  (Piece.front (behindAnchor reading kind pattern)).take fixed.length

/-- A regular expression that reports a prefix does so for a text that starts
with it, if it reports only literals, and no quantifier behind them or behind
a leading group lets one of them be left out.  If nothing else is left of the
expression, the text is the prefix, whatever the quantifiers. -/
theorem startsWith_of_regexMatch [Number α] (reading : engine.Reading) (hkind : kind.IsRegex)
    (hsplit : ofPattern kind (.text pattern : Datum α) = .ok split)
    (hmatch : (Procedure.pattern engine kind false).holds (.text text)
      (.text pattern : Datum α) = true)
    (hstatus : split.status ≠ .absent) :
    ∃ fixed, split.fixed = some (.text fixed) ∧
      ((∀ p ∈ reportedPieces reading kind pattern fixed, p.isLiteral = true) →
        (split.status = .front →
          ∀ p ∈ (behindAnchor reading kind pattern).take 1 ++
            reportedPieces reading kind pattern fixed, p.isNeeded = true) →
        fixed.toList <+: text.toList ∧ (split.status = .whole → text = fixed)) := by
  obtain ⟨_, _, ⟨⟩, ⟨⟩, hmatched⟩ := patternMatch_of_holds hmatch
  obtain ⟨found, hcompile, hfound⟩ := exists_of_patternMatch hkind hmatched
  rw [ofPattern_of_isRegex hkind] at hsplit
  obtain ⟨anchored, hanchored, hbar, hfixed, hends⟩ := exists_anchored hsplit hstatus
  have hsource : '|' ∉ withoutDirector pattern.toList := by
    rw [hanchored]
    exact List.not_mem_cons_of_ne_of_not_mem (by decide) hbar
  have hcompiles := Option.isSome_of_eq_some hcompile
  have hgrammatical := reading.grammatical hcompiles hsource
  have hwritten := (reading.written hcompiles hsource).trans hanchored
  obtain ⟨i, j, hspans⟩ := reading.explains hcompile hsource text hfound
  obtain ⟨behind, hpieces, rfl⟩ := eq_start_cons hgrammatical hwritten (hends.imp_right (·.2))
  have hbehind : behindAnchor reading kind pattern = behind := by rw [behindAnchor, hpieces]; rfl
  rw [hpieces] at hgrammatical hspans
  obtain ⟨_, ⟨rfl, rfl⟩, hspans⟩ := hspans
  refine ⟨_, hfixed, ?_⟩
  rw [reportedPieces, hbehind, String.length_ofList, String.toList_ofList]
  intro hliterals hneeded
  have hsame := caseless_reading reading kind.anyCase
  rw [Utf8.utf8_eq_encoded] at hspans
  cases hcase : split.status with
  | absent => exact absurd hcase hstatus
  | front =>
      obtain ⟨k, hk⟩ := exists_eq_append_of_splitFront hsame hgrammatical.2 rfl hliterals
        (hneeded hcase) hspans
      obtain ⟨back, htext, -⟩ := Utf8.exists_encoded_of_append hk
      exact ⟨⟨back, htext.symm⟩, nofun⟩
  | whole =>
      obtain hend | ⟨hfront, -⟩ := hends
      · have htext := Utf8.encoded_inj
          (eq_encoded_of_splitFront hsame hgrammatical.2 hend rfl hliterals hspans)
        refine ⟨htext ▸ List.prefix_rfl, fun _ => ?_⟩
        rw [← htext, String.ofList_toList]
      · rw [hcase] at hfront
        cases hfront

theorem ofPattern_of_splitFront {fixed rest : List Char}
    (hanchored : withoutDirector pattern.toList = '^' :: anchored) (hbar : '|' ∉ anchored)
    (hfront : splitFront false anchored = (fixed, rest)) (hfixed : fixed ≠ [])
    (hbehind : behindSplit false anchored ≠ ['$']) :
    ofPattern .regex (.text pattern : Datum α) =
      .ok ⟨.front, some (.text (String.ofList fixed)), .text (String.ofList rest)⟩ := by
  rw [ofPattern, PatternType.anyCase, ofRegex_of_anchored hanchored hbar, hfront]
  dsimp only
  rw [if_neg hbehind, if_neg (mt List.isEmpty_iff.mp hfixed)]

/-- A group that is repeated is matched at the start of the text. -/
theorem startsWith_of_regexMatch_repeatedGroup :
    PatternType.regex.IsRegex ∧
    ∃ split, ofPattern .regex (.text "^(ab)+c" : Datum Float) = .ok split ∧
      (Procedure.pattern Regex.engine .regex false).holds (.text "ababcd")
        (.text "^(ab)+c" : Datum Float) = true ∧
      split.status ≠ .absent ∧
      ∃ fixed, split.fixed = some (.text fixed) ∧
        (∀ p ∈ reportedPieces Regex.reading .regex "^(ab)+c" fixed, p.isLiteral = true) ∧
        (split.status = .front → ∀ p ∈ (behindAnchor Regex.reading .regex "^(ab)+c").take 1 ++
          reportedPieces Regex.reading .regex "^(ab)+c" fixed, p.isNeeded = true) ∧
        fixed.toList <+: "ababcd".toList ∧ (split.status = .whole → "ababcd" = fixed) := by
  have hkind : PatternType.regex.IsRegex := .inl rfl
  have hanchored : withoutDirector "^(ab)+c".toList = '^' :: "(ab)+c".toList := by decide +kernel
  have hfront : splitFront false "(ab)+c".toList = ("ab".toList, ")+c".toList) := by
    decide +kernel
  have hsplit := ofPattern_of_splitFront (α := Float) hanchored (by decide +kernel) hfront
    (by decide) (by decide +kernel)
  have hmatch : (Procedure.pattern Regex.engine .regex false).holds (.text "ababcd")
      (.text "^(ab)+c" : Datum Float) = true := by decide +kernel
  obtain ⟨fixed, hfixed, hstarts⟩ :=
    startsWith_of_regexMatch Regex.reading hkind hsplit hmatch nofun
  obtain rfl : "ab" = fixed := by
    cases hfixed
    exact String.ofList_toList.symm
  have hliterals : ∀ p ∈ reportedPieces Regex.reading .regex "^(ab)+c" "ab",
      p.isLiteral = true := List.all_eq_true.mp (by decide +kernel)
  have hneeded : ∀ p ∈ (behindAnchor Regex.reading .regex "^(ab)+c").take 1 ++
      reportedPieces Regex.reading .regex "^(ab)+c" "ab", p.isNeeded = true :=
    List.all_eq_true.mp (by decide +kernel)
  exact ⟨hkind, _, hsplit, hmatch, nofun, _, hfixed, hliterals, fun _ => hneeded,
    hstarts hliterals fun _ => hneeded⟩

/-- A group that may be left out is not fixed, but its literals are reported:
the quantifier behind the group is not looked at. -/
theorem prefix_of_optionalGroup :
    ∃ split, ofPattern .regex (.text "^(abc)?d" : Datum Float) = .ok split ∧
      split.status = .front ∧ split.fixed = some (.text "abc") ∧
      (Procedure.pattern Regex.engine .regex false).holds (.text "d")
        (.text "^(abc)?d" : Datum Float) = true ∧
      ¬ "abc".toList <+: "d".toList := by
  have hanchored : withoutDirector "^(abc)?d".toList = '^' :: "(abc)?d".toList := by decide +kernel
  have hfront : splitFront false "(abc)?d".toList = ("abc".toList, ")?d".toList) := by
    decide +kernel
  have hsplit := ofPattern_of_splitFront (α := Float) hanchored (by decide +kernel) hfront
    (by decide) (by decide +kernel)
  refine ⟨_, hsplit, rfl, ?_, by decide +kernel, by decide⟩
  rw [String.ofList_toList]

end Patterns

end FixedPrefix

end QueryPlanner
