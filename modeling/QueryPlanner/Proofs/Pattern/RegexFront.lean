/-
  QueryPlanner.Proofs.Pattern.RegexFront

  The front of a regular expression, as a split reads it.

  The split goes over the characters of an expression, a match over its
  pieces.  They keep step: every piece the split goes over is one character
  that it takes for a literal, and it stops where another piece begins or at a
  quantifier.
-/

import Mathlib.Data.List.Forall2
import QueryPlanner.Pattern.FixedPrefix
import QueryPlanner.Proofs.Pattern.RegexEngine

namespace QueryPlanner

/-- What begins a quantifier. -/
def quantifiers : List Char := ['*', '+', '?', '{']

/-! ## Pieces -/

namespace Piece

variable {p : Piece} {ps ps' items : List Piece} {c : Char} {cs : List Char}

/-- A piece without the quantifiers behind it. -/
def core : Piece → Piece
  | .times a _ _ _ => a.core
  | p => p

/-- A literal, quantifiers apart. -/
def isLiteral : Piece → Bool
  | .times a _ _ _ => a.isLiteral
  | .literal _ | .escaped _ => true
  | _ => false

/-- No quantifier behind the piece lets it be left out. -/
def isNeeded : Piece → Bool
  | .times a _ lo _ => decide (0 < lo) && a.isNeeded
  | _ => true

/-- The pieces that a split reads of those behind the anchor: those of a group
if one stands there. -/
def front : List Piece → List Piece
  | [] => []
  | p :: ps =>
    match p.core with
    | .group _ body => body
    | _ => p :: ps

/-! ### Quantifiers -/

theorem head_of_isQuantifier {lo : Nat} {hi : Option Nat} (h : IsQuantifier cs lo hi) :
    ∃ q ∈ quantifiers, ∃ more, cs = q :: more := by
  obtain ⟨greedy, hgreedy, rfl | rfl⟩ := h
  all_goals
    cases hgreedy
    all_goals exact ⟨_, by decide, _, rfl⟩

theorem isGrammatical_core (h : p.IsGrammatical) : p.core.IsGrammatical := by
  fun_induction core p with
  | case1 a quantifier lo hi ih => exact ih h.1
  | case2 => exact h

theorem isLiteral_core (p : Piece) : p.core.isLiteral = p.isLiteral := by
  fun_induction core p with
  | case1 _ _ _ _ ih => exact ih
  | case2 => rfl

theorem core_ne_times (p a : Piece) (quantifier : List Char) (lo : Nat) (hi : Option Nat) :
    p.core ≠ .times a quantifier lo hi := by
  fun_induction core p with
  | case1 _ _ _ _ ih => exact ih
  | case2 p h =>
      rintro rfl
      exact h _ _ _ _ rfl

/-- Behind the core of a piece stand its quantifiers, if there are any. -/
theorem exists_written (h : p.IsGrammatical) :
    ∃ behind, p.written = p.core.written ++ behind ∧
      (behind = [] ∧ p.core = p ∨ ∃ q ∈ quantifiers, ∃ more, behind = q :: more) := by
  fun_induction core p with
  | case1 a quantifier lo hi ih =>
      obtain ⟨behind, hwritten, hbehind⟩ := ih h.1
      refine ⟨behind ++ quantifier, by rw [written, hwritten, List.append_assoc], .inr ?_⟩
      obtain ⟨rfl, -⟩ | ⟨q, hq, more, rfl⟩ := hbehind
      · exact head_of_isQuantifier h.2
      · exact ⟨q, hq, more ++ quantifier, rfl⟩
  | case2 p => exact ⟨[], (List.append_nil _).symm, .inl ⟨rfl, rfl⟩⟩

/-- Where a needed piece is matched, its core is. -/
theorem exists_spans_core {same : Char → Char → Prop} {text i j : List UInt8}
    (hneeded : p.isNeeded = true) (h : p.Spans same text i j) :
    ∃ k, p.core.Spans same text i k := by
  fun_induction core p generalizing j with
  | case1 a quantifier lo hi ih =>
      obtain ⟨hlo, hneeded⟩ := Bool.and_eq_true_iff.mp hneeded
      obtain ⟨n, ⟨hn, -⟩, hrepeats⟩ := h
      obtain ⟨n, rfl⟩ := Nat.exists_eq_add_of_lt (Nat.lt_of_lt_of_le (of_decide_eq_true hlo) hn)
      rw [Nat.zero_add] at hrepeats
      obtain ⟨k, hk, -⟩ := hrepeats
      exact ih hneeded hk
  | case2 p => exact ⟨j, h⟩

/-! ### First characters -/

theorem begin_special : ')' :: '|' :: quantifiers ⊆ specials := by decide

/-- A piece begins with its core, and no piece is begun by a quantifier, a
closing parenthesis or an alternative. -/
theorem exists_written_cons (h : p.IsGrammatical) :
    ∃ c cs, p.written = c :: cs ∧ p.core.written.head? = some c ∧
      c ∉ ')' :: '|' :: quantifiers := by
  obtain ⟨behind, hwritten, -⟩ := exists_written h
  have hcore := isGrammatical_core h
  suffices hhead : ∃ c cs, p.core.written = c :: cs ∧ c ∉ ')' :: '|' :: quantifiers by
    obtain ⟨c, cs, hw, hc⟩ := hhead
    exact ⟨c, cs ++ behind, by rw [hwritten, hw]; rfl, by rw [hw]; rfl, hc⟩
  cases hp : p.core with
  | literal c =>
      rw [hp] at hcore
      exact ⟨c, [], rfl, fun hc => hcore (begin_special hc)⟩
  | escaped c => exact ⟨'\\', [c], rfl, by decide⟩
  | start => exact ⟨'^', [], rfl, by decide⟩
  | stop => exact ⟨'$', [], rfl, by decide⟩
  | group opening body =>
      rw [hp] at hcore
      obtain ⟨rfl | rfl, -⟩ := hcore
      · exact ⟨'(', _, rfl, by decide⟩
      · exact ⟨'(', _, rfl, by decide⟩
  | times a quantifier lo hi => exact absurd hp (core_ne_times p a quantifier lo hi)
  | other cs leads =>
      rw [hp] at hcore
      cases (show BeginsOther cs from hcore) with
      | dot cs => exact ⟨'.', cs, rfl, by decide⟩
      | bracket cs => exact ⟨'[', cs, rfl, by decide⟩
      | flags hc cs => exact ⟨'(', _, rfl, by decide⟩
      | escape hc cs => exact ⟨'\\', _, rfl, by decide⟩
      | boundary hc => exact ⟨'\\', _, rfl, by decide⟩

/-- Only the anchor at the end is written as it is. -/
theorem eq_stop_of_written (h : p.IsGrammatical) (hwritten : p.written = ['$']) : p = .stop := by
  obtain ⟨behind, hw, ⟨rfl, hcore⟩ | ⟨q, hq, more, rfl⟩⟩ := exists_written h
  · cases p with
    | stop => rfl
    | literal c =>
        cases hwritten
        exact absurd (by decide) h
    | group opening body => obtain ⟨rfl | rfl, -⟩ := h <;> cases hwritten
    | times a quantifier lo hi => exact absurd hcore (core_ne_times _ a quantifier lo hi)
    | other cs leads =>
        cases hwritten
        cases (show BeginsOther ['$'] from h)
    | escaped | start => cases hwritten
  · -- The core takes a character before the quantifier.
    obtain ⟨c, cs, -, hhead, -⟩ := exists_written_cons h
    obtain ⟨rest, hrest⟩ := List.head?_eq_some_iff.mp hhead
    rw [hwritten, hrest] at hw
    cases (List.append_eq_nil_iff.mp (List.cons.inj hw).2.symm).2

theorem eq_nil_of_writtenAll (hps : AreGrammatical ps) (h : writtenAll ps = []) : ps = [] := by
  cases ps with
  | nil => rfl
  | cons p ps =>
      obtain ⟨c, cs, hw, -⟩ := exists_written_cons hps.1
      rw [writtenAll, hw] at h
      cases h

theorem eq_stop_of_writtenAll (hps : AreGrammatical ps) (h : writtenAll ps = ['$']) :
    ps = [.stop] := by
  cases ps with
  | nil => cases h
  | cons p ps =>
      obtain ⟨c, cs, hw, -⟩ := exists_written_cons hps.1
      rw [writtenAll, hw] at h
      obtain ⟨rfl, hnil⟩ := List.cons.inj h
      obtain ⟨rfl, hrest⟩ := List.append_eq_nil_iff.mp hnil
      rw [eq_stop_of_written hps.1 hw, eq_nil_of_writtenAll hps.2 hrest]

/-- Only the anchor at the start begins as it does. -/
theorem core_eq_start (h : p.IsGrammatical) (hwritten : p.written = '^' :: cs) :
    p.core = .start := by
  obtain ⟨c, cs', hw, hhead, -⟩ := exists_written_cons h
  obtain rfl : c = '^' := (List.cons.inj (hw.symm.trans hwritten)).1
  have hcore := isGrammatical_core h
  cases hp : p.core with
  | start => rfl
  | literal c =>
      rw [hp] at hhead hcore
      cases hhead
      exact absurd (by decide) hcore
  | group opening body =>
      rw [hp] at hhead hcore
      obtain ⟨rfl | rfl, -⟩ := hcore <;> cases hhead
  | times a quantifier lo hi => exact absurd hp (core_ne_times p a quantifier lo hi)
  | other cs leads =>
      rw [hp] at hhead hcore
      cases (show BeginsOther cs from hcore) <;> cases hhead
  | escaped | stop =>
      rw [hp] at hhead
      cases hhead

end Piece

/-! ## Characters of the split -/

namespace FixedPrefix

open Piece (written writtenAll IsGrammatical AreGrammatical BeginsOther)

variable {anyCase : Bool} {p : Piece} {ps done items : List Piece} {c d : Char}
  {out fixed before back rest more tail anchored : List Char}

theorem varies_eq (c : Char) : varies c = (decide (0x80 ≤ c.toNat) || c.isAlpha) := by
  rw [varies, HasCode.code, instHasCodeChar, Char.ofNat_toNat]

/-- The piece is one character for the split, which does not differ in case
where that does not count.  Of the boundary of a word, too, the split sees an
escaped character. -/
structure Shows (anyCase : Bool) (p : Piece) (c : Char) : Prop where
  piece : p = .literal c ∨ p = .escaped c ∨ ∃ leads, p = .other ['\\', c] leads
  caseless : (anyCase && varies c) = false

/-- The split stops before what begins other pieces. -/
theorem splitRegex_stop (hc : c ∈ ['.', '(', ')', '[', '^', '$']) :
    splitRegex anyCase fixed before back (c :: rest) = (fixed.reverse, c :: rest) := by
  rw [splitRegex.eq_def]
  exact if_pos (List.contains_iff_mem.mpr hc)

theorem splitRegex_quantifier (hc : c ∈ quantifiers) :
    splitRegex anyCase fixed before back (c :: rest) =
      (if c = '+' then fixed.reverse else before.reverse, back) := by
  simp only [quantifiers, List.mem_cons, List.not_mem_nil, or_false] at hc
  rw [splitRegex.eq_def]
  obtain rfl | rfl | rfl | rfl := hc <;> simp [varies, HasCode.code]

theorem splitRegex_literal (hc : c ∉ Piece.specials) :
    splitRegex anyCase fixed before back (c :: rest) =
      if (anyCase && varies c) = true then (fixed.reverse, c :: rest)
      else splitRegex anyCase (c :: fixed) fixed (c :: rest) rest := by
  simp only [Piece.specials, List.mem_cons, List.not_mem_nil, or_false, not_or] at hc
  rw [splitRegex.eq_def]
  simp [hc]

/-- Behind a backslash the split goes over all but letters, digits and two
brackets. -/
theorem splitRegex_escaped :
    splitRegex anyCase fixed before back ('\\' :: d :: rest) =
      if d = '{' then (before.reverse, back)
      else if d.isAlphanum ∨ d = '(' then (fixed.reverse, '\\' :: d :: rest)
      else splitRegex anyCase (d :: fixed) fixed (d :: rest) rest := by
  rw [splitRegex]
  simp [varies, HasCode.code]

theorem not_varies_of_ascii (hascii : c.toNat < 0x80) (hc : c.isAlphanum = false) :
    varies c = false := by
  rw [Char.isAlphanum, Bool.or_eq_false_iff] at hc
  rw [varies_eq, hc.1, Bool.or_false, decide_eq_false_iff_not]
  exact Nat.not_le.mpr hascii

/-- At a piece without quantifiers the split stops, or goes over it as one
character, or gives up the character before it, which it does at a brace only. -/
theorem splitRegex_piece (anyCase : Bool) (fixed before back more : List Char)
    (h : p.IsGrammatical) (hcore : ∀ a q lo hi, p ≠ .times a q lo hi) :
    splitRegex anyCase fixed before back (p.written ++ more) =
        (fixed.reverse, p.written ++ more) ∨
      (∃ c, Shows anyCase p c ∧ splitRegex anyCase fixed before back (p.written ++ more) =
        splitRegex anyCase (c :: fixed) fixed (c :: more) more) ∨
      '\\' ∈ p.written ∧
        splitRegex anyCase fixed before back (p.written ++ more) = (before.reverse, back) := by
  cases p with
  | literal c =>
      -- A literal that differs in case is not gone over where case does not count.
      cases hvaries : anyCase && varies c with
      | true => exact .inl ((splitRegex_literal h).trans (if_pos hvaries))
      | false =>
          refine .inr (.inl ⟨c, ⟨.inl rfl, hvaries⟩, (splitRegex_literal h).trans (if_neg ?_)⟩)
          rw [hvaries]
          exact Bool.false_ne_true
  | escaped c =>
      obtain ⟨hascii, halnum, -, -⟩ := h
      by_cases hbrace : c = '{'
      · exact .inr (.inr ⟨List.mem_cons_self, splitRegex_escaped.trans (if_pos hbrace)⟩)
      · by_cases hopen : c = '('
        · exact .inl (splitRegex_escaped.trans ((if_neg hbrace).trans (if_pos (.inr hopen))))
        · refine .inr (.inl ⟨c, ⟨.inr (.inl rfl), ?_⟩,
            splitRegex_escaped.trans ((if_neg hbrace).trans (if_neg ?_))⟩)
          · rw [not_varies_of_ascii hascii halnum, Bool.and_false]
          · rw [halnum, or_iff_right Bool.false_ne_true]
            exact hopen
  | start | stop => exact .inl (splitRegex_stop (by decide))
  | group opening body =>
      obtain ⟨rfl | rfl, -⟩ := h <;> exact .inl (splitRegex_stop (by decide))
  | times a q lo hi => exact absurd rfl (hcore a q lo hi)
  | other cs leads =>
      cases (show BeginsOther cs from h) with
      | dot | bracket | flags => exact .inl (splitRegex_stop (by decide))
      | escape hc cs =>
          refine .inl (splitRegex_escaped.trans ?_)
          rw [if_neg (fun hbrace => ?_), if_pos (.inl hc)]
          · rfl
          · rw [hbrace] at hc
            cases hc
      | boundary hc =>
          obtain rfl | rfl := hc
          all_goals exact .inr (.inl ⟨_, ⟨.inr (.inr ⟨leads, rfl⟩), Bool.and_false _⟩,
            splitRegex_escaped⟩)

/-! ## Pieces of the split -/

/-- The characters are reported for the pieces at the front.  The last of them
may have quantifiers behind it. -/
inductive Reports (anyCase : Bool) : List Piece → List Char → Prop
  | none {ps : List Piece} : Reports anyCase ps []
  | last {p : Piece} {ps : List Piece} {c : Char} (h : Shows anyCase p.core c) :
      Reports anyCase (p :: ps) [c]
  | next {p : Piece} {ps : List Piece} {c : Char} {out : List Char} (h : Shows anyCase p c)
      (hps : Reports anyCase ps out) : Reports anyCase (p :: ps) (c :: out)

theorem Reports.append (hdone : List.Forall₂ (Shows anyCase) done rest)
    (h : Reports anyCase ps out) : Reports anyCase (done ++ ps) (rest ++ out) := by
  induction hdone with
  | nil => exact h
  | cons hp _ ih => exact .next hp ih

/-- Fewer characters are reported as well. -/
theorem Reports.of_isPrefix (h : Reports anyCase ps out) (hshort : rest <+: out) :
    Reports anyCase ps rest := by
  induction h generalizing rest with
  | none =>
      rw [List.prefix_nil.mp hshort]
      exact .none
  | last hp =>
      rcases List.prefix_cons_iff.mp hshort with rfl | ⟨rest, rfl, hrest⟩
      · exact .none
      · rw [List.prefix_nil.mp hrest]
        exact .last hp
  | next hp _ ih =>
      rcases List.prefix_cons_iff.mp hshort with rfl | ⟨rest, rfl, hrest⟩
      · exact .none
      · exact .next hp (ih hrest)

/-- What a split reports of some pieces and leaves of them, with something
behind them. -/
inductive Splits (anyCase : Bool) (ps : List Piece) (tail : List Char) :
    List Char → List Char → Prop
  /-- All pieces up to a place are reported. -/
  | ends {front back : List Piece} {out : List Char} (hps : ps = front ++ back)
      (hfront : List.Forall₂ (Shows anyCase) front out) :
      Splits anyCase ps tail out (writtenAll back ++ tail)
  /-- A quantifier, or what looks like one, follows what is reported. -/
  | quantified {out rest : List Char} {c : Char} (hout : Reports anyCase ps out)
      (hc : c ∈ '\\' :: quantifiers) (hrest : c ∈ rest) : Splits anyCase ps tail out rest

theorem Splits.reports (h : Splits anyCase ps tail out rest) : Reports anyCase ps out := by
  cases h with
  | ends hps hfront =>
      rw [hps, ← List.append_nil out]
      exact .append hfront .none
  | quantified hout => exact hout

/-- On its way the split has gone over some pieces, keeps what is reported of
them, and behind it the same without the last one and where that one begins. -/
theorem splits_splitRegex (done : List Piece) (hps : AreGrammatical ps)
    (htail : ∀ c ∈ tail.head?, c = ')')
    (hdone : List.Forall₂ (Shows anyCase) done fixed.reverse)
    (hbefore : before.reverse = fixed.reverse.dropLast) (hback : writtenAll ps ++ tail <:+ back) :
    Splits anyCase (done ++ ps) tail
      (splitRegex anyCase fixed before back (writtenAll ps ++ tail)).1
      (splitRegex anyCase fixed before back (writtenAll ps ++ tail)).2 := by
  induction ps generalizing done fixed before back with
  | nil =>
      have hsplit : splitRegex anyCase fixed before back tail = (fixed.reverse, tail) := by
        cases tail with
        | nil => rw [splitRegex]
        | cons c tail =>
            obtain rfl := htail c rfl
            exact splitRegex_stop (by decide)
      rw [writtenAll, List.nil_append, hsplit]
      exact .ends rfl hdone
  | cons p ps ih =>
      obtain ⟨behind, hwritten, hbehind⟩ := Piece.exists_written hps.1
      have hall : writtenAll (p :: ps) ++ tail =
          p.core.written ++ (behind ++ (writtenAll ps ++ tail)) := by
        rw [writtenAll, hwritten, List.append_assoc, List.append_assoc]
      obtain hstop | ⟨c, hshows, hnext⟩ | ⟨hmem, hdrop⟩ :=
        splitRegex_piece anyCase fixed before back (behind ++ (writtenAll ps ++ tail))
          (Piece.isGrammatical_core hps.1) (Piece.core_ne_times p)
      · -- The split ends here, and what it has gone over is reported.
        rw [hall, hstop, ← hall]
        exact .ends rfl hdone
      · have hdone' : List.Forall₂ (Shows anyCase) (done ++ [p.core]) (c :: fixed).reverse := by
          rw [List.reverse_cons]
          exact List.rel_append hdone (.cons hshows .nil)
        rw [hall, hnext]
        -- A quantifier behind the piece ends the split, and keeps its character or not.
        obtain ⟨rfl, hcore⟩ | ⟨q, hq, after, rfl⟩ := hbehind
        · have hlast : fixed.reverse = (c :: fixed).reverse.dropLast := by
            rw [List.reverse_cons, List.dropLast_concat]
          have hsplits := ih _ hps.2 hdone' hlast (List.suffix_cons c _)
          rw [hcore, List.append_assoc] at hsplits
          exact hsplits
        · rw [List.cons_append, splitRegex_quantifier hq]
          have hreports : Reports anyCase (done ++ p :: ps) (c :: fixed).reverse := by
            rw [List.reverse_cons]
            exact .append hdone (.last hshows)
          refine .quantified (hreports.of_isPrefix ?_) (List.mem_cons_of_mem _ hq)
            (List.mem_cons_of_mem c List.mem_cons_self)
          split
          · exact List.prefix_rfl
          · rw [List.reverse_cons]
            exact List.prefix_append _ _
      · -- An escaped brace is taken for a quantifier, and the split goes back a character.
        rw [hall, hdrop]
        have hreports : Reports anyCase (done ++ p :: ps) fixed.reverse := by
          rw [← List.append_nil fixed.reverse]
          exact .append hdone .none
        refine .quantified (hreports.of_isPrefix ?_) List.mem_cons_self (hback.mem ?_)
        · rw [hbefore]
          exact List.dropLast_prefix _
        · rw [hall]
          exact List.mem_append_left _ hmem

/-! ## Leading groups -/

/-- The expression behind the anchor, without the parenthesis of a leading
group. -/
def frontOf (anchored : List Char) : List Char := (groupBody? anchored).getD anchored

/-- The split of an expression behind its anchor. -/
def splitFront (anyCase : Bool) (anchored : List Char) : List Char × List Char :=
  splitRegex anyCase [] [] (frontOf anchored) (frontOf anchored)

theorem groupBody?_of_ne (hc : c ≠ '(') : groupBody? (c :: rest) = none := by
  rw [groupBody?.eq_def]
  split
  · rename_i h
    exact absurd (List.cons.inj h).1 hc
  · rfl
  · rename_i h
    exact absurd (List.cons.inj h).1 hc
  · rfl

theorem groupBody?_parenthesis (h : rest.head? ≠ some '?') :
    groupBody? ('(' :: rest) = some rest := by
  cases rest with
  | nil => rfl
  | cons d rest =>
      rw [groupBody?]
      all_goals
        rintro _ ⟨⟩
        exact h rfl

/-- The group of some pieces with quantifiers and more pieces behind it. -/
structure Leads (ps body rest : List Piece) (behind : List Char) : Prop where
  piece : ∃ p opening, ps = p :: rest ∧ p.core = .group opening body ∧
    p.written = p.core.written ++ behind ∧
    (behind = [] ∧ p.core = p ∨ ∃ q ∈ quantifiers, ∃ more, behind = q :: more)
  groupBody? : groupBody? (writtenAll ps) =
    some (writtenAll body ++ ')' :: (behind ++ writtenAll rest))

/-- Behind the anchor stands a group, or the split reads all pieces there. -/
theorem leads_or_front_eq (hps : AreGrammatical ps) :
    (∃ body rest behind, Leads ps body rest behind) ∨
      groupBody? (writtenAll ps) = none ∧ Piece.front ps = ps := by
  cases ps with
  | nil => exact .inr ⟨rfl, rfl⟩
  | cons p ps =>
      obtain ⟨behind, hwritten, hbehind⟩ := Piece.exists_written hps.1
      have hcore := Piece.isGrammatical_core hps.1
      have hall : writtenAll (p :: ps) = p.core.written ++ (behind ++ writtenAll ps) := by
        rw [writtenAll, hwritten, List.append_assoc]
      cases hp : p.core with
      | group opening body =>
          rw [hp] at hcore
          refine .inl ⟨body, ps, behind, ⟨p, opening, rfl, hp, hwritten, hbehind⟩, ?_⟩
          have hbody : writtenAll (p :: ps) =
              opening ++ (writtenAll body ++ ')' :: (behind ++ writtenAll ps)) := by
            rw [hall, hp, written]
            simp only [List.append_assoc, List.cons_append, List.nil_append]
          obtain ⟨rfl | rfl, hbodies⟩ := hcore
          · rw [hbody]
            -- No piece begins with a question mark, so the parenthesis is a plain one.
            refine groupBody?_parenthesis ?_
            cases body with
            | nil => simp [writtenAll]
            | cons b body =>
                obtain ⟨c, cs, hb, -, hc⟩ := Piece.exists_written_cons hbodies.1
                rw [writtenAll, hb]
                rintro ⟨⟩
                exact hc (by decide)
          · rw [hbody]
            rfl
      | times a q lo hi => exact absurd hp (Piece.core_ne_times p a q lo hi)
      | literal c =>
          rw [hp] at hcore
          have hc : c ≠ '(' := fun h => hcore (h ▸ by decide)
          refine .inr ⟨?_, by rw [Piece.front, hp]⟩
          rw [hall, hp]
          exact groupBody?_of_ne hc
      | escaped | start | stop =>
          refine .inr ⟨?_, by rw [Piece.front, hp]⟩
          rw [hall, hp]
          exact groupBody?_of_ne (by decide)
      | other cs leads =>
          rw [hp] at hcore
          refine .inr ⟨?_, by rw [Piece.front, hp]⟩
          rw [hall, hp]
          cases (show BeginsOther cs from hcore) with
          | flags hc cs =>
              rw [written, List.cons_append, List.cons_append, List.cons_append, groupBody?]
              rintro _ ⟨⟩
              exact hc rfl
          | dot | bracket | escape | boundary => exact groupBody?_of_ne (by decide)

theorem Leads.front_eq {body : List Piece} {behind : List Char} (h : Leads ps body items behind) :
    Piece.front ps = body := by
  obtain ⟨p, opening, rfl, hp, -⟩ := h.piece
  rw [Piece.front, hp]

theorem Leads.splits {body : List Piece} {behind : List Char} (hbody : AreGrammatical body)
    (h : Leads ps body items behind) :
    Splits anyCase body (')' :: (behind ++ writtenAll items))
      (splitFront anyCase (writtenAll ps)).1 (splitFront anyCase (writtenAll ps)).2 := by
  rw [splitFront, frontOf, h.groupBody?]
  refine splits_splitRegex [] hbody ?_ .nil rfl List.suffix_rfl
  rintro c ⟨⟩
  rfl

theorem splits_of_groupBody? (hps : AreGrammatical ps)
    (h : groupBody? (writtenAll ps) = none) :
    Splits anyCase ps [] (splitFront anyCase (writtenAll ps)).1
      (splitFront anyCase (writtenAll ps)).2 := by
  rw [splitFront, frontOf, h, Option.getD_none, ← List.append_nil (writtenAll ps)]
  exact splits_splitRegex [] hps nofun .nil rfl List.suffix_rfl

end FixedPrefix

end QueryPlanner
