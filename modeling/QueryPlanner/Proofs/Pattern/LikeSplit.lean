/-
  QueryPlanner.Proofs.Pattern.LikeSplit

  Splitting a LIKE pattern loses nothing.

  The estimate of a LIKE condition is that of the prefix times that of the
  rest, or that of an equation where the pattern is its prefix.  The split
  justifies the product: what the pattern matches is the prefix, followed by
  what the rest matches as a pattern of its own.  It justifies the equation
  unless the pattern breaks off inside an escape, for matching takes the last
  backslash for itself and the split leaves it out.
-/

import QueryPlanner.Pattern.Regex.Engine
import QueryPlanner.Proofs.Pattern.LikeRange

namespace QueryPlanner

namespace Datum

variable {α : Type} {value front back : Datum α} {frontBytes backBytes : List UInt8}

/-- The bytes of a value are those of two others, one behind the other. -/
def IsJoined (value front back : Datum α) : Prop :=
  ∃ frontBytes backBytes, front.bytes? = some frontBytes ∧ back.bytes? = some backBytes ∧
    value.bytes? = some (frontBytes ++ backBytes)

theorem AreStrings.symm (h : front.AreStrings back) : back.AreStrings front := by
  cases front <;> cases back <;> exact h

theorem AreStrings.trans (h : value.AreStrings front) (h' : front.AreStrings back) :
    value.AreStrings back := by
  cases value <;> cases front <;> cases h <;> cases back <;> exact h'

theorem AreStrings.exists_bytes (h : value.AreStrings front) :
    ∃ bytes, value.bytes? = some bytes := by
  cases value <;> cases front <;> cases h <;> exact ⟨_, rfl⟩

/-- The bytes behind a front part are those of a value of the same type: they
start with a character if the front part is a text. -/
theorem AreStrings.exists_back (h : value.AreStrings front)
    (hfront : front.bytes? = some frontBytes)
    (hvalue : value.bytes? = some (frontBytes ++ backBytes)) :
    ∃ back : Datum α, back.AreStrings value ∧ back.bytes? = some backBytes := by
  cases value <;> cases front <;> cases h <;> cases hfront
  case text.text s t =>
    have hbytes : utf8 s = utf8 t ++ backBytes := Option.some.inj hvalue
    rw [Utf8.utf8_eq_encoded, Utf8.utf8_eq_encoded] at hbytes
    obtain ⟨cs, -, rfl⟩ := Utf8.exists_encoded_of_append hbytes
    refine ⟨.text (String.ofList cs), trivial, ?_⟩
    rw [bytes?, Utf8.utf8_eq_encoded, String.toList_ofList]
  case bytea.bytea => exact ⟨.bytea backBytes, trivial, rfl⟩

end Datum

namespace FixedPrefix

variable {α : Type} {kind : PatternType} {value pattern fixed : Datum α} {split : FixedPrefix α}
  {text bytes : List UInt8}

/-! ## The parts of a pattern -/

theorem statusOf_eq_whole_iff {σ : Type} {front rest : List σ} :
    statusOf front rest = .whole ↔ rest = [] := by
  rw [statusOf]
  split_ifs with hrest hfront
  · exact iff_of_true rfl (List.isEmpty_iff.mp hrest)
  · exact iff_of_false nofun fun h => hrest (List.isEmpty_iff.mpr h)
  · exact iff_of_false nofun fun h => hrest (List.isEmpty_iff.mpr h)

/-- A LIKE pattern of some bytes and the parts it is split into: values of its
own type with the bytes that the split of its bytes leaves. -/
structure Parts (kind : PatternType) (pattern : Datum α) (split : FixedPrefix α)
    (fixed : Datum α) (bytes : List UInt8) : Prop where
  bytes_eq : pattern.bytes? = some bytes
  fixed_eq : split.fixed = some fixed
  fixed_kind : fixed.AreStrings pattern
  fixed_bytes : fixed.bytes? = some (splitLike kind.anyCase bytes).1
  rest_kind : split.rest.AreStrings pattern
  rest_bytes : split.rest.bytes? = some (splitLike kind.anyCase bytes).2
  whole_iff : split.status = .whole ↔ (splitLike kind.anyCase bytes).2 = []

/-- A text is split by its characters where its bytes are. -/
theorem parts_text (anyCase : Bool) (s : String) :
    utf8 (String.ofList (splitLike anyCase s.toList).1) = (splitLike anyCase (utf8 s)).1 ∧
    utf8 (String.ofList (splitLike anyCase s.toList).2) = (splitLike anyCase (utf8 s)).2 := by
  simp only [Utf8.utf8_eq_encoded, String.toList_ofList, splitLike_encoded, and_self]

/-- Every LIKE pattern that is split has such parts. -/
theorem exists_parts (hkind : kind.IsLike) (hsplit : ofPattern kind pattern = .ok split) :
    ∃ fixed bytes, Parts kind pattern split fixed bytes := by
  have hlike : ofLike kind.anyCase pattern = .ok split := by
    obtain rfl | rfl := hkind <;> exact hsplit
  cases pattern with
  | text s =>
      cases hlike
      obtain ⟨hfixed, hrest⟩ := parts_text kind.anyCase s
      refine ⟨_, utf8 s, rfl, rfl, trivial, congrArg some hfixed, trivial, congrArg some hrest, ?_⟩
      rw [statusOf_eq_whole_iff, Utf8.utf8_eq_encoded, splitLike_encoded, Utf8.encoded_eq_nil_iff]
  | bytea b =>
      rw [ofLike] at hlike
      split_ifs at hlike
      cases hlike
      exact ⟨_, b, rfl, rfl, trivial, rfl, trivial, rfl, statusOf_eq_whole_iff⟩
  | _ => cases hlike

/-! ## What a split pattern matches -/

section Matching

variable [Number α] {engine : RegexEngine}

theorem holds_eq_isMatch (hkind : kind.IsLike) (hvalue : value.bytes? = some text)
    (hpattern : pattern.bytes? = some bytes) :
    (Procedure.pattern engine kind false).holds value pattern =
      Like.isMatch (text.map kind.fold) (bytes.map kind.fold) := by
  rw [Procedure.holds, hvalue, hpattern]
  dsimp only
  rw [PatternType.patternMatch_of_isLike hkind]
  exact Bool.bne_false _

/-- **Splitting a LIKE pattern loses nothing.**  Where the prefix is not the
whole pattern, a value is matched exactly if it is the prefix and behind it
something that the rest matches. -/
theorem likeMatch_iff_split (hkind : kind.IsLike) (hstrings : value.AreStrings pattern)
    (hsplit : ofPattern kind pattern = .ok split)
    (hstatus : split.status = .front ∨ split.status = .absent) :
    ∃ fixed, split.fixed = some fixed ∧ fixed.AreStrings pattern ∧
      split.rest.AreStrings pattern ∧
      ((Procedure.pattern engine kind false).holds value pattern = true ↔
        ∃ back : Datum α, back.AreStrings pattern ∧ value.IsJoined fixed back ∧
          (Procedure.pattern engine kind false).holds back split.rest = true) := by
  obtain ⟨fixed, bytes, hparts⟩ := exists_parts hkind hsplit
  obtain ⟨text, htext⟩ := hstrings.exists_bytes
  -- Only a pattern that is its prefix leaves no rest.
  have hrest : (splitLike kind.anyCase bytes).2 ≠ [] := by
    intro hnil
    rw [hparts.whole_iff.mpr hnil] at hstatus
    obtain h | h := hstatus <;> cases h
  refine ⟨fixed, hparts.fixed_eq, hparts.fixed_kind, hparts.rest_kind, ?_⟩
  rw [holds_eq_isMatch hkind htext hparts.bytes_eq,
    isMatch_map_iff_of_rest (PatternType.ignores_fold kind) hrest]
  constructor
  · rintro ⟨backBytes, rfl, hmatch⟩
    have hsame : value.AreStrings fixed := hstrings.trans hparts.fixed_kind.symm
    obtain ⟨back, hback, hbytes⟩ := hsame.exists_back hparts.fixed_bytes htext
    refine ⟨back, hback.trans hstrings, ⟨_, _, hparts.fixed_bytes, hbytes, htext⟩, ?_⟩
    rwa [holds_eq_isMatch hkind hbytes hparts.rest_bytes]
  · rintro ⟨back, -, ⟨frontBytes, backBytes, hfront, hback, hvalue⟩, hmatch⟩
    rw [holds_eq_isMatch hkind hback hparts.rest_bytes] at hmatch
    rw [hparts.fixed_bytes] at hfront
    rw [htext] at hvalue
    cases hfront
    cases hvalue
    exact ⟨backBytes, rfl, hmatch⟩

/-- The split falls into an escape here: `o` may match in either case, so it is
left to the rest, without its backslash. -/
theorem likeMatch_iff_split_discount :
    ∃ split : FixedPrefix Float, PatternType.likeAnyCase.IsLike ∧
      (Datum.text "10% OFF" : Datum Float).AreStrings (.text "10\\% \\o_%") ∧
      ofPattern .likeAnyCase (.text "10\\% \\o_%" : Datum Float) = .ok split ∧
      split.status = .front ∧ split.fixed = some (.text "10% ") ∧ split.rest = .text "o_%" ∧
      (Procedure.pattern Regex.engine .likeAnyCase false).holds (.text "10% OFF" : Datum Float)
        (.text "10\\% \\o_%") = true ∧
      ∃ back : Datum Float, (Datum.text "10% OFF").IsJoined (.text "10% ") back ∧
        (Procedure.pattern Regex.engine .likeAnyCase false).holds back (.text "o_%") = true := by
  have hkind : PatternType.likeAnyCase.IsLike := .inr rfl
  have hstrings : (Datum.text "10% OFF" : Datum Float).AreStrings (.text "10\\% \\o_%") :=
    trivial
  have hparts : splitLike true "10\\% \\o_%".toList = ("10% ".toList, "o_%".toList) := by
    decide +kernel
  have hsplit : ofPattern .likeAnyCase (.text "10\\% \\o_%" : Datum Float) =
      .ok ⟨.front, some (.text "10% "), .text "o_%"⟩ := by
    rw [ofPattern, PatternType.anyCase, ofLike, hparts]
    dsimp only
    rw [String.ofList_toList, String.ofList_toList]
    rfl
  have hmatch : (Procedure.pattern Regex.engine .likeAnyCase false).holds
      (.text "10% OFF" : Datum Float)
      (.text "10\\% \\o_%") = true := by decide +kernel
  obtain ⟨fixed, hfixed, -, -, hiff⟩ := likeMatch_iff_split hkind hstrings hsplit (.inl rfl)
  obtain ⟨back, -, hjoined, hback⟩ := hiff.mp hmatch
  cases hfixed
  exact ⟨_, hkind, hstrings, hsplit, rfl, rfl, rfl, hmatch, back, hjoined, hback⟩

/-- A pattern that is its prefix matches the bytes of the prefix and nothing
else, where no escape is cut short at its end. -/
theorem likeMatch_iff_whole (hkind : kind.IsLike) (hstrings : value.AreStrings pattern)
    (hsplit : ofPattern kind pattern = .ok split) (hstatus : split.status = .whole) :
    ∃ fixed fixedBytes bytes, split.fixed = some fixed ∧ fixed.AreStrings pattern ∧
      fixed.bytes? = some fixedBytes ∧ pattern.bytes? = some bytes ∧
      ((Procedure.pattern engine kind false).holds value pattern = true ↔
        value.bytes? = some (fixedBytes ++ danglingEscape bytes)) := by
  obtain ⟨fixed, bytes, hparts⟩ := exists_parts hkind hsplit
  obtain ⟨text, htext⟩ := hstrings.exists_bytes
  refine ⟨fixed, _, bytes, hparts.fixed_eq, hparts.fixed_kind, hparts.fixed_bytes,
    hparts.bytes_eq, ?_⟩
  rw [holds_eq_isMatch hkind htext hparts.bytes_eq, htext, Option.some.injEq,
    isMatch_map_iff_of_whole (PatternType.ignores_fold kind) (hparts.whole_iff.mp hstatus)]

theorem ofPattern_cutShort :
    ofPattern .like (.text "abc\\" : Datum Float) = .ok ⟨.whole, some (.text "abc"), .text ""⟩ := by
  have hparts : splitLike false "abc\\".toList = ("abc".toList, "".toList) := by decide +kernel
  rw [ofPattern, PatternType.anyCase, ofLike, hparts]
  dsimp only
  rw [String.ofList_toList, String.ofList_toList]
  rfl

/-- A pattern that breaks off inside an escape matches its prefix and a
backslash. -/
theorem likeMatch_iff_whole_cutShort :
    PatternType.like.IsLike ∧
      (Datum.text "abc\\" : Datum Float).AreStrings (.text "abc\\") ∧
      ∃ split : FixedPrefix Float, ofPattern .like (.text "abc\\" : Datum Float) = .ok split ∧
        split.status = .whole ∧ split.fixed = some (.text "abc") ∧
        (Procedure.pattern Regex.engine .like false).holds (.text "abc\\" : Datum Float)
          (.text "abc\\") = true := by
  have hkind : PatternType.like.IsLike := .inl rfl
  have hstrings : (Datum.text "abc\\" : Datum Float).AreStrings (.text "abc\\") := trivial
  obtain ⟨fixed, fixedBytes, bytes, hfixed, -, hfixedBytes, hbytes, hiff⟩ :=
    likeMatch_iff_whole hkind hstrings ofPattern_cutShort rfl
  cases hfixed
  cases hfixedBytes
  cases hbytes
  exact ⟨hkind, hstrings, _, ofPattern_cutShort, rfl, rfl, hiff.mpr rfl⟩

/-- The prefix itself is no match then. -/
theorem whole_misses_cutShort :
    ∃ split : FixedPrefix Float, ofPattern .like (.text "abc\\" : Datum Float) = .ok split ∧
      split.status = .whole ∧ split.fixed = some (.text "abc") ∧
      (Procedure.pattern Regex.engine .like false).holds (.text "abc" : Datum Float)
        (.text "abc\\") = false ∧
      (Procedure.pattern Regex.engine .like false).holds (.text "abc\\" : Datum Float)
        (.text "abc\\") = true :=
  ⟨_, ofPattern_cutShort, rfl, rfl, by decide +kernel, by decide +kernel⟩

end Matching

end FixedPrefix

end QueryPlanner
