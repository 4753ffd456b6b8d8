/-
  QueryPlanner.Proofs.Pattern.LikeRange

  The range of a LIKE pattern covers every match.

  The estimate of a LIKE condition counts the values from the literal prefix
  of the pattern up to the successor of that prefix.  It misses no match: a
  value that is matched starts with the prefix, so it is not below it, and it
  is below the successor.
-/

import QueryPlanner.Operator
import QueryPlanner.Pattern.Regex.Engine
import QueryPlanner.Proofs.Pattern.Like
import QueryPlanner.Proofs.Pattern.Successor

namespace QueryPlanner

namespace PatternType

/-- The kind is one of LIKE. -/
def IsLike (kind : PatternType) : Prop := kind = .like ∨ kind = .likeAnyCase

variable {kind : PatternType} {engine : RegexEngine}

/-- What is done to every byte before a LIKE pattern is compared. -/
def fold (kind : PatternType) : UInt8 → UInt8 := if kind.anyCase then Like.lower else id

theorem patternMatch_of_isLike (hkind : kind.IsLike) (text bytes : List UInt8) :
    patternMatch engine kind text bytes =
      some (Like.isMatch (text.map kind.fold) (bytes.map kind.fold)) := by
  obtain rfl | rfl := hkind
  · have hfold : like.fold = id := rfl
    rw [hfold, List.map_id, List.map_id]
    rfl
  · rfl

theorem ignores_fold (kind : PatternType) : FixedPrefix.Ignores kind.anyCase kind.fold := by
  unfold fold
  cases kind.anyCase with
  | false => exact FixedPrefix.ignores_id
  | true => exact FixedPrefix.ignores_lower

end PatternType

namespace Datum

variable {α : Type}

/-- Two values that are both texts, or both byte strings. -/
def AreStrings : Datum α → Datum α → Prop
  | .text _, .text _ | .bytea _, .bytea _ => True
  | _, _ => False

end Datum

namespace FixedPrefix

variable {α : Type} {engine : RegexEngine} {kind : PatternType} {value pattern : Datum α}
  {split : FixedPrefix α} {text bytes : List UInt8}

/-! ## The prefix of a match -/

/-- A match by either kind of LIKE starts with what the pattern fixes. -/
theorem prefix_of_patternMatch (hkind : kind.IsLike)
    (h : patternMatch engine kind text bytes = some true) :
    (splitLike kind.anyCase bytes).1 <+: text := by
  rw [PatternType.patternMatch_of_isLike hkind] at h
  exact prefix_of_isMatch (PatternType.ignores_fold kind) (Option.some.inj h)

/-- A LIKE pattern always has a prefix, of its own type. -/
theorem ofPattern_text (hkind : kind.IsLike) {s : String}
    (h : ofPattern kind (.text s : Datum α) = .ok split) :
    split.fixed = some (.text (String.ofList (splitLike kind.anyCase s.toList).1)) := by
  obtain rfl | rfl := hkind <;> (cases h; rfl)

theorem ofPattern_bytea (hkind : kind.IsLike) {b : List UInt8}
    (h : ofPattern kind (.bytea b : Datum α) = .ok split) :
    split.fixed = some (.bytea (splitLike kind.anyCase b).1) := by
  obtain rfl | rfl := hkind <;> cases h
  rfl

/-! ## The range -/

section Range

variable [Number α]

/-- A value lies in the range of a prefix: it starts with it, is not below it,
and is below what follows it. -/
structure InRange (fixed value : Datum α) : Prop where
  startsWith : ∃ fixedBytes valueBytes, fixed.bytes? = some fixedBytes ∧
    value.bytes? = some valueBytes ∧ fixedBytes <+: valueBytes
  notBelow : ∃ o, value.compare? fixed = some o ∧ o ≠ .lt
  belowSuccessor : ∀ next, Successor.ofDatum fixed = some next →
    value.compare? next = some .lt

theorem patternMatch_of_holds
    (h : (Procedure.pattern engine kind false).holds value pattern = true) :
    ∃ text bytes, value.bytes? = some text ∧ pattern.bytes? = some bytes ∧
      patternMatch engine kind text bytes = some true := by
  rw [Procedure.holds] at h
  split at h
  next text bytes htext hbytes =>
    refine ⟨text, bytes, htext, hbytes, ?_⟩
    split at h
    next matched hmatched =>
      rw [hmatched]
      cases matched
      · cases h
      · rfl
    next => cases h
  next => cases h

theorem inRange_text {s t : String} (h : utf8 s <+: utf8 t) :
    InRange (.text s) (.text t : Datum α) where
  startsWith := ⟨utf8 s, utf8 t, rfl, rfl, h⟩
  notBelow := ⟨_, rfl, Successor.compare_ne_lt_of_prefix h⟩
  belowSuccessor next hnext := by
    obtain ⟨g, hg, rfl⟩ := Option.map_eq_some_iff.mp hnext
    obtain ⟨more, hmore⟩ := h
    have hexceeds := (Successor.exceeds_of_ofText hg).extend more
    rw [hmore] at hexceeds
    exact congrArg some hexceeds.compare_eq_lt

theorem inRange_bytea {b c : List UInt8} (h : b <+: c) :
    InRange (.bytea b) (.bytea c : Datum α) where
  startsWith := ⟨b, c, rfl, rfl, h⟩
  notBelow := ⟨_, rfl, Successor.compare_ne_lt_of_prefix h⟩
  belowSuccessor next hnext := by
    obtain ⟨g, hg, rfl⟩ := Option.map_eq_some_iff.mp hnext
    obtain ⟨more, rfl⟩ := h
    exact congrArg some ((Successor.exceeds_of_ofBytes hg).extend more).compare_eq_lt

/-- Every value that a LIKE pattern matches lies in the range of the prefix of
the pattern. -/
theorem inRange_of_likeMatch (hkind : kind.IsLike) (hstrings : value.AreStrings pattern)
    (hsplit : ofPattern kind pattern = .ok split)
    (hmatch : (Procedure.pattern engine kind false).holds value pattern = true) :
    ∃ fixed, split.fixed = some fixed ∧ InRange fixed value := by
  obtain ⟨text, bytes, htext, hbytes, hmatched⟩ := patternMatch_of_holds hmatch
  have hprefix := prefix_of_patternMatch hkind hmatched
  cases value <;> cases pattern <;> cases hstrings <;> cases htext <;> cases hbytes
  case text.text t s =>
    refine ⟨_, ofPattern_text hkind hsplit, inRange_text ?_⟩
    rw [Utf8.utf8_eq_encoded s, splitLike_encoded] at hprefix
    rwa [Utf8.utf8_eq_encoded (String.ofList _), String.toList_ofList]
  case bytea.bytea =>
    exact ⟨_, ofPattern_bytea hkind hsplit, inRange_bytea hprefix⟩

/-- An escaped wildcard belongs to the prefix, a letter that may match in
either case does not. -/
theorem inRange_of_likeMatch_discount :
    PatternType.likeAnyCase.IsLike ∧
    (Datum.text "10% OFF today" : Datum Float).AreStrings (.text "10\\% o__%") ∧
    (∃ split, ofPattern .likeAnyCase (.text "10\\% o__%" : Datum Float) = .ok split ∧
      ∃ fixed, split.fixed = some fixed ∧ fixed = .text "10% " ∧
        InRange fixed (.text "10% OFF today")) ∧
    (Procedure.pattern Regex.engine .likeAnyCase false).holds (.text "10% OFF today" : Datum Float)
      (.text "10\\% o__%") = true := by
  have hkind : PatternType.likeAnyCase.IsLike := .inr rfl
  have hstrings : (Datum.text "10% OFF today" : Datum Float).AreStrings (.text "10\\% o__%") :=
    trivial
  have hmatch : (Procedure.pattern Regex.engine .likeAnyCase false).holds
      (.text "10% OFF today" : Datum Float)
      (.text "10\\% o__%") = true := by decide +kernel
  have hfixed : (splitLike true "10\\% o__%".toList).1 = "10% ".toList := by decide +kernel
  obtain ⟨fixed, hsplit, hrange⟩ := inRange_of_likeMatch hkind hstrings rfl hmatch
  refine ⟨hkind, hstrings, ⟨_, rfl, fixed, hsplit, ?_, hrange⟩, hmatch⟩
  rw [← Option.some.inj hsplit, PatternType.anyCase, hfixed, String.ofList_toList]

end Range

end FixedPrefix

end QueryPlanner
