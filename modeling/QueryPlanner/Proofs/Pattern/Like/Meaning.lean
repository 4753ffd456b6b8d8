/-
  QueryPlanner.Proofs.Pattern.Like.Meaning

  What a LIKE pattern means, and that matching decides it.

  `Matches` reads a pattern byte by byte and says which texts each part may
  stand for.  Matching tries the place of one `%` at a time and never goes back
  to an earlier one.  It misses nothing: whatever an earlier `%` could still
  reach further on, the later one reaches as well.
-/

import Mathlib.Data.List.Basic
import QueryPlanner.Pattern.Like

namespace QueryPlanner.Like

/-! ## The meaning of a pattern -/

/-- The whole text is what the whole pattern asks for: any bytes for `%`, any
single byte for `_`, the byte behind a backslash for an escape, a backslash for
one at the very end, and every other byte for itself. -/
inductive Matches : (pattern text : List UInt8) → Prop where
  | nil : Matches [] []
  | anyRun (run : List UInt8) {pattern text : List UInt8} (h : Matches pattern text) :
      Matches (percent :: pattern) (run ++ text)
  | anyByte (b : UInt8) {pattern text : List UInt8} (h : Matches pattern text) :
      Matches (underscore :: pattern) (b :: text)
  | escaped (b : UInt8) {pattern text : List UInt8} (h : Matches pattern text) :
      Matches (backslash :: b :: pattern) (b :: text)
  | danglingEscape : Matches [backslash] [backslash]
  | literal {b : UInt8} {pattern text : List UInt8} (hpercent : b ≠ percent)
      (hunderscore : b ≠ underscore) (hbackslash : b ≠ backslash) (h : Matches pattern text) :
      Matches (b :: pattern) (b :: text)

/-- The same of tokens. -/
inductive Takes : (ts : List Token) → (text : List UInt8) → Prop where
  | nil : Takes [] []
  | anyRun (run : List UInt8) {ts : List Token} {text : List UInt8} (h : Takes ts text) :
      Takes (.anyRun :: ts) (run ++ text)
  | anyByte (b : UInt8) {ts : List Token} {text : List UInt8} (h : Takes ts text) :
      Takes (.anyByte :: ts) (b :: text)
  | byte (b : UInt8) {ts : List Token} {text : List UInt8} (h : Takes ts text) :
      Takes (.byte b :: ts) (b :: text)

variable {ts ts' after next : List Token} {pattern text text' later rest fixed : List UInt8}
  {b c : UInt8} {matched : Bool}

/-! ## Tokens one by one -/

theorem takes_nil_iff : Takes [] text ↔ text = [] := by
  constructor
  · rintro ⟨⟩
    rfl
  · rintro rfl
    exact .nil

theorem takes_anyByte_iff : Takes (.anyByte :: ts) (c :: text) ↔ Takes ts text := by
  constructor
  · rintro (_ | _ | ⟨_, h⟩ | _)
    exact h
  · exact .anyByte c

theorem takes_byte_iff : Takes (.byte b :: ts) (c :: text) ↔ b = c ∧ Takes ts text := by
  constructor
  · rintro (_ | _ | _ | ⟨_, h⟩)
    exact ⟨rfl, h⟩
  · rintro ⟨rfl, h⟩
    exact .byte b h

/-- A `%` leaves some end of the text to what is behind it. -/
theorem takes_anyRun_iff : Takes (.anyRun :: ts) text ↔ ∃ rest, rest <:+ text ∧ Takes ts rest := by
  constructor
  · rintro (_ | ⟨run, h⟩ | _ | _)
    exact ⟨_, List.suffix_append run _, h⟩
  · rintro ⟨rest, ⟨run, rfl⟩, h⟩
    exact .anyRun run h

theorem takes_anyRun_of_takes (h : Takes ts text) : Takes (.anyRun :: ts) text := .anyRun [] h

/-- A `%` takes nothing of a text, or its first byte and goes on. -/
theorem takes_anyRun_cons :
    Takes (.anyRun :: ts) (c :: text) ↔ Takes ts (c :: text) ∨ Takes (.anyRun :: ts) text := by
  simp only [takes_anyRun_iff, List.suffix_cons_iff]
  constructor
  · rintro ⟨rest, rfl | hrest, h⟩
    · exact .inl h
    · exact .inr ⟨rest, hrest, h⟩
  · rintro (h | ⟨rest, hrest, h⟩)
    · exact ⟨c :: text, .inl rfl, h⟩
    · exact ⟨rest, .inr hrest, h⟩

/-- What a `%` takes at a later place it takes here. -/
theorem Takes.of_suffix (h : Takes (.anyRun :: ts) later) (hlater : later <:+ text) :
    Takes (.anyRun :: ts) text := by
  obtain ⟨rest, hrest, h⟩ := takes_anyRun_iff.mp h
  exact takes_anyRun_iff.mpr ⟨rest, hrest.trans hlater, h⟩

/-- Only `%` does without any text. -/
theorem takes_nil_right_iff : Takes ts [] ↔ ts.all (· == .anyRun) = true := by
  induction ts with
  | nil => exact iff_of_true .nil rfl
  | cons t ts ih =>
      rw [List.all_cons, Bool.and_eq_true, ← ih]
      cases t with
      | anyRun => simp [takes_anyRun_iff]
      | anyByte | byte b => exact iff_of_false nofun nofun

/-- Bytes at the front of the tokens are bytes at the front of the text. -/
theorem takes_append_bytes :
    Takes (fixed.map .byte ++ ts) text ↔ ∃ rest, text = fixed ++ rest ∧ Takes ts rest := by
  induction fixed generalizing text with
  | nil => simp
  | cons b fixed ih =>
      cases text with
      | nil => exact iff_of_false nofun nofun
      | cons c text => simp [takes_byte_iff, ih, and_assoc, eq_comm]

/-! ## The tokens of a pattern -/

theorem tokens_percent (pattern : List UInt8) :
    tokens (percent :: pattern) = .anyRun :: tokens pattern := by
  rw [tokens.eq_def]
  rfl

theorem tokens_underscore (pattern : List UInt8) :
    tokens (underscore :: pattern) = .anyByte :: tokens pattern := by
  rw [tokens.eq_def]
  rfl

theorem tokens_escape (b : UInt8) (pattern : List UInt8) :
    tokens (backslash :: b :: pattern) = .byte b :: tokens pattern := by
  rw [tokens.eq_def]
  rfl

theorem tokens_literal (hpercent : b ≠ percent) (hunderscore : b ≠ underscore)
    (hbackslash : b ≠ backslash) (pattern : List UInt8) :
    tokens (b :: pattern) = .byte b :: tokens pattern := by
  rw [tokens.eq_def]
  dsimp only
  rw [if_neg hpercent, if_neg hunderscore, if_neg hbackslash]

theorem takes_of_matches (h : Matches pattern text) : Takes (tokens pattern) text := by
  induction h with
  | nil => exact .nil
  | anyRun run _ ih =>
      rw [tokens_percent]
      exact .anyRun run ih
  | anyByte b _ ih =>
      rw [tokens_underscore]
      exact .anyByte b ih
  | escaped b _ ih =>
      rw [tokens_escape]
      exact .byte b ih
  | danglingEscape => exact .byte backslash .nil
  | literal hpercent hunderscore hbackslash _ ih =>
      rw [tokens_literal hpercent hunderscore hbackslash]
      exact .byte _ ih

theorem matches_of_takes (h : Takes (tokens pattern) text) : Matches pattern text := by
  fun_induction tokens pattern generalizing text with
  | case1 =>
      cases h
      exact .nil
  | case2 pattern ih =>
      obtain _ | ⟨run, h⟩ := h
      exact .anyRun run (ih h)
  | case3 pattern _ ih =>
      obtain _ | _ | ⟨b, h⟩ := h
      exact .anyByte b (ih h)
  | case4 =>
      obtain _ | _ | _ | ⟨_, _ | _⟩ := h
      exact .danglingEscape
  | case5 b pattern _ _ ih =>
      obtain _ | _ | _ | ⟨_, h⟩ := h
      exact .escaped b (ih h)
  | case6 b pattern hpercent hunderscore hbackslash ih =>
      obtain _ | _ | _ | ⟨_, h⟩ := h
      exact .literal hpercent hunderscore hbackslash (ih h)

/-- A pattern means what its tokens take. -/
theorem matches_iff_takes : Matches pattern text ↔ Takes (tokens pattern) text :=
  ⟨takes_of_matches, matches_of_takes⟩

/-! ## Following the tokens -/

/-- Tokens that take one byte each lead from the front of the text to a place
in it. -/
inductive Leads : (ts : List Token) → (text : List UInt8) → List Token → List UInt8 → Prop where
  | here {ts : List Token} {text : List UInt8} : Leads ts text ts text
  | anyByte {ts ts' : List Token} {text text' : List UInt8} (c : UInt8)
      (h : Leads ts text ts' text') : Leads (.anyByte :: ts) (c :: text) ts' text'
  | byte {ts ts' : List Token} {text text' : List UInt8} (c : UInt8)
      (h : Leads ts text ts' text') : Leads (.byte c :: ts) (c :: text) ts' text'

theorem Leads.takes_iff (h : Leads ts text ts' text') : Takes ts text ↔ Takes ts' text' := by
  induction h with
  | here => exact Iff.rfl
  | anyByte c _ ih => rw [takes_anyByte_iff, ih]
  | byte c _ ih => rw [takes_byte_iff, ih, and_iff_right rfl]

theorem suffix_of_cons_suffix_cons (h : b :: rest <:+ c :: text) : rest <:+ text := by
  obtain h | h := List.suffix_cons_iff.mp h
  · obtain ⟨-, rfl⟩ := List.cons.inj h
    exact List.suffix_rfl
  · exact (List.suffix_cons b rest).trans h

/-- From a later start the same tokens lead to a later place, if they lead
anywhere. -/
theorem Leads.takes_later (h : Leads ts text ts' text') (hlater : later <:+ text)
    (htakes : Takes ts later) : ∃ rest, rest <:+ text' ∧ Takes ts' rest := by
  induction h generalizing later with
  | here => exact ⟨later, hlater, htakes⟩
  | anyByte c _ ih | byte c _ ih =>
      cases htakes
      all_goals
        rename_i htakes
        exact ih (suffix_of_cons_suffix_cons hlater) htakes

/-- A `%` in front of tokens that lead to a place no worse than any later one
need not take anything. -/
theorem Leads.takes_anyRun_iff (h : Leads ts text ts' text')
    (hbest : ∀ rest, rest <:+ text' → Takes ts' rest → Takes ts' text') :
    Takes (.anyRun :: ts) text ↔ Takes ts text := by
  refine ⟨fun htakes => ?_, takes_anyRun_of_takes⟩
  obtain ⟨later, hlater, htakes⟩ := Like.takes_anyRun_iff.mp htakes
  obtain ⟨rest, hrest, htakes⟩ := h.takes_later hlater htakes
  exact h.takes_iff.mpr (hbest rest hrest htakes)

/-! ## Matching -/

theorem follow_ended (h : follow ts text = .ended matched) :
    ∃ ts', Leads ts text ts' [] ∧ matched = ts'.all (· == .anyRun) := by
  fun_induction follow ts text with
  | case1 ts =>
      cases h
      exact ⟨ts, .here, rfl⟩
  | case2 | case3 | case6 => cases h
  | case4 ts c text ih =>
      obtain ⟨ts', hleads, hmatched⟩ := ih h
      exact ⟨ts', .anyByte c hleads, hmatched⟩
  | case5 ts c text ih =>
      obtain ⟨ts', hleads, hmatched⟩ := ih h
      exact ⟨ts', .byte c hleads, hmatched⟩

theorem follow_anyRun (h : follow ts text = .anyRun next rest) :
    Leads ts text (.anyRun :: next) rest := by
  fun_induction follow ts text with
  | case1 | case2 | case6 => cases h
  | case3 =>
      cases h
      exact .here
  | case4 ts c text ih => exact .anyByte c (ih h)
  | case5 ts c text ih => exact .byte c (ih h)

theorem follow_misfit (h : follow ts text = .misfit) : ¬ Takes ts text := by
  fun_induction follow ts text with
  | case1 | case3 => cases h
  | case2 c text =>
      intro htakes
      cases htakes
  | case4 ts c text ih =>
      rw [takes_anyByte_iff]
      exact ih h
  | case5 ts c text ih =>
      rw [takes_byte_iff]
      exact fun htakes => ih h htakes.2
  | case6 b ts c text hne =>
      rw [takes_byte_iff]
      exact fun htakes => hne htakes.1

/-- The search behind a `%` finds every match. -/
theorem search_iff : search after text = true ↔ Takes (.anyRun :: after) text := by
  fun_induction search after text with
  | case1 after text matched hfollow =>
      obtain ⟨ts', hleads, rfl⟩ := follow_ended hfollow
      -- There is no later place than the end of the text.
      rw [hleads.takes_anyRun_iff fun rest hrest htakes => List.suffix_nil.mp hrest ▸ htakes,
        hleads.takes_iff, takes_nil_right_iff]
  | case2 after text next rest hfollow ih =>
      have hleads := follow_anyRun hfollow
      -- The next `%` reaches from here what it reaches from any later place.
      rw [hleads.takes_anyRun_iff fun _ hlater htakes => htakes.of_suffix hlater,
        hleads.takes_iff, ih]
  | case3 after hfollow => cases after <;> cases hfollow
  | case4 after c text hfollow ih =>
      rw [ih, takes_anyRun_cons, or_iff_right (follow_misfit hfollow)]

theorem isMatch_iff_takes : isMatch text pattern = true ↔ Takes (tokens pattern) text := by
  rw [isMatch]
  split
  next matched hfollow =>
    obtain ⟨ts', hleads, rfl⟩ := follow_ended hfollow
    rw [← takes_nil_right_iff, hleads.takes_iff]
  next after rest hfollow =>
    rw [search_iff, (follow_anyRun hfollow).takes_iff]
  next hfollow => exact iff_of_false Bool.false_ne_true (follow_misfit hfollow)

/-- **Matching decides LIKE.**  It ends for every text and pattern, and says yes
exactly if the text is what the pattern asks for. -/
theorem isMatch_iff_matches (text pattern : List UInt8) :
    isMatch text pattern = true ↔ Matches pattern text :=
  isMatch_iff_takes.trans matches_iff_takes.symm

end QueryPlanner.Like
