/-
  QueryPlanner.Proofs.Pattern.Like

  What a LIKE pattern fixes, every match starts with.

  The split of a pattern and its tokens walk over the same symbols, so the
  tokens are the fixed bytes and behind them those of the rest.  Matching takes
  the fixed bytes off the front of the text.  A text is split by characters and
  matched by bytes; both splits agree, since no byte of a character above ASCII
  is a wildcard or the escape.
-/

import QueryPlanner.Pattern.FixedPrefix
import QueryPlanner.Proofs.Pattern.Like.Meaning
import QueryPlanner.Proofs.Text.Utf8

namespace QueryPlanner.FixedPrefix

open Like (Token Takes percent underscore backslash)
open Utf8 (encoded)

/-! ## The split and the tokens -/

section Split

variable {anyCase : Bool} {f : UInt8 → UInt8} {b c : UInt8} {bytes text : List UInt8}

/-- No fixed symbol varies. -/
theorem not_varies_of_mem_splitLike {σ : Type} [HasCode σ] {pattern : List σ} {x : σ}
    (hx : x ∈ (splitLike anyCase pattern).1) : (anyCase && varies x) = false := by
  fun_induction splitLike anyCase pattern with
  | case1 | case2 | case3 | case4 | case6 => cases hx
  | case5 _ _ _ _ _ hfixed ih | case7 _ _ _ _ hfixed ih =>
      obtain rfl | hx := List.mem_cons.mp hx
      · exact Bool.eq_false_iff.mpr hfixed
      · exact ih hx

/-- A change of bytes that takes none to or from a byte that does not vary. -/
def Ignores (anyCase : Bool) (f : UInt8 → UInt8) : Prop :=
  ∀ b c, (anyCase && varies c) = false → (f b = c ↔ b = c)

theorem ignores_id : Ignores false id := fun _ _ _ => Iff.rfl

/-- A capital and its small letter both vary. -/
theorem varies_capital (hlo : 65 ≤ b) (hhi : b ≤ 90) :
    varies b = true ∧ varies (b + 32) = true := by
  have hletters : ∀ n < 91, 65 ≤ n →
      (Char.ofNat n).isAlpha = true ∧ (Char.ofNat (n + 32)).isAlpha = true := by decide
  have hlo' : 65 ≤ b.toNat := hlo
  have hhi' : b.toNat ≤ 90 := hhi
  have hsmall : (b + 32).toNat = b.toNat + 32 := by
    rw [UInt8.toNat_add]
    exact Nat.mod_eq_of_lt (show b.toNat + 32 < 256 by omega)
  obtain ⟨hcapital, hletter⟩ := hletters b.toNat (by omega) hlo'
  rw [← hsmall] at hletter
  exact ⟨Bool.or_eq_true_iff.mpr (.inr hcapital), Bool.or_eq_true_iff.mpr (.inr hletter)⟩

theorem ignores_lower : Ignores true Like.lower := by
  intro b c hc
  rw [Bool.true_and] at hc
  rw [Like.lower]
  split_ifs with hcapital
  · obtain ⟨hvaries, hsmall⟩ := varies_capital hcapital.1 hcapital.2
    constructor <;> rintro rfl
    · rw [hsmall] at hc
      cases hc
    · rw [hvaries] at hc
      cases hc
  · exact Iff.rfl

theorem Ignores.fixes (h : Ignores anyCase f) (hb : (anyCase && varies b) = false) : f b = b :=
  (h b b hb).mpr rfl

theorem eq_of_is {ascii : Char} (hascii : ascii.toNat < 256) (h : is b ascii = true) :
    b = UInt8.ofNat ascii.toNat := by
  have hcode : b.toNat = ascii.toNat := eq_of_beq h
  have hbyte : (UInt8.ofNat ascii.toNat).toNat = ascii.toNat := UInt8.toNat_ofNat_of_lt hascii
  exact UInt8.toNat_inj.mp (hcode.trans hbyte.symm)

theorem tokens_plain (hwild : ¬ (is b '%' || is b '_') = true) (hplain : ¬ is b '\\' = true)
    (rest : List UInt8) : Like.tokens (b :: rest) = .byte b :: Like.tokens rest := by
  refine Like.tokens_literal ?_ ?_ ?_ rest
  · rintro rfl
    exact hwild rfl
  · rintro rfl
    exact hwild rfl
  · rintro rfl
    exact hplain rfl

/-- Wildcards and the escape do not vary. -/
theorem not_varies_special (anyCase : Bool) :
    (anyCase && varies percent) = false ∧ (anyCase && varies underscore) = false ∧
      (anyCase && varies backslash) = false := by
  cases anyCase <;> exact ⟨rfl, rfl, rfl⟩

/-- A byte that varies is a literal, also when it is changed. -/
theorem Ignores.tokens_varying (h : Ignores anyCase f) (hb : (anyCase && varies b) = true)
    (rest : List UInt8) : Like.tokens (f b :: rest) = .byte (f b) :: Like.tokens rest := by
  obtain ⟨hpercent, hunderscore, hbackslash⟩ := not_varies_special anyCase
  have hne {special : UInt8} (hspecial : (anyCase && varies special) = false) : f b ≠ special := by
    intro heq
    rw [(h b special hspecial).mp heq, hspecial] at hb
    cases hb
  exact Like.tokens_literal (hne hpercent) (hne hunderscore) (hne hbackslash) rest

/-- The backslash that ends a pattern with nothing behind it to escape. -/
def danglingEscape : List UInt8 → List UInt8
  | [] => []
  | c :: rest =>
    if c = backslash then
      match rest with
      | [] => [c]
      | _ :: after => danglingEscape after
    else danglingEscape rest

theorem danglingEscape_escape (b : UInt8) (rest : List UInt8) :
    danglingEscape (backslash :: b :: rest) = danglingEscape rest := by
  rw [danglingEscape, if_pos rfl]

theorem danglingEscape_plain (h : ¬ is b '\\' = true) (rest : List UInt8) :
    danglingEscape (b :: rest) = danglingEscape rest := by
  rw [danglingEscape.eq_def]
  exact if_neg fun hb : b = backslash => h (by rw [hb]; rfl)

theorem eq_backslash_of_mem_danglingEscape {pattern : List UInt8}
    (h : b ∈ danglingEscape pattern) : b = backslash := by
  fun_induction danglingEscape pattern with
  | case1 => cases h
  | case2 => exact List.mem_singleton.mp h
  | case3 _ _ ih | case4 _ _ _ ih => exact ih h

/-- The tokens behind the fixed bytes: those of the rest, but a dangling escape
is left over where the rest is empty. -/
def tokensBehind (anyCase : Bool) (f : UInt8 → UInt8) (pattern : List UInt8) : List Token :=
  if (splitLike anyCase pattern).2 = [] then (danglingEscape pattern).map .byte
  else Like.tokens ((splitLike anyCase pattern).2.map f)

/-- The tokens of a pattern are the bytes it fixes and those behind. -/
theorem tokens_map_split (h : Ignores anyCase f) (pattern : List UInt8) :
    Like.tokens (pattern.map f) =
      (splitLike anyCase pattern).1.map .byte ++ tokensBehind anyCase f pattern := by
  obtain ⟨-, -, hbackslash⟩ := not_varies_special anyCase
  unfold tokensBehind
  fun_induction splitLike anyCase pattern with
  | case1 | case2 | case6 => rfl
  | case3 c _ hescape =>
      have hc : c = backslash := eq_of_is (by decide) hescape
      rw [hc, List.map_singleton, h.fixes hbackslash]
      rfl
  | case4 c _ hescape d after hvaries =>
      -- The rest is left without the backslash; its first byte is a literal all the same.
      have hc : c = backslash := eq_of_is (by decide) hescape
      rw [hc, List.map_cons, List.map_cons, h.fixes hbackslash, Like.tokens_escape,
        if_neg (List.cons_ne_nil d after), h.tokens_varying hvaries]
      rfl
  | case5 c _ hescape d after hfixed ih =>
      have hc : c = backslash := eq_of_is (by decide) hescape
      rw [hc, List.map_cons, List.map_cons, h.fixes hbackslash,
        h.fixes (Bool.eq_false_iff.mpr hfixed), Like.tokens_escape, danglingEscape_escape, ih,
        List.map_cons, List.cons_append]
  | case7 c rest hwild hplain hfixed ih =>
      rw [List.map_cons, h.fixes (Bool.eq_false_iff.mpr hfixed), tokens_plain hwild hplain,
        danglingEscape_plain hplain, ih, List.map_cons, List.cons_append]

/-! ## The split and matching -/

/-- A change that ignores case makes fixed bytes of the same bytes only. -/
theorem Ignores.map_eq_iff {fixed : List UInt8} (h : Ignores anyCase f)
    (hfixed : ∀ b ∈ fixed, (anyCase && varies b) = false) : text.map f = fixed ↔ text = fixed := by
  induction fixed generalizing text with
  | nil => exact List.map_eq_nil_iff
  | cons b fixed ih =>
      cases text with
      | nil => exact iff_of_false nofun nofun
      | cons c text =>
          rw [List.map_cons, List.cons.injEq, List.cons.injEq, h c b (hfixed b List.mem_cons_self),
            ih fun x hx => hfixed x (List.mem_cons_of_mem b hx)]

/-- A match is what its pattern fixes, and behind it what the other tokens take. -/
theorem isMatch_map_iff (h : Ignores anyCase f) (text pattern : List UInt8) :
    Like.isMatch (text.map f) (pattern.map f) = true ↔
      ∃ back, text = (splitLike anyCase pattern).1 ++ back ∧
        Takes (tokensBehind anyCase f pattern) (back.map f) := by
  have hfixed (front : List UInt8) :
      front.map f = (splitLike anyCase pattern).1 ↔ front = (splitLike anyCase pattern).1 :=
    h.map_eq_iff fun _ => not_varies_of_mem_splitLike
  rw [Like.isMatch_iff_takes, tokens_map_split h, Like.takes_append_bytes]
  constructor
  · rintro ⟨rest, htext, htakes⟩
    obtain ⟨front, back, rfl, hfront, rfl⟩ := List.map_eq_append_iff.mp htext
    rw [(hfixed front).mp hfront]
    exact ⟨back, rfl, htakes⟩
  · rintro ⟨back, rfl, htakes⟩
    rw [List.map_append, (hfixed _).mpr rfl]
    exact ⟨back.map f, rfl, htakes⟩

/-- Where the split leaves a rest, matching goes on with it behind the fixed bytes. -/
theorem isMatch_map_iff_of_rest {pattern : List UInt8} (h : Ignores anyCase f)
    (hrest : (splitLike anyCase pattern).2 ≠ []) :
    Like.isMatch (text.map f) (pattern.map f) = true ↔
      ∃ back, text = (splitLike anyCase pattern).1 ++ back ∧
        Like.isMatch (back.map f) ((splitLike anyCase pattern).2.map f) = true := by
  rw [isMatch_map_iff h text, tokensBehind, if_neg hrest]
  simp only [Like.isMatch_iff_takes]

/-- Where it leaves none, only the fixed bytes match, with the backslash of an
escape that was cut short. -/
theorem isMatch_map_iff_of_whole {pattern : List UInt8} (h : Ignores anyCase f)
    (hrest : (splitLike anyCase pattern).2 = []) :
    Like.isMatch (text.map f) (pattern.map f) = true ↔
      text = (splitLike anyCase pattern).1 ++ danglingEscape pattern := by
  obtain ⟨-, -, hbackslash⟩ := not_varies_special anyCase
  have hdangling (back : List UInt8) :
      back.map f = danglingEscape pattern ↔ back = danglingEscape pattern :=
    h.map_eq_iff fun b hb => by rwa [eq_backslash_of_mem_danglingEscape hb]
  have htakes (back : List UInt8) :
      Takes ((danglingEscape pattern).map .byte) back ↔ back = danglingEscape pattern := by
    rw [← List.append_nil (List.map _ _), Like.takes_append_bytes]
    simp only [Like.takes_nil_iff, exists_eq_right, List.append_nil]
  rw [isMatch_map_iff h text, tokensBehind, if_pos hrest]
  simp only [htakes, hdangling, exists_eq_right]

/-- A match starts with what its pattern fixes. -/
theorem prefix_of_isMatch {pattern : List UInt8} (h : Ignores anyCase f)
    (hmatch : Like.isMatch (text.map f) (pattern.map f) = true) :
    (splitLike anyCase pattern).1 <+: text := by
  obtain ⟨back, rfl, -⟩ := (isMatch_map_iff h text pattern).mp hmatch
  exact List.prefix_append _ back

end Split

/-! ## Characters and bytes -/

section Equations

variable {σ : Type} [HasCode σ] {anyCase : Bool} {x y : σ}

theorem splitLike_wild (h : (is x '%' || is x '_') = true) (rest : List σ) :
    splitLike anyCase (x :: rest) = ([], x :: rest) := by
  rw [splitLike.eq_def]
  exact if_pos h

theorem splitLike_escape (hwild : ¬ (is x '%' || is x '_') = true) (hescape : is x '\\' = true)
    (rest : List σ) :
    splitLike anyCase (x :: y :: rest) =
      if anyCase && varies y then ([], y :: rest)
      else (y :: (splitLike anyCase rest).1, (splitLike anyCase rest).2) := by
  rw [splitLike.eq_def]
  dsimp only
  rw [if_neg hwild, if_pos hescape]

theorem splitLike_plain (hwild : ¬ (is x '%' || is x '_') = true)
    (hplain : ¬ is x '\\' = true) (rest : List σ) :
    splitLike anyCase (x :: rest) =
      if anyCase && varies x then ([], x :: rest)
      else (x :: (splitLike anyCase rest).1, (splitLike anyCase rest).2) := by
  rw [splitLike.eq_def]
  dsimp only
  rw [if_neg hwild, if_neg hplain]

end Equations

section Bytes

variable {anyCase : Bool} {c : Char} {b : UInt8} {high rest : List UInt8} {cs : List Char}

/-- A byte above ASCII is no wildcard and no escape, and varies. -/
theorem is_of_high (hb : 0x80 ≤ b.toNat) {ascii : Char} (hascii : ascii.toNat < 0x80) :
    is b ascii = false :=
  beq_false_of_ne fun h : b.toNat = ascii.toNat => by omega

theorem varies_of_high {σ : Type} [HasCode σ] {x : σ} (hx : 0x80 ≤ HasCode.code x) :
    varies x = true :=
  Bool.or_eq_true_iff.mpr (.inl (decide_eq_true hx))

theorem splitLike_high_cons (hb : 0x80 ≤ b.toNat) (rest : List UInt8) :
    splitLike anyCase (b :: rest) =
      if anyCase then ([], b :: rest)
      else (b :: (splitLike anyCase rest).1, (splitLike anyCase rest).2) := by
  rw [splitLike_plain, varies_of_high hb, Bool.and_true]
  · rw [is_of_high hb (by decide), is_of_high hb (by decide)]
    exact Bool.false_ne_true
  · rw [is_of_high hb (by decide)]
    exact Bool.false_ne_true

/-- Bytes above ASCII are fixed unless case is left out of regard. -/
theorem splitLike_high (hhigh : ∀ b ∈ high, 0x80 ≤ b.toNat) (rest : List UInt8) :
    splitLike false (high ++ rest) =
      (high ++ (splitLike false rest).1, (splitLike false rest).2) := by
  induction high with
  | nil => rfl
  | cons b high ih =>
      rw [List.cons_append, splitLike_high_cons (hhigh b List.mem_cons_self), if_neg (by decide),
        ih fun x hx => hhigh x (List.mem_cons_of_mem b hx)]
      rfl

/-- An ASCII character and its byte have one code. -/
theorem code_byte (hc : c.toNat < 0x80) :
    HasCode.code (UInt8.ofNat c.toNat) = HasCode.code c :=
  UInt8.toNat_ofNat_of_lt (Nat.lt_trans hc (by decide))

theorem is_byte (hc : c.toNat < 0x80) (ascii : Char) :
    is (UInt8.ofNat c.toNat) ascii = is c ascii := by
  rw [is, is, code_byte hc]

theorem varies_byte (hc : c.toNat < 0x80) : varies (UInt8.ofNat c.toNat) = varies c := by
  rw [varies, varies, code_byte hc]

theorem ascii_of_is {ascii : Char} (hascii : ascii.toNat < 0x80) (h : is c ascii = true) :
    c.toNat < 0x80 := by
  have hcode : c.toNat = ascii.toNat := eq_of_beq h
  omega

theorem encoded_cons_escape (h : is c '\\' = true) (cs : List Char) :
    encoded (c :: cs) = backslash :: encoded cs := by
  have hcode : c.toNat = 92 := eq_of_beq h
  rw [encoded, List.flatMap_cons, Utf8.encodeChar_of_ascii (by omega), hcode]
  rfl

/-- The bytes of a character that is neither wildcard nor escape are fixed
together. -/
theorem splitLike_plain_char (hwild : ¬ (is c '%' || is c '_') = true)
    (hplain : ¬ is c '\\' = true) (rest : List UInt8) :
    splitLike anyCase (String.utf8EncodeChar c ++ rest) =
      if anyCase && varies c then ([], String.utf8EncodeChar c ++ rest)
      else (String.utf8EncodeChar c ++ (splitLike anyCase rest).1, (splitLike anyCase rest).2) := by
  by_cases hc : c.toNat < 0x80
  · rw [← is_byte hc, ← is_byte hc] at hwild
    rw [← is_byte hc] at hplain
    rw [Utf8.encodeChar_of_ascii hc, List.singleton_append, splitLike_plain hwild hplain,
      varies_byte hc]
    rfl
  · have hhigh : ∀ b ∈ String.utf8EncodeChar c, 0x80 ≤ b.toNat := fun b =>
      Utf8.high_of_mem_encodeChar (Nat.le_of_not_lt hc)
    have hvaries : varies c = true := varies_of_high (Nat.le_of_not_lt hc)
    rw [hvaries, Bool.and_true]
    -- All bytes are fixed, or the first of them ends the prefix.
    cases anyCase with
    | false => exact splitLike_high hhigh rest
    | true =>
        obtain ⟨b, more, hbytes⟩ := List.exists_cons_of_ne_nil (Utf8.encodeChar_ne_nil c)
        rw [hbytes] at hhigh ⊢
        rw [List.cons_append, splitLike_high_cons (hhigh b List.mem_cons_self)]
        rfl

theorem splitLike_escaped_char (c : Char) (rest : List UInt8) :
    splitLike anyCase (backslash :: (String.utf8EncodeChar c ++ rest)) =
      if anyCase && varies c then ([], String.utf8EncodeChar c ++ rest)
      else (String.utf8EncodeChar c ++ (splitLike anyCase rest).1, (splitLike anyCase rest).2) := by
  by_cases hc : c.toNat < 0x80
  · rw [Utf8.encodeChar_of_ascii hc, List.singleton_append,
      splitLike_escape (by decide) (by decide), varies_byte hc]
    rfl
  · obtain ⟨b, more, hbytes⟩ := List.exists_cons_of_ne_nil (Utf8.encodeChar_ne_nil c)
    have hhigh : ∀ x ∈ b :: more, 0x80 ≤ x.toNat := fun x hx =>
      Utf8.high_of_mem_encodeChar (Nat.le_of_not_lt hc) (hbytes ▸ hx)
    have hvaries : varies c = true := varies_of_high (Nat.le_of_not_lt hc)
    rw [hbytes, List.cons_append, splitLike_escape (by decide) (by decide),
      varies_of_high (hhigh b List.mem_cons_self), hvaries]
    cases anyCase with
    | false =>
        have hmore : ∀ x ∈ more, 0x80 ≤ x.toNat := fun x hx => hhigh x (List.mem_cons_of_mem b hx)
        rw [splitLike_high hmore]
        rfl
    | true => rfl

/-- A pattern splits in the same place by bytes and by characters. -/
theorem splitLike_encoded (anyCase : Bool) (cs : List Char) :
    splitLike anyCase (encoded cs) =
      (encoded (splitLike anyCase cs).1, encoded (splitLike anyCase cs).2) := by
  fun_induction splitLike anyCase cs with
  | case1 => rfl
  | case2 c rest hwild =>
      have hc : c.toNat < 0x80 := by
        obtain h | h := Bool.or_eq_true_iff.mp hwild
        · exact ascii_of_is (by decide) h
        · exact ascii_of_is (by decide) h
      rw [encoded, List.flatMap_cons, Utf8.encodeChar_of_ascii hc, List.singleton_append,
        splitLike_wild (by rw [is_byte hc, is_byte hc]; exact hwild)]
      rfl
  | case3 c hwild hescape =>
      rw [encoded_cons_escape hescape]
      rfl
  | case4 c hwild hescape d after hvaries =>
      rw [encoded_cons_escape hescape, encoded, List.flatMap_cons, splitLike_escaped_char,
        if_pos hvaries]
      rfl
  | case5 c hwild hescape d after hfixed ih =>
      rw [encoded_cons_escape hescape, encoded, List.flatMap_cons, splitLike_escaped_char,
        if_neg hfixed, ih]
      rfl
  | case6 c rest hwild hplain hvaries =>
      rw [encoded, List.flatMap_cons, splitLike_plain_char hwild hplain, if_pos hvaries]
      rfl
  | case7 c rest hwild hplain hfixed ih =>
      rw [encoded, List.flatMap_cons, splitLike_plain_char hwild hplain, if_neg hfixed, ih]
      rfl

end Bytes

end QueryPlanner.FixedPrefix
