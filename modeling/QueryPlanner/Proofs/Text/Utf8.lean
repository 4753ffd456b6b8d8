/-
  QueryPlanner.Proofs.Text.Utf8

  Decoding and encoding undo each other.

  `Utf8.Encodes` says which byte sequence stands for a code point, one
  constructor per length.  The encoder writes that sequence, the decoder reads
  a character from it and from nothing else.
-/

import Mathlib.Data.List.Basic
import Mathlib.Tactic.SplitIfs
import QueryPlanner.Datum
import QueryPlanner.Text.Utf8

namespace QueryPlanner

namespace Utf8

/-- The bytes of some characters. -/
abbrev encoded (cs : List Char) : List UInt8 := cs.flatMap String.utf8EncodeChar

theorem utf8_eq_encoded (s : String) : utf8 s = encoded s.toList := by
  rw [utf8, ← String.utf8Encode_toList]
  simp [List.utf8Encode]

theorem utf8_singleton (c : Char) : utf8 (String.ofList [c]) = String.utf8EncodeChar c := by
  rw [utf8_eq_encoded, String.toList_ofList, encoded, List.flatMap_singleton]

variable {b : UInt8} {bytes bytes' rest : List UInt8} {v : Nat} {c : Char}

/-! ## Sequences -/

/-- The sequence of a code point: one byte up to `7F`, else a first byte and
up to three more with six bits each. -/
inductive Encodes (v : Nat) : List UInt8 → Prop where
  | one {b₀ : UInt8} (h₀ : b₀.toNat = v) (hhi : v < 0x80) : Encodes v [b₀]
  | two {b₀ b₁ : UInt8} (h₀ : b₀.toNat = v / 64 + 0xC0) (h₁ : b₁.toNat = v % 64 + 0x80)
      (hlo : 0x80 ≤ v) (hhi : v < 0x800) : Encodes v [b₀, b₁]
  | three {b₀ b₁ b₂ : UInt8} (h₀ : b₀.toNat = v / 4096 + 0xE0) (h₁ : b₁.toNat = v / 64 % 64 + 0x80)
      (h₂ : b₂.toNat = v % 64 + 0x80) (hlo : 0x800 ≤ v) (hhi : v < 0x10000)
      (hv : v < 0xD800 ∨ 0xDFFF < v) : Encodes v [b₀, b₁, b₂]
  | four {b₀ b₁ b₂ b₃ : UInt8} (h₀ : b₀.toNat = v / 262144 + 0xF0)
      (h₁ : b₁.toNat = v / 4096 % 64 + 0x80) (h₂ : b₂.toNat = v / 64 % 64 + 0x80)
      (h₃ : b₃.toNat = v % 64 + 0x80) (hlo : 0x10000 ≤ v) (hhi : v < 0x110000) :
      Encodes v [b₀, b₁, b₂, b₃]

/-- The bytes of a character are the sequence of its code point. -/
theorem encodes_encodeChar (c : Char) : Encodes c.toNat (String.utf8EncodeChar c) := by
  have hvalid : c.toNat < 0xD800 ∨ 0xDFFF < c.toNat ∧ c.toNat < 0x110000 := c.valid
  have hbyte {n : Nat} (h : n < 256) : (UInt8.ofNat n).toNat = n := UInt8.toNat_ofNat_of_lt h
  rw [String.utf8EncodeChar, show c.val.toNat = c.toNat from rfl]
  split_ifs with h₁ h₂ h₃
  · exact .one (hbyte (by omega)) (by omega)
  · refine .two ?_ (hbyte (by omega)) (by omega) (by omega)
    rw [hbyte (by omega)]
    omega
  · refine .three ?_ (hbyte (by omega)) (hbyte (by omega)) (by omega) (by omega) (by omega)
    rw [hbyte (by omega)]
    omega
  · refine .four ?_ (hbyte (by omega)) (hbyte (by omega)) (hbyte (by omega)) (by omega) (by omega)
    rw [hbyte (by omega)]
    omega

/-- A code point has one sequence. -/
theorem Encodes.unique (h : Encodes v bytes) (h' : Encodes v bytes') : bytes = bytes' := by
  have hbyte {a a' : UInt8} {n : Nat} (ha : a.toNat = n) (ha' : a'.toNat = n) : a = a' :=
    UInt8.toNat_inj.mp (ha.trans ha'.symm)
  cases h <;> cases h' <;> first | omega | skip
  case one.one h₀ _ _ k₀ _ => rw [hbyte h₀ k₀]
  case two.two h₀ h₁ _ _ _ _ k₀ k₁ _ _ => rw [hbyte h₀ k₀, hbyte h₁ k₁]
  case three.three h₀ h₁ h₂ _ _ _ _ _ _ k₀ k₁ k₂ _ _ _ =>
    rw [hbyte h₀ k₀, hbyte h₁ k₁, hbyte h₂ k₂]
  case four.four h₀ h₁ h₂ h₃ _ _ _ _ _ _ k₀ k₁ k₂ k₃ _ _ =>
    rw [hbyte h₀ k₀, hbyte h₁ k₁, hbyte h₂ k₂, hbyte h₃ k₃]

/-- An ASCII character is its own byte. -/
theorem encodeChar_of_ascii (h : c.toNat < 0x80) :
    String.utf8EncodeChar c = [UInt8.ofNat c.toNat] := by
  have hbyte : (UInt8.ofNat c.toNat).toNat = c.toNat :=
    UInt8.toNat_ofNat_of_lt (Nat.lt_trans h (by decide))
  exact (encodes_encodeChar c).unique (.one hbyte h)

/-- All bytes of any other character lie above ASCII. -/
theorem high_of_mem_encodeChar (h : 0x80 ≤ c.toNat) (hb : b ∈ String.utf8EncodeChar c) :
    0x80 ≤ b.toNat := by
  have hencodes := encodes_encodeChar c
  generalize String.utf8EncodeChar c = bytes at hb hencodes
  cases hencodes <;> simp only [List.mem_cons, List.not_mem_nil, or_false] at hb
  case one => omega
  case two => obtain rfl | rfl := hb <;> omega
  case three => obtain rfl | rfl | rfl := hb <;> omega
  case four => obtain rfl | rfl | rfl | rfl := hb <;> omega

theorem encodeChar_ne_nil (c : Char) : String.utf8EncodeChar c ≠ [] := by
  intro h
  have hencodes := encodes_encodeChar c
  rw [h] at hencodes
  cases hencodes

/-! ## Decoding what is encoded -/

theorem second?_three {lead : Nat} (hlo : 0xE0 ≤ lead) (hhi : lead ≤ 0xEF) :
    second? lead =
      some (if lead = 0xE0 then 0xA0 else 0x80, if lead = 0xED then 0x9F else 0xBF, 2) := by
  rw [second?, if_neg (by omega)]
  split_ifs <;> first | rfl | omega

theorem second?_four {lead : Nat} (hlo : 0xF0 ≤ lead) (hhi : lead ≤ 0xF4) :
    second? lead =
      some (if lead = 0xF0 then 0x90 else 0x80, if lead = 0xF4 then 0x8F else 0xBF, 3) := by
  rw [second?, if_neg (by omega), if_neg (by omega), if_neg (by omega), if_neg (by omega)]
  split_ifs <;> first | rfl | omega

/-- A sequence is read back to its code point. -/
theorem first_of_encodes (h : Encodes v (b :: bytes)) (rest : List UInt8) :
    first b (bytes ++ rest) = (some (Char.ofNat v), bytes.length) := by
  cases h with
  | one h₀ hhi => rw [first, if_pos (by omega), h₀, List.length_nil]
  | two h₀ h₁ hlo hhi =>
      rename_i b₁
      have hsecond : second? b.toNat = some (0x80, 0xBF, 1) := if_pos (by omega)
      have hcode : leadBits b.toNat 1 * 64 + b₁.toNat % 64 = v := by
        show b.toNat % 32 * 64 + b₁.toNat % 64 = v
        omega
      rw [first, if_neg (by omega), hsecond]
      dsimp only [List.cons_append, List.nil_append]
      rw [following, if_pos (by omega), hcode, following]
      rfl
  | three h₀ h₁ h₂ hlo hhi hv =>
      rename_i b₁ b₂
      have hcode : (leadBits b.toNat 2 * 64 + b₁.toNat % 64) * 64 + b₂.toNat % 64 = v := by
        show (b.toNat % 16 * 64 + b₁.toNat % 64) * 64 + b₂.toNat % 64 = v
        omega
      rw [first, if_neg (by omega), second?_three (by omega) (by omega)]
      dsimp only [List.cons_append, List.nil_append]
      rw [following, if_pos (by split_ifs <;> omega), following, if_pos (by omega), hcode,
        following]
      rfl
  | four h₀ h₁ h₂ h₃ hlo hhi =>
      rename_i b₁ b₂ b₃
      have hcode : ((leadBits b.toNat 3 * 64 + b₁.toNat % 64) * 64 + b₂.toNat % 64) * 64
          + b₃.toNat % 64 = v := by
        show ((b.toNat % 8 * 64 + b₁.toNat % 64) * 64 + b₂.toNat % 64) * 64 + b₃.toNat % 64 = v
        omega
      rw [first, if_neg (by omega), second?_four (by omega) (by omega)]
      dsimp only [List.cons_append, List.nil_append]
      rw [following, if_pos (by split_ifs <;> omega), following, if_pos (by omega), following,
        if_pos (by omega), hcode, following]
      rfl

theorem decode_encodeChar_append (c : Char) (rest : List UInt8) :
    decode (String.utf8EncodeChar c ++ rest) = some c :: decode rest := by
  have hencodes := encodes_encodeChar c
  obtain ⟨b, bytes, hbytes⟩ := List.exists_cons_of_ne_nil (encodeChar_ne_nil c)
  rw [hbytes] at hencodes ⊢
  rw [List.cons_append, decode, first_of_encodes hencodes, Char.ofNat_toNat, List.drop_left]

/-- Decoding undoes encoding. -/
theorem decode_utf8 (s : String) : decode (utf8 s) = s.toList.map some := by
  rw [utf8_eq_encoded, encoded]
  induction s.toList with
  | nil => rw [List.flatMap_nil, decode, List.map_nil]
  | cons c cs ih => rw [List.flatMap_cons, decode_encodeChar_append, ih, List.map_cons]

theorem decodeLossy_utf8 (s : String) : decodeLossy (utf8 s) = s.toList := by
  rw [decodeLossy, decode_utf8, List.map_map]
  exact List.map_id s.toList

/-! ## Encoding what is decoded -/

theorem toNat_ofNat (h : v < 0xD800 ∨ 0xDFFF < v ∧ v < 0x110000) : (Char.ofNat v).toNat = v := by
  have hvalid : v.isValidChar := h
  rw [Char.ofNat, dif_pos hvalid]
  rfl

/-- A byte that is read on lies in its range. -/
theorem following_succ {code lo hi n k : Nat}
    (h : following code lo hi (n + 1) rest = (some c, k)) :
    ∃ b' rest' k', rest = b' :: rest' ∧ lo ≤ b'.toNat ∧ b'.toNat ≤ hi ∧ k = k' + 1 ∧
      following (code * 64 + b'.toNat % 64) 0x80 0xBF n rest' = (some c, k') := by
  match rest with
  | [] => cases h
  | b' :: rest' =>
      rw [following] at h
      split_ifs at h with hrange
      · generalize hnext : following (code * 64 + b'.toNat % 64) 0x80 0xBF n rest' = r at h
        obtain ⟨_, k'⟩ := r
        cases h
        exact ⟨b', rest', k', rfl, hrange.1, hrange.2, rfl, hnext⟩
      · cases h

theorem following_zero {code lo hi k : Nat}
    (h : following code lo hi 0 rest = (some c, k)) : c = Char.ofNat code ∧ k = 0 := by
  cases h
  exact ⟨rfl, rfl⟩

/-- The first bytes of two, of three and of four. -/
theorem second?_eq_some {lead lo hi n : Nat} (h : second? lead = some (lo, hi, n)) :
    n = 1 ∧ 0xC2 ≤ lead ∧ lead ≤ 0xDF ∧ lo = 0x80 ∧ hi = 0xBF ∨
    n = 2 ∧ 0xE0 ≤ lead ∧ lead ≤ 0xEF ∧ 0x80 ≤ lo ∧ hi ≤ 0xBF ∧
      (lead = 0xE0 → 0xA0 ≤ lo) ∧ (lead = 0xED → hi ≤ 0x9F) ∨
    n = 3 ∧ 0xF0 ≤ lead ∧ lead ≤ 0xF4 ∧ 0x80 ≤ lo ∧ hi ≤ 0xBF ∧
      (lead = 0xF0 → 0x90 ≤ lo) ∧ (lead = 0xF4 → hi ≤ 0x8F) := by
  rw [second?] at h
  split_ifs at h <;> cases h <;> omega

/-- What is read as a character is its sequence. -/
theorem encodes_of_first {k : Nat} (h : first b rest = (some c, k)) :
    Encodes c.toNat (b :: rest.take k) := by
  rw [first] at h
  -- By the first byte: ASCII, or the start of a sequence of known length.
  split_ifs at h with hascii
  · cases h
    rw [toNat_ofNat (by omega), List.take_zero]
    exact .one rfl hascii
  · cases hsecond : second? b.toNat with
    | none => rw [hsecond] at h; cases h
    | some bounds =>
        obtain ⟨lo, hi, n⟩ := bounds
        rw [hsecond] at h
        replace h : following (leadBits b.toNat n) lo hi n rest = (some c, k) := h
        obtain ⟨rfl, hlead⟩ | ⟨rfl, hlead⟩ | ⟨rfl, hlead⟩ := second?_eq_some hsecond
        · have hbits : leadBits b.toNat 1 = b.toNat % 32 := rfl
          obtain ⟨b₁, rest, k, rfl, hlo₁, hhi₁, rfl, h₁⟩ := following_succ h
          obtain ⟨rfl, rfl⟩ := following_zero h₁
          rw [toNat_ofNat (by omega), hbits]
          exact .two (by omega) (by omega) (by omega) (by omega)
        · have hbits : leadBits b.toNat 2 = b.toNat % 16 := rfl
          obtain ⟨b₁, rest, k, rfl, hlo₁, hhi₁, rfl, h₁⟩ := following_succ h
          obtain ⟨b₂, rest, k, rfl, hlo₂, hhi₂, rfl, h₂⟩ := following_succ h₁
          obtain ⟨rfl, rfl⟩ := following_zero h₂
          rw [toNat_ofNat (by omega), hbits]
          exact .three (by omega) (by omega) (by omega) (by omega) (by omega) (by omega)
        · have hbits : leadBits b.toNat 3 = b.toNat % 8 := rfl
          obtain ⟨b₁, rest, k, rfl, hlo₁, hhi₁, rfl, h₁⟩ := following_succ h
          obtain ⟨b₂, rest, k, rfl, hlo₂, hhi₂, rfl, h₂⟩ := following_succ h₁
          obtain ⟨b₃, rest, k, rfl, hlo₃, hhi₃, rfl, h₃⟩ := following_succ h₂
          obtain ⟨rfl, rfl⟩ := following_zero h₃
          rw [toNat_ofNat (by omega), hbits]
          exact .four (by omega) (by omega) (by omega) (by omega) (by omega) (by omega)

/-- Only the bytes of a character decode to it alone. -/
theorem eq_encodeChar_of_decode (h : decode bytes = [some c]) :
    bytes = String.utf8EncodeChar c := by
  match bytes with
  | [] => rw [decode] at h; cases h
  | b :: rest =>
      rw [decode, List.cons.injEq] at h
      obtain ⟨hfirst, hrest⟩ := h
      have hall : rest.drop (first b rest).2 = [] := by
        cases hdrop : rest.drop (first b rest).2 with
        | nil => rfl
        | cons => rw [hdrop, decode] at hrest; cases hrest
      have hencodes := encodes_of_first (Prod.ext hfirst rfl)
      rw [List.take_of_length_le (List.drop_eq_nil_iff.mp hall)] at hencodes
      exact hencodes.unique (encodes_encodeChar c)

/-! ## Parts of a text -/

theorem encoded_eq_nil_iff {cs : List Char} : encoded cs = [] ↔ cs = [] := by
  rw [encoded, List.flatMap_eq_nil_iff]
  constructor
  · intro h
    cases cs with
    | nil => rfl
    | cons c cs => exact absurd (h c List.mem_cons_self) (encodeChar_ne_nil c)
  · rintro rfl
    exact nofun

theorem encodeChar_append_inj {c' : Char} {rest' : List UInt8}
    (h : String.utf8EncodeChar c ++ rest = String.utf8EncodeChar c' ++ rest') :
    c = c' ∧ rest = rest' := by
  have hdecode : some c :: decode rest = some c' :: decode rest' := by
    rw [← decode_encodeChar_append, h, decode_encodeChar_append]
  obtain rfl : c = c' := Option.some.inj (List.cons.inj hdecode).1
  exact ⟨rfl, List.append_cancel_left h⟩

/-- In the bytes of some characters those of others are found in front only if
the others are. -/
theorem exists_encoded_of_append {cs front : List Char} (h : encoded cs = encoded front ++ rest) :
    ∃ back, cs = front ++ back ∧ rest = encoded back := by
  induction front generalizing cs with
  | nil => exact ⟨cs, rfl, h.symm⟩
  | cons c' front ih =>
      rw [encoded, encoded, List.flatMap_cons, List.append_assoc] at h
      cases cs with
      | nil =>
          have hnil := (List.append_eq_nil_iff.mp h.symm).1
          exact absurd hnil (encodeChar_ne_nil c')
      | cons c cs =>
          rw [List.flatMap_cons] at h
          obtain ⟨rfl, hrest⟩ := encodeChar_append_inj h
          obtain ⟨back, rfl, hback⟩ := ih hrest
          exact ⟨back, rfl, hback⟩

theorem encoded_inj {cs cs' : List Char} (h : encoded cs = encoded cs') : cs = cs' := by
  rw [← List.append_nil (encoded cs')] at h
  obtain ⟨back, rfl, hback⟩ := exists_encoded_of_append h
  rw [encoded_eq_nil_iff.mp hback.symm, List.append_nil]

end Utf8
end QueryPlanner
