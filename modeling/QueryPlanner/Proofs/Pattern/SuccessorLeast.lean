/-
  QueryPlanner.Proofs.Pattern.SuccessorLeast

  A successor is above every extension, and exists whenever one can be had.

  Of byte strings it is the least one above all extensions: an extension may go
  on with greatest bytes as long as one likes, so nothing fits in between.  Of
  texts it is the text up to a character with a larger last byte.  Which last
  bytes can stand there is seen from the character alone, for its first byte
  says how many bytes it has.
-/

import QueryPlanner.Proofs.Datum.Order
import QueryPlanner.Proofs.Pattern.Successor

namespace QueryPlanner

variable {bytes bytes' more : List UInt8} {b x : UInt8} {c d : Char} {cs : List Char}

namespace Utf8

/-! ## Length of a character -/

/-- The first byte of a character says how many follow. -/
theorem length_eq_of_encodes {v v' : Nat} (h : Encodes v (b :: bytes))
    (h' : Encodes v' (b :: bytes')) : bytes.length = bytes'.length := by
  cases h <;> cases h' <;> first | rfl | omega

/-- Bytes that differ from a character in the last one are no more than a
character. -/
theorem eq_singleton_of_encoded {front : List UInt8} (hc : String.utf8EncodeChar c = front ++ [x])
    (h : encoded cs = front ++ [b]) : ∃ d, cs = [d] ∧ String.utf8EncodeChar d = front ++ [b] := by
  cases cs with
  | nil => exact absurd h.symm (List.append_ne_nil_of_right_ne_nil _ (List.cons_ne_nil b []))
  | cons d cs =>
      obtain ⟨y, rest, hd⟩ := List.exists_cons_of_ne_nil (encodeChar_ne_nil d)
      rw [encoded, List.flatMap_cons] at h
      have hlength := congrArg List.length h
      simp only [hd, List.length_cons, List.length_append, List.length_nil] at hlength
      have hfront : front.length ≤ rest.length := by
        cases front with
        | nil => exact Nat.zero_le _
        | cons z front =>
            -- The two start with one byte, so they are of one length.
            rw [hd, List.cons_append, List.cons_append] at h
            obtain rfl : y = z := (List.cons.inj h).1
            have hrest : (front ++ [x]).length = rest.length :=
              length_eq_of_encodes (hc ▸ encodes_encodeChar c) (hd ▸ encodes_encodeChar d)
            rw [List.length_append] at hrest
            exact hrest.le
      have hnil : encoded cs = [] := List.length_eq_zero_iff.mp (by rw [encoded]; omega)
      rw [← encoded, hnil, List.append_nil] at h
      exact ⟨d, by rw [encoded_eq_nil_iff.mp hnil], h⟩

end Utf8

namespace Successor

open Utf8 (encoded)

/-! ## Bytes -/

theorem bumpReversed_isSome_iff : (bumpReversed bytes).isSome = true ↔ ∃ b ∈ bytes, b < 255 := by
  induction bytes with
  | nil => simp only [bumpReversed, Option.isSome_none, Bool.false_eq_true, List.not_mem_nil,
      false_and, exists_false]
  | cons b before ih =>
      rw [bumpReversed]
      split_ifs with hroom
      · exact ⟨fun _ => ⟨b, List.mem_cons_self, hroom⟩, fun _ => rfl⟩
      · rw [ih]
        simp only [List.mem_cons, exists_eq_or_imp, hroom, false_or]

theorem ofBytes_isSome_iff : (ofBytes bytes).isSome = true ↔ ∃ b ∈ bytes, b < 255 := by
  simp only [ofBytes, Option.isSome_map, bumpReversed_isSome_iff, List.mem_reverse]

/-- Only greatest bytes are dropped. -/
theorem exists_of_bumpReversed {out : List UInt8} (h : bumpReversed bytes = some out) :
    ∃ n b before, bytes = List.replicate n 255 ++ b :: before ∧ b < 255 ∧
      out = (b + 1) :: before := by
  induction bytes with
  | nil => cases h
  | cons b before ih =>
      rw [bumpReversed] at h
      split_ifs at h with hroom
      · cases h
        exact ⟨0, b, before, rfl, hroom, rfl⟩
      · obtain ⟨n, b', before', rfl, hroom', rfl⟩ := ih h
        have hb : b = 255 := by
          refine UInt8.toNat_inj.mp ?_
          have hlt := b.toNat_lt
          have hge : ¬ b.toNat < 255 := hroom
          show b.toNat = 255
          omega
        rw [hb]
        exact ⟨n + 1, b', before', rfl, hroom', rfl⟩

theorem exists_of_ofBytes {g : List UInt8} (h : ofBytes bytes = some g) :
    ∃ front b n, bytes = front ++ b :: List.replicate n 255 ∧ b < 255 ∧ g = front ++ [b + 1] := by
  obtain ⟨out, hout, rfl⟩ := Option.map_eq_some_iff.mp h
  obtain ⟨n, b, before, hbytes, hroom, rfl⟩ := exists_of_bumpReversed hout
  refine ⟨before.reverse, b, n, ?_, hroom, List.reverse_cons⟩
  rw [← List.reverse_reverse bytes, hbytes, List.reverse_append, List.reverse_replicate,
    List.reverse_cons, List.append_assoc, List.singleton_append]

/-- Nothing of their length is above greatest bytes. -/
theorem compare_replicate_ne_lt {n : Nat} {u : List UInt8} (h : u.length ≤ n) :
    compare (List.replicate n 255) u ≠ .lt := by
  induction u generalizing n with
  | nil => cases n <;> rw [List.compare_eq_compareLex] <;> exact nofun
  | cons x u ih =>
      obtain ⟨n, rfl⟩ := Nat.exists_eq_succ_of_ne_zero (Nat.ne_zero_of_lt h)
      rw [List.replicate_succ, compare_cons]
      intro hlt
      rcases Ordering.then_eq_lt.mp hlt with hx | ⟨-, hu⟩
      · have hgreatest : (255 : UInt8).toNat < x.toNat :=
          UInt8.lt_iff_toNat_lt.mp (Std.compare_eq_lt.mp hx)
        exact absurd x.toNat_lt (Nat.not_lt.mpr hgreatest)
      · exact ih (Nat.succ_le_succ_iff.mp h) hu

/-- What is above a string that goes on with greatest bytes is not below the
string with its last byte raised. -/
theorem compare_raised_ne_gt {n : Nat} {front u : List UInt8} (hroom : b < 255) (hn : u.length ≤ n)
    (h : compare (front ++ b :: List.replicate n 255) u = .lt) :
    compare (front ++ [b + 1]) u ≠ .gt := by
  induction front generalizing u with
  | nil =>
      cases u with
      | nil => exact absurd h (by rw [List.compare_eq_compareLex]; exact nofun)
      | cons x u =>
          rw [List.nil_append, compare_cons] at h ⊢
          rcases Ordering.then_eq_lt.mp h with hx | ⟨-, hu⟩
          · have hle : b.toNat < x.toNat := UInt8.lt_iff_toNat_lt.mp (Std.compare_eq_lt.mp hx)
            intro hgt
            rcases Ordering.then_eq_gt.mp hgt with hgt | ⟨-, hgt⟩
            · have hlt := UInt8.lt_iff_toNat_lt.mp (Std.compare_eq_gt.mp hgt)
              rw [toNat_add_one hroom] at hlt
              omega
            · rw [List.compare_eq_compareLex] at hgt
              cases u <;> cases hgt
          · exact absurd hu (compare_replicate_ne_lt (Nat.le_of_succ_le hn))
  | cons f front ih =>
      cases u with
      | nil => exact absurd h (by rw [List.compare_eq_compareLex]; exact nofun)
      | cons x u =>
          rw [List.cons_append, compare_cons] at h ⊢
          intro hgt
          rcases Ordering.then_eq_lt.mp h with hx | ⟨hx, hu⟩
          · rw [hx] at hgt
            cases hgt
          · rw [hx] at hgt
            exact ih (Nat.le_of_succ_le hn) hu hgt

/-- The least byte string above all that start with some bytes. -/
def IsLeastAbove (v g : List UInt8) : Prop :=
  (∀ more, compare (v ++ more) g = .lt) ∧
    ∀ u, (∀ more, compare (v ++ more) u = .lt) → compare g u ≠ .gt

theorem isLeastAbove_of_ofBytes {v g : List UInt8} (h : ofBytes v = some g) : IsLeastAbove v g := by
  refine ⟨fun more => ((exceeds_of_ofBytes h).extend more).compare_eq_lt, fun u hu => ?_⟩
  obtain ⟨front, b, n, rfl, hroom, rfl⟩ := exists_of_ofBytes h
  refine compare_raised_ne_gt hroom (Nat.le_add_left u.length n) ?_
  have habove := hu (List.replicate u.length 255)
  rwa [List.append_assoc, List.cons_append, List.replicate_append_replicate] at habove

/-! ## Texts -/

theorem mem_above_of_lt (h : b < x) : x ∈ above b := by
  have hlt := UInt8.lt_iff_toNat_lt.mp h
  have hx := x.toNat_lt
  refine List.mem_map.mpr ⟨x.toNat - b.toNat - 1, List.mem_range.mpr (by omega), ?_⟩
  rw [show b.toNat + 1 + (x.toNat - b.toNat - 1) = x.toNat by omega, UInt8.ofNat_toNat]

/-- A character is raised whenever a larger last byte makes a character. -/
theorem raiseLastByte_isSome_iff : (raiseLastByte c).isSome = true ↔
    ∃ front x b d, String.utf8EncodeChar c = front ++ [x] ∧ x < b ∧
      String.utf8EncodeChar d = front ++ [b] := by
  constructor
  · intro h
    obtain ⟨d, hd⟩ := Option.isSome_iff_exists.mp h
    obtain ⟨front, x, b, hc, hd, hlt⟩ := exists_of_raiseLastByte hd
    exact ⟨front, x, b, d, hc, hlt, hd⟩
  · rintro ⟨front, x, b, d, hc, hlt, hd⟩
    have hread : Utf8.decode (front ++ [b]) = [some d] := by
      rw [← hd, ← List.append_nil (String.utf8EncodeChar d), Utf8.decode_encodeChar_append,
        Utf8.decode]
    rw [raiseLastByte_eq hc, List.findSome?_isSome_iff]
    exact ⟨b, mem_above_of_lt hlt, by rw [hread]; rfl⟩

theorem raiseReversed_isSome_iff :
    (raiseReversed cs).isSome = true ↔ ∃ c ∈ cs, (raiseLastByte c).isSome = true := by
  induction cs with
  | nil => simp only [raiseReversed, Option.isSome_none, Bool.false_eq_true, List.not_mem_nil,
      false_and, exists_false]
  | cons c before ih =>
      rw [raiseReversed]
      cases hc : raiseLastByte c with
      | some d => exact ⟨fun _ => ⟨c, List.mem_cons_self, by rw [hc]; rfl⟩, fun _ => rfl⟩
      | none =>
          rw [ih]
          simp only [List.mem_cons, exists_eq_or_imp, hc, Option.isSome_none, Bool.false_eq_true,
            false_or]

theorem ofText_isSome_iff {s : String} :
    (ofText s).isSome = true ↔ ∃ c ∈ s.toList, (raiseLastByte c).isSome = true := by
  simp only [ofText, Option.isSome_map, raiseReversed_isSome_iff, List.mem_reverse]

/-- The text up to one of its characters stays valid with a larger last byte. -/
def Raisable (s : String) : Prop :=
  ∃ front c back bytes x b t, s.toList = front ++ c :: back ∧
    utf8 (String.ofList (front ++ [c])) = bytes ++ [x] ∧ x < b ∧ utf8 t = bytes ++ [b]

/-- The bytes of a text with a character at its end. -/
theorem utf8_concat (front : List Char) (c : Char) :
    utf8 (String.ofList (front ++ [c])) = encoded front ++ String.utf8EncodeChar c := by
  rw [Utf8.utf8_eq_encoded, String.toList_ofList, encoded, List.flatMap_append,
    List.flatMap_singleton]

/-- What keeps one character valid keeps the text up to it valid, and only
that. -/
theorem raisable_iff {s : String} :
    Raisable s ↔ ∃ c ∈ s.toList, (raiseLastByte c).isSome = true := by
  simp only [raiseLastByte_isSome_iff]
  constructor
  · rintro ⟨front, c, back, bytes, x, b, t, hs, hc, hlt, ht⟩
    have hlast := (List.dropLast_concat_getLast (Utf8.encodeChar_ne_nil c)).symm
    rw [utf8_concat, hlast, ← List.append_assoc] at hc
    obtain ⟨rfl, hx⟩ := List.append_inj' hc rfl
    obtain rfl := (List.cons.inj hx).1
    -- The text with the larger byte goes on behind the same characters.
    rw [Utf8.utf8_eq_encoded, List.append_assoc] at ht
    obtain ⟨more, -, hmore⟩ := Utf8.exists_encoded_of_append ht
    obtain ⟨d, -, hd⟩ := Utf8.eq_singleton_of_encoded hlast hmore.symm
    have hmem : c ∈ s.toList := hs ▸ List.mem_append_right front List.mem_cons_self
    exact ⟨c, hmem, _, _, b, d, hlast, hlt, hd⟩
  · rintro ⟨c, hmem, lead, x, b, d, hc, hlt, hd⟩
    obtain ⟨front, back, hs⟩ := List.append_of_mem hmem
    refine ⟨front, c, back, encoded front ++ lead, x, b, String.ofList (front ++ [d]), hs, ?_, hlt,
      ?_⟩
    · rw [utf8_concat, hc, List.append_assoc]
    · rw [utf8_concat, hd, List.append_assoc]

/-! ## Values -/

section Values

variable {α : Type} [Number α]

/-- The successor of a byte string is the least one above all its extensions,
and exists unless all bytes are greatest.  The successor of a text is above all
its extensions and ends with the one byte in which it differs; it exists exactly
if some character can be raised. -/
theorem ofDatum_bounds_extensions :
    (∀ v : List UInt8,
      ((ofDatum (.bytea v : Datum α)).isSome = true ↔ ∃ b ∈ v, b < 255) ∧
      ∀ g, ofDatum (.bytea v : Datum α) = some g →
        (∀ more, (Datum.bytea (v ++ more)).compare? g = some .lt) ∧
        ∃ u, g = .bytea u ∧
          ∀ u', (∀ more, (Datum.bytea (v ++ more) : Datum α).compare? (.bytea u') = some .lt) →
            g.compare? (.bytea u') ≠ some .gt) ∧
    (∀ v : String,
      ((ofDatum (.text v : Datum α)).isSome = true ↔ Raisable v) ∧
      ∀ g, ofDatum (.text v : Datum α) = some g →
        (∀ more, (Datum.text (v ++ more)).compare? g = some .lt) ∧
        ∃ t, g = .text t ∧ Raises (utf8 t) (utf8 v)) := by
  refine ⟨fun v => ⟨?_, fun g hg => ?_⟩, fun v => ⟨?_, fun g hg => ?_⟩⟩
  · rw [ofDatum, Option.isSome_map, ofBytes_isSome_iff]
  · obtain ⟨u, hu, rfl⟩ := Option.map_eq_some_iff.mp hg
    obtain ⟨habove, hleast⟩ := isLeastAbove_of_ofBytes hu
    refine ⟨fun more => congrArg some (habove more), u, rfl, fun u' hu' hgt => ?_⟩
    exact hleast u' (fun more => Option.some.inj (hu' more)) (Option.some.inj hgt)
  · rw [ofDatum, Option.isSome_map, ofText_isSome_iff, raisable_iff]
  · obtain ⟨t, ht, rfl⟩ := Option.map_eq_some_iff.mp hg
    refine ⟨fun more => congrArg some ?_, t, rfl, raises_of_ofText ht⟩
    rw [Utf8.utf8_eq_encoded (v ++ more), String.toList_append, encoded, List.flatMap_append,
      ← encoded, ← Utf8.utf8_eq_encoded]
    exact ((exceeds_of_ofText ht).extend _).compare_eq_lt

/-- A greatest byte at the end is dropped. -/
theorem ofDatum_bounds_extensions_greatestLast :
    ofDatum (.bytea [97, 255] : Datum Float) = some (.bytea [98]) ∧
    ∀ more, (Datum.bytea ([97, 255] ++ more) : Datum Float).compare? (.bytea [98]) = some .lt := by
  have hraised : ofDatum (.bytea [97, 255] : Datum Float) = some (.bytea [98]) := rfl
  exact ⟨hraised, ((ofDatum_bounds_extensions.1 [97, 255]).2 _ hraised).1⟩

end Values

end Successor

end QueryPlanner
