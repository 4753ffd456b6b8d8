/-
  QueryPlanner.Proofs.Pattern.Successor

  A value lies between each of its prefixes and what follows that prefix.

  Byte strings are compared at the first byte in which they differ.  A string
  exceeds another when it has the larger byte there, and then it exceeds every
  extension of the other too.
-/

import QueryPlanner.Pattern.Successor
import QueryPlanner.Proofs.Text.Utf8

namespace QueryPlanner.Successor

open Utf8 (encoded)

variable {p g v front more : List UInt8}

/-! ## Order of byte strings -/

/-- At the first place where the two differ, `g` has the larger byte. -/
def Exceeds (g p : List UInt8) : Prop :=
  ∃ front x back y rest, p = front ++ x :: back ∧ g = front ++ y :: rest ∧ x < y

/-- What exceeds a string exceeds its extensions. -/
theorem Exceeds.extend (h : Exceeds g p) (more : List UInt8) : Exceeds g (p ++ more) := by
  obtain ⟨shared, x, back, y, rest, rfl, rfl, hxy⟩ := h
  exact ⟨shared, x, back ++ more, y, rest, List.append_assoc .., rfl, hxy⟩

theorem compare_append_left (front p g : List UInt8) :
    compare (front ++ p) (front ++ g) = compare p g := by
  rw [List.compare_eq_compareLex]
  induction front with
  | nil => rfl
  | cons b front ih =>
      have hsame : compare b b = .eq := Std.ReflCmp.compare_self
      rw [List.cons_append, List.cons_append, List.compareLex_cons_cons, ih, hsame]
      rfl

theorem Exceeds.compare_eq_lt (h : Exceeds g v) : compare v g = .lt := by
  obtain ⟨shared, x, back, y, rest, rfl, rfl, hxy⟩ := h
  rw [compare_append_left, List.compare_eq_compareLex, List.compareLex_cons_cons,
    Std.compare_eq_lt.mpr hxy]
  rfl

/-- A string is not below its prefixes. -/
theorem compare_ne_lt_of_prefix (h : p <+: v) : compare v p ≠ .lt := by
  obtain ⟨more, rfl⟩ := h
  have hsame := compare_append_left p more []
  rw [List.append_nil] at hsame
  rw [hsame, List.compare_eq_compareLex]
  cases more <;> exact nofun

/-- `g` is `p` up to some byte, and ends with a larger one. -/
def Raises (g p : List UInt8) : Prop :=
  ∃ front x back b, p = front ++ x :: back ∧ g = front ++ [b] ∧ x < b

theorem Raises.exceeds (h : Raises g p) : Exceeds g p := by
  obtain ⟨shared, x, back, b, rfl, rfl, hlt⟩ := h
  exact ⟨shared, x, back, b, [], rfl, rfl, hlt⟩

theorem Raises.append_left (h : Raises g p) (front : List UInt8) :
    Raises (front ++ g) (front ++ p) := by
  obtain ⟨shared, x, back, b, rfl, rfl, hlt⟩ := h
  exact ⟨front ++ shared, x, back, b, (List.append_assoc ..).symm, (List.append_assoc ..).symm,
    hlt⟩

theorem Raises.extend (h : Raises g p) (more : List UInt8) : Raises g (p ++ more) := by
  obtain ⟨shared, x, back, b, rfl, rfl, hlt⟩ := h
  exact ⟨shared, x, back ++ more, b, List.append_assoc .., rfl, hlt⟩

theorem raises_last {b b' : UInt8} (h : b < b') (front : List UInt8) :
    Raises (front ++ [b']) (front ++ [b]) :=
  ⟨front, b, [], b', rfl, rfl, h⟩

/-! ## Bytes -/

theorem toNat_add_one {b : UInt8} (h : b < 255) : (b + 1).toNat = b.toNat + 1 := by
  have hlt : b.toNat < 255 := h
  rw [UInt8.toNat_add]
  exact Nat.mod_eq_of_lt (show b.toNat + 1 < 256 by omega)

theorem lt_add_one {b : UInt8} (h : b < 255) : b < b + 1 := by
  rw [UInt8.lt_iff_toNat_lt, toNat_add_one h]
  exact Nat.lt_succ_self _

theorem raises_of_bumpReversed {bytes out : List UInt8} (h : bumpReversed bytes = some out) :
    Raises out.reverse bytes.reverse := by
  induction bytes with
  | nil => cases h
  | cons b before ih =>
      rw [bumpReversed] at h
      rw [List.reverse_cons]
      split_ifs at h with hroom
      · cases h
        rw [List.reverse_cons]
        exact raises_last (lt_add_one hroom) before.reverse
      -- The last byte is dropped, so a longer string is raised.
      · exact (ih h).extend [b]

theorem exceeds_of_ofBytes (h : ofBytes p = some g) : Exceeds g p := by
  obtain ⟨out, hout, rfl⟩ := Option.map_eq_some_iff.mp h
  have hraises := raises_of_bumpReversed hout
  rw [List.reverse_reverse] at hraises
  exact hraises.exceeds

/-! ## Texts -/

theorem lt_of_mem_above {a b : UInt8} (h : b ∈ above a) : a < b := by
  obtain ⟨i, hi, rfl⟩ := List.mem_map.mp h
  have hbound : i < 255 - a.toNat := List.mem_range.mp hi
  have hbyte : (UInt8.ofNat (a.toNat + 1 + i)).toNat = a.toNat + 1 + i :=
    UInt8.toNat_ofNat_of_lt (show a.toNat + 1 + i < 256 by omega)
  rw [UInt8.lt_iff_toNat_lt, hbyte]
  omega

/-- A character is raised by trying the larger last bytes in order. -/
theorem raiseLastByte_eq {c : Char} {x : UInt8} (hc : String.utf8EncodeChar c = front ++ [x]) :
    raiseLastByte c = (above x).findSome? fun b =>
      match Utf8.decode (front ++ [b]) with
      | [d] => d
      | _ => none := by
  have hbytes : utf8 (String.ofList [c]) = front ++ [x] := (Utf8.utf8_singleton c).trans hc
  have hlast : (utf8 (String.ofList [c])).getLastD 255 = x := by
    rw [hbytes, List.getLastD_concat]
  have hfront : (utf8 (String.ofList [c])).dropLast = front := by
    rw [hbytes, List.dropLast_concat]
  rw [← hlast, ← hfront]
  rfl

/-- A raised character has the bytes of the old one but for a larger last
byte. -/
theorem exists_of_raiseLastByte {c d : Char} (h : raiseLastByte c = some d) :
    ∃ front x b, String.utf8EncodeChar c = front ++ [x] ∧ String.utf8EncodeChar d = front ++ [b] ∧
      x < b := by
  have hc := (List.dropLast_concat_getLast (Utf8.encodeChar_ne_nil c)).symm
  rw [raiseLastByte_eq hc] at h
  obtain ⟨b, hb, hread⟩ := List.exists_of_findSome?_eq_some h
  refine ⟨_, _, b, hc, (Utf8.eq_encodeChar_of_decode ?_).symm, lt_of_mem_above hb⟩
  split at hread
  next heq => rw [heq, hread]
  next => cases hread

theorem raises_of_raiseLastByte {c d : Char} (h : raiseLastByte c = some d) :
    Raises (String.utf8EncodeChar d) (String.utf8EncodeChar c) := by
  obtain ⟨front, x, b, hc, hd, hlt⟩ := exists_of_raiseLastByte h
  rw [hc, hd]
  exact raises_last hlt front

theorem raises_of_raiseReversed {cs out : List Char} (h : raiseReversed cs = some out) :
    Raises (encoded out.reverse) (encoded cs.reverse) := by
  induction cs with
  | nil => cases h
  | cons c before ih =>
      rw [raiseReversed] at h
      rw [List.reverse_cons, encoded, encoded, List.flatMap_append]
      split at h
      next d hd =>
        cases h
        rw [List.reverse_cons, List.flatMap_append, List.flatMap_singleton,
          List.flatMap_singleton]
        exact (raises_of_raiseLastByte hd).append_left _
      next => exact (ih h).extend _

theorem raises_of_ofText {s t : String} (h : ofText s = some t) : Raises (utf8 t) (utf8 s) := by
  obtain ⟨out, hout, rfl⟩ := Option.map_eq_some_iff.mp h
  have hraises := raises_of_raiseReversed hout
  rwa [List.reverse_reverse, ← Utf8.utf8_eq_encoded, ← String.toList_ofList (l := out.reverse),
    ← Utf8.utf8_eq_encoded] at hraises

theorem exceeds_of_ofText {s t : String} (h : ofText s = some t) : Exceeds (utf8 t) (utf8 s) :=
  (raises_of_ofText h).exceeds

end QueryPlanner.Successor
