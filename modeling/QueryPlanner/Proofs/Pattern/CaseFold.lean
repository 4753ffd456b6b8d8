/-
  QueryPlanner.Proofs.Pattern.CaseFold

  Only letters differ in case.

  The runs of letters that fold, and the letters they fold to, leave out all
  of ASCII but its letters, so a character of ASCII that is no letter is
  matched by itself alone, with or without regard to case.
-/

import QueryPlanner.Pattern.CharSet
import QueryPlanner.Proofs.Text.Utf8

namespace QueryPlanner

namespace CaseFold

variable {n m : Nat} {r : Run}

/-- Code points of which none is an ASCII character other than a letter. -/
def AreLetters (lo hi : Int) : Prop :=
  (0x41 ≤ lo ∧ hi ≤ 0x5A) ∨ (0x61 ≤ lo ∧ hi ≤ 0x7A) ∨ (0x80 ≤ lo ∧ hi < 0xD800) ∨
    (0xE000 ≤ lo ∧ hi < 0x110000)

instance (lo hi : Int) : Decidable (AreLetters lo hi) := instDecidableOr

/-- A code point of one of these letters, or of any character above ASCII. -/
def IsLetter (n : Nat) : Prop := AreLetters n n

/-- Letters fold to letters. -/
theorem areLetters_runs :
    ∀ r ∈ runs, AreLetters r.lo r.hi ∧ AreLetters (r.lo + r.offset) (r.hi + r.offset) := by
  decide +kernel

theorem isLetter_of_contains (hr : r ∈ runs) (h : r.contains n = true) : IsLetter n := by
  obtain ⟨hrange, -⟩ := Bool.and_eq_true_iff.mp h
  have hbounds := of_decide_eq_true hrange
  have hletters := (areLetters_runs r hr).1
  simp only [IsLetter, AreLetters] at hletters ⊢
  omega

theorem isLetter_add_offset (hr : r ∈ runs) (h : r.contains n = true) :
    IsLetter (n + r.offset).toNat := by
  obtain ⟨hrange, -⟩ := Bool.and_eq_true_iff.mp h
  have hbounds := of_decide_eq_true hrange
  have hletters := (areLetters_runs r hr).2
  simp only [IsLetter, AreLetters] at hletters ⊢
  omega

/-- What differs from a code point in case only is a letter, or is the code
point itself. -/
theorem eq_or_isLetter_of_mem_variantCodes (h : m ∈ variantCodes n) : m = n ∨ IsLetter m := by
  obtain rfl | h := List.mem_cons.mp h
  · rw [fold]
    cases hfind : runs.find? (·.contains n) with
    | none => exact .inl rfl
    | some r =>
        exact .inr (isLetter_add_offset (List.mem_of_find?_eq_some hfind)
          (List.find?_some (p := fun r : Run => r.contains n) hfind))
  · obtain ⟨r, hr, hfolded⟩ := List.mem_filterMap.mp h
    rw [Run.folded?] at hfolded
    split at hfolded
    · rename_i hcontains
      cases hfolded
      exact .inr (isLetter_of_contains hr hcontains)
    · cases hfolded

theorem toNat_ofNat_of_isLetter (h : IsLetter n) : (Char.ofNat n).toNat = n := by
  simp only [IsLetter, AreLetters] at h
  exact Utf8.toNat_ofNat (by omega)

end CaseFold

namespace CharSet

variable {c d : Char}

theorem contains_only : (only c).contains d = true ↔ d = c := by
  rw [only, contains, Bool.and_eq_true, decide_eq_true_iff, decide_eq_true_iff]
  constructor
  · rintro ⟨hlow, hhigh⟩
    exact Char.le_antisymm hhigh hlow
  · rintro rfl
    exact ⟨Char.le_refl d, Char.le_refl d⟩

/-- A character of ASCII that is no letter has no other case. -/
theorem eq_of_contains_folded {anyCase : Bool}
    (hc : anyCase = true → ¬ CaseFold.IsLetter c.toNat)
    (h : ((only c).folded anyCase).contains d = true) : d = c := by
  cases anyCase with
  | false => exact contains_only.mp h
  | true =>
      obtain h | h := Bool.or_eq_true_iff.mp h
      · exact contains_only.mp h
      · obtain ⟨x, hx, hxc⟩ := List.any_eq_true.mp h
        obtain ⟨n, hn, rfl⟩ := List.mem_map.mp hx
        rw [contains_only] at hxc
        obtain rfl | hletter := CaseFold.eq_or_isLetter_of_mem_variantCodes hn
        · rw [← hxc, Char.ofNat_toNat]
        · refine absurd ?_ (hc rfl)
          rw [← hxc, CaseFold.toNat_ofNat_of_isLetter hletter]
          exact hletter

end CharSet

end QueryPlanner
