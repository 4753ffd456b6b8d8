/-
  QueryPlanner.Proofs.Pattern.Regex.Meaning

  What a regular expression matches.

  `Regex.Spans` is the textbook meaning: an expression matches the text from
  one place to another.  Following an expression by marks decides just that:
  the marks behind some symbols are the characters of the expression with
  which a reading of the text so far can end, wherever it began.
-/

import Mathlib.Data.List.Basic
import Mathlib.Order.Nat
import QueryPlanner.Pattern.Regex
import QueryPlanner.Proofs.Pattern.RegexEngine

namespace QueryPlanner.Regex

/-! ## Repetition -/

section Repetition

variable {R R' : Nat → Nat → Prop} {m n i j k : Nat}

theorem repeats_one : Repeats R 1 i j ↔ R i j := by
  constructor
  · rintro ⟨k, hik, rfl⟩
    exact hik
  · exact fun h => ⟨j, h, rfl⟩

theorem repeats_add :
    Repeats R (m + n) i j ↔ ∃ k, Repeats R m i k ∧ Repeats R n k j := by
  induction m generalizing i with
  | zero =>
      rw [Nat.zero_add]
      constructor
      · exact fun h => ⟨i, rfl, h⟩
      · rintro ⟨k, rfl, h⟩
        exact h
  | succ m ih =>
      rw [Nat.succ_add]
      constructor
      · rintro ⟨k, hik, hkj⟩
        obtain ⟨l, hkl, hlj⟩ := ih.mp hkj
        exact ⟨l, ⟨k, hik, hkl⟩, hlj⟩
      · rintro ⟨l, ⟨k, hik, hkl⟩, hlj⟩
        exact ⟨k, hik, ih.mpr ⟨l, hkl, hlj⟩⟩

theorem repeats_congr (h : ∀ i j, R i j ↔ R' i j) : Repeats R n i j ↔ Repeats R' n i j := by
  induction n generalizing i with
  | zero => exact Iff.rfl
  | succ n ih => exact exists_congr fun k => and_congr (h i k) ih

theorem le_of_repeats (hR : ∀ i j, R i j → i ≤ j) (h : Repeats R n i j) : i ≤ j := by
  induction n generalizing i with
  | zero => exact h.le
  | succ n ih =>
      obtain ⟨k, hik, hkj⟩ := h
      exact (hR i k hik).trans (ih hkj)

/-- The last repetition that moves on is found behind some others. -/
theorem last_of_repeats (hR : ∀ i j, R i j → i ≤ j) (h : Repeats R n i j) (hij : i < j) :
    ∃ k m, i ≤ k ∧ k < j ∧ Repeats R m i k ∧ R k j := by
  induction n with
  | zero => exact absurd h hij.ne
  | succ n ih =>
      obtain ⟨k, hik, hkj⟩ := repeats_add.mp h
      rw [repeats_one] at hkj
      obtain hlt | rfl := (hR k j hkj).lt_or_eq
      · exact ⟨k, n, le_of_repeats hR hik, hlt, hik, hkj⟩
      · exact ih hik

/-- Repetitions that may be left out are fewer repetitions. -/
theorem repeats_or_eq :
    Repeats (fun i j => R i j ∨ i = j) n i j ↔ ∃ m, m ≤ n ∧ Repeats R m i j := by
  induction n generalizing i with
  | zero =>
      constructor
      · exact fun h => ⟨0, le_refl 0, h⟩
      · rintro ⟨m, hm, h⟩
        obtain rfl := Nat.le_zero.mp hm
        exact h
  | succ n ih =>
      constructor
      · rintro ⟨k, hik | rfl, hkj⟩
        · obtain ⟨m, hm, h⟩ := ih.mp hkj
          exact ⟨m + 1, Nat.succ_le_succ hm, k, hik, h⟩
        · obtain ⟨m, hm, h⟩ := ih.mp hkj
          exact ⟨m, Nat.le_succ_of_le hm, h⟩
      · rintro ⟨m, hm, h⟩
        cases m with
        | zero => exact ⟨i, .inr rfl, ih.mpr ⟨0, Nat.zero_le n, h⟩⟩
        | succ m =>
            obtain ⟨k, hik, hkj⟩ := h
            exact ⟨k, .inl hik, ih.mpr ⟨m, Nat.le_of_succ_le_succ hm, hkj⟩⟩

/-- What stays where it is is repeated as well as done once. -/
theorem repeats_of_eq (hR : ∀ i j, R i j → i = j) (hn : 0 < n) : Repeats R n i j ↔ R i j := by
  induction n generalizing i with
  | zero => cases hn
  | succ n ih =>
      cases n with
      | zero => exact repeats_one
      | succ n =>
          constructor
          · rintro ⟨k, hik, hkj⟩
            obtain rfl := hR i k hik
            exact (ih (Nat.succ_pos n)).mp hkj
          · intro h
            obtain rfl := hR i j h
            exact ⟨i, h, (ih (Nat.succ_pos n)).mpr h⟩

end Repetition

/-! ## Meaning -/

/-- The expression matches the text from one place to another. -/
def Spans (text : List Symbol) : Regex → Nat → Nat → Prop
  | .empty, i, j => i = j
  | .start, i, j => i = j ∧ i = 0
  | .stop, i, j => i = j ∧ i = text.length
  | .set s, i, j => j = i + 1 ∧ ∃ c, text[i]? = some (some c) ∧ s.contains c = true
  | .seq a b, i, j => ∃ k, Spans text a i k ∧ Spans text b k j
  | .alt a b, i, j => Spans text a i j ∨ Spans text b i j
  | .times a lo hi, i, j => ∃ n, Admits lo hi n ∧ Repeats (Spans text a) n i j
  | .group a, i, j => Spans text a i j

/-- No repetition has an upper bound below its lower bound. -/
def IsBounded : Regex → Prop
  | .empty | .start | .stop | .set _ => True
  | .seq a b | .alt a b => a.IsBounded ∧ b.IsBounded
  | .times a lo hi => a.IsBounded ∧ ∀ m ∈ hi, lo ≤ m
  | .group a => a.IsBounded

variable {text : List Symbol} {r a : Regex} {i j : Nat}

theorem Spans.le (h : r.Spans text i j) : i ≤ j := by
  induction r generalizing i j with
  | empty => exact h.le
  | start | stop => exact h.1.le
  | set => exact h.1 ▸ Nat.le_succ i
  | seq a b iha ihb =>
      obtain ⟨k, ha, hb⟩ := h
      exact (iha ha).trans (ihb hb)
  | alt a b iha ihb => exact h.elim iha ihb
  | times a lo hi ih =>
      obtain ⟨n, -, h⟩ := h
      exact le_of_repeats (fun _ _ => ih) h
  | group a ih => exact ih h

/-- What matches no text but the empty one matches from a place to itself. -/
theorem Spans.eq_of_isZeroWidth (hr : r.isZeroWidth = true) (h : r.Spans text i j) : i = j := by
  induction r generalizing i j with
  | empty => exact h
  | start | stop => exact h.1
  | set => cases hr
  | seq a b iha ihb =>
      rw [isZeroWidth, Bool.and_eq_true] at hr
      obtain ⟨k, ha, hb⟩ := h
      exact (iha hr.1 ha).trans (ihb hr.2 hb)
  | alt a b iha ihb =>
      rw [isZeroWidth, Bool.and_eq_true] at hr
      exact h.elim (iha hr.1) (ihb hr.2)
  | times a lo hi ih =>
      rw [isZeroWidth, Bool.or_eq_true, beq_iff_eq] at hr
      obtain ⟨n, ⟨-, hhi⟩, h⟩ := h
      obtain ha | rfl := hr
      · clear hhi
        induction n generalizing i with
        | zero => exact h
        | succ n ihn =>
            obtain ⟨k, hik, hkj⟩ := h
            exact (ih ha hik).trans (ihn hkj)
      · obtain rfl : n = 0 := Nat.le_zero.mp (hhi 0 rfl)
        exact h
  | group a ih => exact ih hr h

/-- Some expressions match the text one behind the other. -/
def SpansAll (text : List Symbol) : List Regex → Nat → Nat → Prop
  | [], i, j => i = j
  | r :: rs, i, j => ∃ k, r.Spans text i k ∧ SpansAll text rs k j

theorem spans_concat {rs : List Regex} : (concat rs).Spans text i j ↔ SpansAll text rs i j := by
  fun_induction concat rs generalizing i with
  | case1 => exact Iff.rfl
  | case2 r =>
      constructor
      · exact fun h => ⟨j, h, rfl⟩
      · rintro ⟨k, h, rfl⟩
        exact h
  | case3 r rest _ ih => exact exists_congr fun k => and_congr_right fun _ => ih

/-! ## Repetitions written out -/

namespace Marked

/-- The meaning of an expression with marks, which do not count. -/
def Spans (text : List Symbol) : Marked → Nat → Nat → Prop
  | .empty, i, j => i = j
  | .start, i, j => i = j ∧ i = 0
  | .stop, i, j => i = j ∧ i = text.length
  | .set s _, i, j => j = i + 1 ∧ ∃ c, text[i]? = some (some c) ∧ s.contains c = true
  | .seq a b, i, j => ∃ k, Spans text a i k ∧ Spans text b k j
  | .alt a b, i, j => Spans text a i j ∨ Spans text b i j
  | .star a, i, j => ∃ n, Repeats (Spans text a) n i j

theorem spans_power (a : Marked) (n : Nat) :
    (a.power n).Spans text i j ↔ Repeats (a.Spans text) n i j := by
  fun_induction power a n generalizing i j with
  | case1 => exact Iff.rfl
  | case2 n hle hne =>
      obtain rfl : n = 1 := by omega
      exact repeats_one.symm
  | case3 n hle ihfront ihback =>
      have hsum : n / 2 + (n - n / 2) = n := by omega
      rw [← hsum, repeats_add]
      simp only [hsum]
      exact exists_congr fun k => and_congr ihfront ihback

/-- A repetition written out, up to an upper bound if there is one. -/
def repetition (once : Marked) (lo : Nat) : Option Nat → Marked
  | none => .seq (once.power lo) (.star once)
  | some hi => .seq (once.power lo) (once.orEmpty.power (hi - lo))

theorem spans_repetition (once : Marked) {lo : Nat} {hi : Option Nat} (h : ∀ m ∈ hi, lo ≤ m) :
    (once.repetition lo hi).Spans text i j ↔
      ∃ n, Admits lo hi n ∧ Repeats (once.Spans text) n i j := by
  cases hi with
  | none =>
      constructor
      · rintro ⟨k, hfront, n, hback⟩
        exact ⟨lo + n, ⟨Nat.le_add_right lo n, nofun⟩,
          repeats_add.mpr ⟨k, (spans_power once lo).mp hfront, hback⟩⟩
      · rintro ⟨n, ⟨hlo, -⟩, hn⟩
        rw [← Nat.add_sub_cancel' hlo] at hn
        obtain ⟨k, hfront, hback⟩ := repeats_add.mp hn
        exact ⟨k, (spans_power once lo).mpr hfront, n - lo, hback⟩
  | some hi =>
      have hlo : lo ≤ hi := h hi rfl
      constructor
      · rintro ⟨k, hfront, hback⟩
        obtain ⟨n, hn, hback⟩ := repeats_or_eq.mp ((spans_power once.orEmpty (hi - lo)).mp hback)
        refine ⟨lo + n, ⟨Nat.le_add_right lo n, ?_⟩,
          repeats_add.mpr ⟨k, (spans_power once lo).mp hfront, hback⟩⟩
        rintro m ⟨⟩
        omega
      · rintro ⟨n, ⟨hlo, hhi⟩, hn⟩
        have hle : n - lo ≤ hi - lo := Nat.sub_le_sub_right (hhi hi rfl) lo
        rw [← Nat.add_sub_cancel' hlo] at hn
        obtain ⟨k, hfront, hback⟩ := repeats_add.mp hn
        exact ⟨k, (spans_power once lo).mpr hfront, (spans_power once.orEmpty (hi - lo)).mpr
          (repeats_or_eq.mpr ⟨n - lo, hle, hback⟩)⟩

end Marked

theorem unmarked_times (a : Regex) (lo : Nat) (hi : Option Nat) :
    (Regex.times a lo hi).unmarked =
      a.unmarked.repetition (boundsOf a lo hi).1 (boundsOf a lo hi).2 := by
  rw [unmarked]
  split <;> simp only [*, Marked.repetition]

/-- Where one repetition does as well as more, more are not needed. -/
theorem exists_repeats_boundsOf (a : Regex) {lo : Nat} {hi : Option Nat} (h : ∀ m ∈ hi, lo ≤ m) :
    (∃ n, Admits (boundsOf a lo hi).1 (boundsOf a lo hi).2 n ∧ Repeats (a.Spans text) n i j) ↔
      ∃ n, Admits lo hi n ∧ Repeats (a.Spans text) n i j := by
  rw [boundsOf]
  split
  · rename_i hzero
    have hstay : ∀ i j, a.Spans text i j → i = j := fun _ _ => Spans.eq_of_isZeroWidth hzero
    constructor
    · rintro ⟨n, ⟨hlo, hhi⟩, hn⟩
      have hone : n ≤ min (hi.getD 1) 1 := hhi _ rfl
      cases n with
      | zero => exact ⟨0, ⟨by omega, fun _ _ => Nat.zero_le _⟩, hn⟩
      | succ n =>
          -- A match that stays where it is can be repeated as often as is asked.
          have hspan := (repeats_of_eq hstay (Nat.succ_pos n)).mp hn
          refine ⟨max lo 1, ⟨Nat.le_max_left lo 1, ?_⟩, (repeats_of_eq hstay (by omega)).mpr hspan⟩
          rintro m ⟨⟩
          have hm : n + 1 ≤ min m 1 := hone
          have hlom : lo ≤ m := h m rfl
          omega
    · rintro ⟨n, ⟨hlo, hhi⟩, hn⟩
      cases n with
      | zero =>
          obtain rfl : lo = 0 := by omega
          exact ⟨0, ⟨Nat.min_le_left 0 1, fun _ _ => Nat.zero_le _⟩, hn⟩
      | succ n =>
          have hspan := (repeats_of_eq hstay (Nat.succ_pos n)).mp hn
          refine ⟨1, ⟨Nat.min_le_right lo 1, ?_⟩, repeats_one.mpr hspan⟩
          rintro m ⟨⟩
          cases hi with
          | none => exact le_refl 1
          | some hi =>
              have hm : n + 1 ≤ hi := hhi hi rfl
              show 1 ≤ min hi 1
              omega
  · exact Iff.rfl

theorem le_boundsOf (a : Regex) {lo : Nat} {hi : Option Nat} (h : ∀ m ∈ hi, lo ≤ m) :
    ∀ m ∈ (boundsOf a lo hi).2, (boundsOf a lo hi).1 ≤ m := by
  rw [boundsOf]
  split
  · rintro m ⟨⟩
    cases hi with
    | none => exact Nat.le_min.mpr ⟨Nat.min_le_right lo 1, Nat.min_le_right lo 1⟩
    | some hi =>
        have hlo : lo ≤ hi := h hi rfl
        show min lo 1 ≤ min hi 1
        omega
  · exact h

/-- Writing the repetitions out changes nothing. -/
theorem spans_unmarked (hr : r.IsBounded) : r.unmarked.Spans text i j ↔ r.Spans text i j := by
  induction r generalizing i j with
  | empty | start | stop | set => exact Iff.rfl
  | seq a b iha ihb => exact exists_congr fun k => and_congr (iha hr.1) (ihb hr.2)
  | alt a b iha ihb => exact or_congr (iha hr.1) (ihb hr.2)
  | times a lo hi ih =>
      rw [unmarked_times, Marked.spans_repetition _ (le_boundsOf a hr.2), Spans,
        ← exists_repeats_boundsOf a hr.2]
      exact exists_congr fun n => and_congr_right fun _ => repeats_congr fun i j => ih hr.1
  | group a ih => exact ih hr

/-! ## Marks -/

namespace Marked

variable {m : Marked} {p : Place} {entered : Bool} {E : Nat → Prop}

theorem Spans.le (h : m.Spans text i j) : i ≤ j := by
  induction m generalizing i j with
  | empty => exact h.le
  | start | stop => exact h.1.le
  | set => exact h.1 ▸ Nat.le_succ i
  | seq a b iha ihb =>
      obtain ⟨k, ha, hb⟩ := h
      exact (iha ha).trans (ihb hb)
  | alt a b iha ihb => exact h.elim iha ihb
  | star a ih =>
      obtain ⟨n, h⟩ := h
      exact le_of_repeats (fun _ _ => ih) h

/-- A match from one of the entries up to a place. -/
def Reaches (text : List Symbol) (m : Marked) (E : Nat → Prop) (i : Nat) : Prop :=
  ∃ k, k ≤ i ∧ E k ∧ m.Spans text k i

/-- The place of an index in the text, as anchors see it. -/
def IsPlace (text : List Symbol) (p : Place) (i : Nat) : Prop :=
  (p.atStart = true ↔ i = 0) ∧ (p.atStop = true ↔ i = text.length)

/-- The marks before the symbol at `i` are right for entries at the places
`E` before it: a character is marked when a match of it ends there. -/
def Marks (text : List Symbol) (i : Nat) : (Nat → Prop) → Marked → Prop
  | E, .set s marked => marked = true ↔ ∃ k, k < i ∧ E k ∧ (Marked.set s marked).Spans text k i
  | E, .seq a b => Marks text i E a ∧ Marks text i (Reaches text a E) b
  | E, .alt a b => Marks text i E a ∧ Marks text i E b
  | E, .star a => Marks text i (Reaches text (.star a) E) a
  | _, .empty | _, .start | _, .stop => True

/-- What matches only the empty text has no match from an entry before. -/
theorem exits_iff_of_stays {b : Bool} (hstay : ∀ k, m.Spans text k i → k = i)
    (hb : b = true ↔ entered = true ∧ m.Spans text i i) :
    b = true ↔ (entered = true ∧ m.Spans text i i) ∨ ∃ k, k < i ∧ E k ∧ m.Spans text k i := by
  rw [hb, or_iff_left]
  rintro ⟨k, hk, -, hspan⟩
  exact absurd (hstay k hspan) hk.ne

/-- What leaves the expression at a place is a match from there, if it is
entered there, or from an entry before. -/
theorem exits_iff (hp : IsPlace text p i) (hm : Marks text i E m) :
    exits p entered m = true ↔
      (entered = true ∧ m.Spans text i i) ∨ ∃ k, k < i ∧ E k ∧ m.Spans text k i := by
  induction m generalizing E entered with
  | empty => exact exits_iff_of_stays (fun _ h => h) (iff_self_and.mpr fun _ => rfl)
  | start =>
      refine exits_iff_of_stays (fun _ h => h.1) ?_
      rw [exits, Bool.and_eq_true, hp.1]
      exact and_congr_right fun _ => (and_iff_right rfl).symm
  | stop =>
      refine exits_iff_of_stays (fun _ h => h.1) ?_
      rw [exits, Bool.and_eq_true, hp.2]
      exact and_congr_right fun _ => (and_iff_right rfl).symm
  | set s marked =>
      rw [exits, or_iff_right]
      · exact hm
      · rintro ⟨-, h, -⟩
        exact absurd h (Nat.succ_ne_self i).symm
  | seq a b iha ihb =>
      rw [exits, ihb hm.2, iha hm.1]
      -- `b` is entered where a match of `a` ends: at `i` itself, or before it.
      constructor
      · rintro (⟨⟨he, ha⟩ | ⟨k, hk, hE, ha⟩, hb⟩ | ⟨k, hk, ⟨k₀, hk₀, hE, ha⟩, hb⟩)
        · exact .inl ⟨he, i, ha, hb⟩
        · exact .inr ⟨k, hk, hE, i, ha, hb⟩
        · exact .inr ⟨k₀, hk₀.trans_lt hk, hE, k, ha, hb⟩
      · rintro (⟨he, k, ha, hb⟩ | ⟨k₀, hk₀, hE, k, ha, hb⟩)
        · obtain rfl : i = k := le_antisymm ha.le hb.le
          exact .inl ⟨.inl ⟨he, ha⟩, hb⟩
        · obtain hlt | rfl := hb.le.lt_or_eq
          · exact .inr ⟨k, hlt, ⟨k₀, ha.le, hE, ha⟩, hb⟩
          · exact .inl ⟨.inr ⟨k₀, hk₀, hE, ha⟩, hb⟩
  | alt a b iha ihb =>
      rw [exits, Bool.or_eq_true, iha hm.1, ihb hm.2]
      constructor
      · rintro ((⟨he, h⟩ | ⟨k, hk, hE, h⟩) | ⟨he, h⟩ | ⟨k, hk, hE, h⟩)
        · exact .inl ⟨he, .inl h⟩
        · exact .inr ⟨k, hk, hE, .inl h⟩
        · exact .inl ⟨he, .inr h⟩
        · exact .inr ⟨k, hk, hE, .inr h⟩
      · rintro (⟨he, h | h⟩ | ⟨k, hk, hE, h | h⟩)
        · exact .inl (.inl ⟨he, h⟩)
        · exact .inr (.inl ⟨he, h⟩)
        · exact .inl (.inr ⟨k, hk, hE, h⟩)
        · exact .inr (.inr ⟨k, hk, hE, h⟩)
  | star a ih =>
      rw [exits, Bool.or_eq_true, ih hm]
      constructor
      · rintro (he | ⟨he, -⟩ | ⟨k, hk, ⟨k₀, hk₀, hE, n, hn⟩, hspan⟩)
        · exact .inl ⟨he, 0, rfl⟩
        · exact .inl ⟨he, 0, rfl⟩
        · exact .inr ⟨k₀, hk₀.trans_lt hk, hE, n + 1,
            repeats_add.mpr ⟨k, hn, repeats_one.mpr hspan⟩⟩
      · rintro (⟨he, -⟩ | ⟨k₀, hk₀, hE, n, hn⟩)
        · exact .inl he
        · -- The last repetition that moves on is entered before `i`.
          obtain ⟨k, n', hle, hlt, hfront, hlast⟩ := last_of_repeats (fun _ _ => Spans.le) hn hk₀
          exact .inr (.inr ⟨k, hlt, ⟨k₀, hle, hE, n', hfront⟩, hlast⟩)

/-- With the entry of the place itself among the entries, what leaves is what
they reach. -/
theorem exits_iff_reaches (hp : IsPlace text p i) (hm : Marks text i E m)
    (he : entered = true ↔ E i) : exits p entered m = true ↔ Reaches text m E i := by
  rw [exits_iff hp hm, he]
  constructor
  · rintro (⟨hE, hspan⟩ | ⟨k, hk, hE, hspan⟩)
    · exact ⟨i, le_refl i, hE, hspan⟩
    · exact ⟨k, hk.le, hE, hspan⟩
  · rintro ⟨k, hk, hE, hspan⟩
    obtain hlt | rfl := hk.lt_or_eq
    · exact .inr ⟨k, hlt, hE, hspan⟩
    · exact .inl ⟨hE, hspan⟩

/-- Marks do not change the meaning. -/
theorem spans_advance (p : Place) (x : Symbol) (entered : Bool) (m : Marked) :
    (advance p x entered m).Spans text = m.Spans text := by
  induction m generalizing entered with
  | empty | start | stop | set => rfl
  | seq a b iha ihb =>
      funext i j
      rw [advance, Spans, iha, ihb]
      rfl
  | alt a b iha ihb =>
      funext i j
      rw [advance, Spans, iha, ihb]
      rfl
  | star a ih =>
      funext i j
      rw [advance, Spans, ih]
      rfl

theorem reaches_advance (p : Place) (x : Symbol) (entered : Bool) (m : Marked) :
    Reaches text (advance p x entered m) = Reaches text m := by
  funext E i
  rw [Reaches, spans_advance]
  rfl

/-- A symbol moves the marks on. -/
theorem marks_advance {x : Symbol} (hp : IsPlace text p i) (hx : text[i]? = some x)
    (hm : Marks text i E m) (he : entered = true ↔ E i) :
    Marks text (i + 1) E (advance p x entered m) := by
  induction m generalizing E entered with
  | empty | start | stop => trivial
  | set s marked =>
      rw [advance, Marks, Bool.and_eq_true, Option.any_eq_true, he]
      constructor
      · rintro ⟨hE, c, rfl, hc⟩
        exact ⟨i, Nat.lt_succ_self i, hE, rfl, c, hx, hc⟩
      · rintro ⟨k, -, hE, hk, c, hread, hc⟩
        obtain rfl : i = k := Nat.succ_injective hk
        exact ⟨hE, c, Option.some.inj (hx.symm.trans hread), hc⟩
  | seq a b iha ihb =>
      rw [advance, Marks, reaches_advance]
      exact ⟨iha hm.1 he, ihb hm.2 (exits_iff_reaches hp hm.1 he)⟩
  | alt a b iha ihb => exact ⟨iha hm.1 he, ihb hm.2 he⟩
  | star a ih =>
      have hstar : Reaches text (.star (advance p x (entered || exits p entered a) a)) E =
          Reaches text (.star a) E :=
        congrFun (reaches_advance p x entered (.star a)) E
      rw [advance, Marks, hstar]
      exact ih hm (exits_iff_reaches (m := .star a) hp hm he)

/-- No character is marked, as before the first symbol. -/
def IsBlank (text : List Symbol) (m : Marked) : Prop := ∀ E, Marks text 0 E m

theorem isBlank_power (h : IsBlank text m) (n : Nat) : IsBlank text (m.power n) := by
  fun_induction power m n with
  | case1 => exact fun _ => trivial
  | case2 => exact h
  | case3 n _ ihfront ihback => exact fun E => ⟨ihfront E, ihback _⟩

theorem isBlank_repetition (h : IsBlank text m) (lo : Nat) (hi : Option Nat) :
    IsBlank text (m.repetition lo hi) := by
  have horEmpty : IsBlank text m.orEmpty := fun E => ⟨h E, trivial⟩
  cases hi with
  | none => exact fun E => ⟨isBlank_power h lo E, h _⟩
  | some hi => exact fun E => ⟨isBlank_power h lo E, isBlank_power horEmpty (hi - lo) _⟩

theorem isBlank_unmarked (text : List Symbol) (r : Regex) : IsBlank text r.unmarked := by
  induction r with
  | empty | start | stop => exact fun _ => trivial
  | set s =>
      refine fun E => iff_of_false Bool.false_ne_true ?_
      rintro ⟨k, hk, -⟩
      exact absurd hk (Nat.not_lt_zero k)
  | seq a b iha ihb => exact fun E => ⟨iha E, ihb _⟩
  | alt a b iha ihb => exact fun E => ⟨iha E, ihb E⟩
  | times a lo hi ih =>
      rw [unmarked_times]
      exact isBlank_repetition ih _ _
  | group a ih => exact ih

/-- Following the marks from a place on finds the matches that end there or
behind. -/
theorem matchesFrom_iff {rest : List Symbol} (hrest : text.drop i = rest) (hi : i ≤ text.length)
    (hm : Marks text i (fun _ => True) m) :
    m.matchesFrom (decide (i = 0)) rest = true ↔
      ∃ j, i ≤ j ∧ j ≤ text.length ∧ Reaches text m (fun _ => True) j := by
  induction rest generalizing i m with
  | nil =>
      have hend : i = text.length := le_antisymm hi (List.drop_eq_nil_iff.mp hrest)
      have hplace : IsPlace text ⟨decide (i = 0), true⟩ i :=
        ⟨decide_eq_true_iff, iff_of_true rfl hend⟩
      rw [matchesFrom, exits_iff_reaches hplace hm (iff_of_true rfl trivial)]
      constructor
      · exact fun h => ⟨i, le_refl i, hi, h⟩
      · rintro ⟨j, hij, hj, h⟩
        obtain rfl : i = j := le_antisymm hij (hend ▸ hj)
        exact h
  | cons x rest ih =>
      have hlt : i < text.length := by
        have hlength := congrArg List.length hrest
        rw [List.length_drop, List.length_cons] at hlength
        omega
      have hx : text[i]? = some x := by
        rw [← List.head?_drop, hrest]
        rfl
      have hplace : IsPlace text ⟨decide (i = 0), false⟩ i :=
        ⟨decide_eq_true_iff, iff_of_false Bool.false_ne_true hlt.ne⟩
      have hrest' : text.drop (i + 1) = rest := by
        rw [← List.drop_drop, hrest]
        rfl
      have hmarks := marks_advance hplace hx hm (iff_of_true (Eq.refl true) trivial)
      have hlater := ih hrest' hlt hmarks
      rw [decide_eq_false (Nat.succ_ne_zero i), reaches_advance] at hlater
      rw [matchesFrom, Bool.or_eq_true, hlater,
        exits_iff_reaches hplace hm (iff_of_true rfl trivial)]
      constructor
      · rintro (h | ⟨j, hij, hj, h⟩)
        · exact ⟨i, le_refl i, hi, h⟩
        · exact ⟨j, Nat.le_of_succ_le hij, hj, h⟩
      · rintro ⟨j, hij, hj, h⟩
        obtain hlt | rfl := hij.lt_or_eq
        · exact .inr ⟨j, hlt, hj, h⟩
        · exact .inl h

end Marked

/-- A search decides whether the expression matches somewhere in the text. -/
theorem search_iff (hr : r.IsBounded) :
    r.search text = true ↔ ∃ i j, j ≤ text.length ∧ r.Spans text i j := by
  have hsearch := Marked.matchesFrom_iff (i := 0) (m := r.unmarked) List.drop_zero
    (Nat.zero_le text.length) (Marked.isBlank_unmarked text r _)
  rw [decide_eq_true rfl] at hsearch
  rw [search, hsearch]
  constructor
  · rintro ⟨j, -, hj, i, -, -, hspan⟩
    exact ⟨i, j, hj, (spans_unmarked hr).mp hspan⟩
  · rintro ⟨i, j, hj, hspan⟩
    exact ⟨j, Nat.zero_le j, hj, i, hspan.le, trivial, (spans_unmarked hr).mpr hspan⟩

end QueryPlanner.Regex
