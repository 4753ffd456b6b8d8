/-
  QueryPlanner.Proofs.Datum.Preorder

  How far the comparison of values is an order.

  Each value is compared by a reading of its own: bytes from the left, a
  number, or an integer.  Two integers are compared exactly, and an integer
  with a number as doubles are.  Each of these is an order, and doubles keep
  that of the integers; but two integers that differ can have one double, and
  a number equal to it lies between them.  Where this happens the comparison
  is not transitive, and nowhere else.  It takes an integer of more than 53
  bits.
-/

import QueryPlanner.Proofs.Datum.Order
import QueryPlanner.Proofs.Number.Integers

namespace QueryPlanner

/-! ## Numbers -/

/-- A number that does not compare as greater is at most the other. -/
theorem Number.isLE_compare?_iff {α : Type} [Number α] [Ordered α] {x y : α} :
    (∃ o, compare? x y = some o ∧ o.isLE = true) ↔ x ≤ y := by
  have hlt := Ordered.lt_iff (a := x) (b := y)
  have hgt := Ordered.lt_iff (a := y) (b := x)
  simp only [compare?, equal_iff]
  by_cases hxy : x ≤ y <;> by_cases hyx : y ≤ x <;> simp [hlt, hgt, hxy, hyx]

namespace Datum

/-! ## Readings -/

/-- What a value is compared by: bytes, an integer, or a number, within its
family. -/
inductive Reading (α : Type) where
  | bytes (family : Family) (digits : List UInt8)
  | integer (n : Int)
  | number (family : Family) (x : α)

/-- The families of addresses by number. -/
def versionByte : Address → UInt8
  | .v4 _ => 4
  | .v6 _ => 6

section Readings

variable {α : Type} [Number α]

def reading : Datum α → Reading α
  | .bool v => .bytes .truth [if v then 1 else 0]
  | .text s => .bytes .text (utf8 s)
  | .char c => .bytes .byte [c]
  | .bytea b => .bytes .bytes b
  | .inet a bits => .bytes .address (versionByte a :: (a.octets ++ [bits]))
  | .macaddr bytes => .bytes .hardware bytes.toList
  | .int2 v => .integer v.toInt
  | .int4 v => .integer v.toInt
  | .int8 v => .integer v.toInt
  | .oid v => .integer v.toNat
  | .float4 v | .float8 v | .numeric v => .number .number v
  | .timestamp v => .number .instant v
  | .date days => .number .instant (Number.ofInt days.toInt * secondsPerDay)
  | .time v => .number .time v
  | .timetz t zone => .number .zonedTime (t + Number.ofInt zone.toInt)
  | .interval t months => .number .interval (intervalSeconds t months)

/-- Two integers compare exactly, and an integer compares with a number as
the nearest number. -/
def Reading.compare? : Reading α → Reading α → Option Ordering
  | .bytes f ds, .bytes g es => if f = g then some (compare ds es) else none
  | .integer m, .integer n => some (compare m n)
  | .integer m, .number g y => if g = .number then Number.compare? (Number.ofInt m) y else none
  | .number f x, .integer n => if f = .number then Number.compare? x (Number.ofInt n) else none
  | .number f x, .number g y => if f = g then Number.compare? x y else none
  | _, _ => none

theorem compare_versionByte (a b : Address) (bits bits' : UInt8) :
    compare (versionByte a :: (a.octets ++ [bits])) (versionByte b :: (b.octets ++ [bits'])) =
      (addressOrder a b).then (compare bits bits') := by
  rw [compare_cons]
  cases a <;> cases b
  case v4.v6 => rfl
  case v6.v4 => rfl
  all_goals
    rw [compare_append (by simp [Address.octets]), compare_singleton]
    rfl

theorem compare?_reading (a b : Datum α) :
    a.compare? b = a.reading.compare? b.reading := by
  cases a <;> cases b
  case bool.bool v w => cases v <;> cases w <;> rfl
  case inet.inet a bits b bits' => exact congrArg some (compare_versionByte a b bits bits').symm
  case char.char c d => exact congrArg some (compare_singleton c d).symm
  all_goals rfl

theorem integer?_eq_some_iff {d : Datum α} {n : Int} :
    d.integer? = some n ↔ d.reading = .integer n := by
  cases d <;> simp [integer?, reading]

/-- A number that is not exactly an integer. -/
theorem number?_eq_some_iff {d : Datum α} {x : α} :
    d.integer? = none ∧ d.number? = some x ↔ d.reading = .number .number x := by
  cases d <;> simp [integer?, number?, reading]

/-- The integer types have at most 64 bits. -/
theorem natAbs_lt_of_reading {d : Datum α} {n : Int} (h : d.reading = .integer n) :
    n.natAbs < 2 ^ 64 := by
  cases d <;> cases h
  case int2 v =>
      have hlow := v.le_toInt
      have hhigh := v.toInt_lt
      omega
  case int4 v =>
      have hlow := v.le_toInt
      have hhigh := v.toInt_lt
      omega
  case int8 v =>
      have hlow := v.le_toInt
      have hhigh := v.toInt_lt
      omega
  case oid v =>
      have hhigh := v.toNat_lt
      omega

end Readings

/-! ## The order of readings -/

namespace Reading

section Order

variable {α : Type} [Number α] {f g : Family} {ds es : List UInt8} {m n : Int} {x y : α}

/-- The first reading compares with the second, and not as greater. -/
def Le (r s : Reading α) : Prop := ∃ o, r.compare? s = some o ∧ o.isLE = true

theorem le_bytes_iff :
    Le (.bytes f ds : Reading α) (.bytes g es) ↔ f = g ∧ (compare ds es).isLE = true := by
  show (∃ o, (if f = g then some (compare ds es) else none) = some o ∧ o.isLE = true) ↔ _
  by_cases h : f = g <;> simp [h]

theorem le_integer_iff : Le (.integer m : Reading α) (.integer n) ↔ m ≤ n := by
  show (∃ o, some (compare m n) = some o ∧ o.isLE = true) ↔ m ≤ n
  simp [Std.isLE_compare]

@[simp] theorem not_le_bytes_integer : ¬ Le (.bytes f ds : Reading α) (.integer n) :=
  fun ⟨_, h, _⟩ => nomatch h

@[simp] theorem not_le_bytes_number : ¬ Le (.bytes f ds) (.number g y) :=
  fun ⟨_, h, _⟩ => nomatch h

@[simp] theorem not_le_integer_bytes : ¬ Le (.integer m : Reading α) (.bytes g es) :=
  fun ⟨_, h, _⟩ => nomatch h

@[simp] theorem not_le_number_bytes : ¬ Le (.number f x) (.bytes g es) :=
  fun ⟨_, h, _⟩ => nomatch h

variable [Number.Ordered α]

/-- Numbers of one family are compared. -/
theorem exists_compare?_iff {p : Prop} [Decidable p] :
    (∃ o, (if p then Number.compare? x y else none) = some o ∧ o.isLE = true) ↔ p ∧ x ≤ y := by
  by_cases h : p <;> simp [h, Number.isLE_compare?_iff]

theorem le_integer_number_iff :
    Le (.integer m) (.number g y) ↔ g = .number ∧ Number.ofInt m ≤ y :=
  exists_compare?_iff

theorem le_number_integer_iff :
    Le (.number f x) (.integer n) ↔ f = .number ∧ x ≤ Number.ofInt n :=
  exists_compare?_iff

theorem le_number_iff : Le (.number f x) (.number g y) ↔ f = g ∧ x ≤ y :=
  exists_compare?_iff

end Order

/-- Two integers, the first the greater, and a number between their doubles:
the doubles are one, and the number is equal to it. -/
def Tied (r s t : Reading Float) : Prop :=
  ∃ m n x, r = .integer m ∧ s = .number .number x ∧ t = .integer n ∧ n < m ∧
    Float.ofInt m ≤ x ∧ x ≤ Float.ofInt n

variable {r s t : Reading Float}

theorem Tied.not_le (h : Tied r s t) : ¬ Le r t := by
  obtain ⟨m, n, x, rfl, -, rfl, hlt, -⟩ := h
  rw [le_integer_iff]
  omega

/-- The order is transitive but for two integers tied by their doubles. -/
theorem Le.trans_or_tied (hr : ∀ n, r = .integer n → n.natAbs < 2 ^ 64)
    (hs : ∀ n, s = .integer n → n.natAbs < 2 ^ 64)
    (ht : ∀ n, t = .integer n → n.natAbs < 2 ^ 64) (hrs : Le r s) (hst : Le s t) :
    Le r t ∨ Tied r s t := by
  cases r <;> cases s <;> cases t
  case bytes.bytes.bytes f ds g es h gs =>
      obtain ⟨rfl, hde⟩ := le_bytes_iff.mp hrs
      obtain ⟨rfl, heg⟩ := le_bytes_iff.mp hst
      exact .inl (le_bytes_iff.mpr ⟨rfl, Std.TransCmp.isLE_trans hde heg⟩)
  case integer.integer.integer m k n =>
      exact .inl (le_integer_iff.mpr ((le_integer_iff.mp hrs).trans (le_integer_iff.mp hst)))
  case integer.integer.number m n f x =>
      obtain ⟨rfl, hnx⟩ := le_integer_number_iff.mp hst
      have hmn := Double.ofInt_le_ofInt (hr m rfl) (hs n rfl) (le_integer_iff.mp hrs)
      exact .inl (le_integer_number_iff.mpr ⟨rfl, Number.Ordered.le_trans hmn hnx⟩)
  case integer.number.integer m f x n =>
      -- Both integers are compared with the number, and not with each other.
      obtain ⟨rfl, hmx⟩ := le_integer_number_iff.mp hrs
      obtain ⟨-, hxn⟩ := le_number_integer_iff.mp hst
      rcases le_or_gt m n with hmn | hnm
      · exact .inl (le_integer_iff.mpr hmn)
      · exact .inr ⟨m, n, x, rfl, rfl, rfl, hnm, hmx, hxn⟩
  case integer.number.number m f x g y =>
      obtain ⟨rfl, hmx⟩ := le_integer_number_iff.mp hrs
      obtain ⟨rfl, hxy⟩ := le_number_iff.mp hst
      exact .inl (le_integer_number_iff.mpr ⟨rfl, Number.Ordered.le_trans hmx hxy⟩)
  case number.integer.integer f x m n =>
      obtain ⟨rfl, hxm⟩ := le_number_integer_iff.mp hrs
      have hmn := Double.ofInt_le_ofInt (hs m rfl) (ht n rfl) (le_integer_iff.mp hst)
      exact .inl (le_number_integer_iff.mpr ⟨rfl, Number.Ordered.le_trans hxm hmn⟩)
  case number.integer.number f x n g y =>
      obtain ⟨rfl, hxn⟩ := le_number_integer_iff.mp hrs
      obtain ⟨rfl, hny⟩ := le_integer_number_iff.mp hst
      exact .inl (le_number_iff.mpr ⟨rfl, Number.Ordered.le_trans hxn hny⟩)
  case number.number.integer f x g y n =>
      obtain ⟨rfl, hxy⟩ := le_number_iff.mp hrs
      obtain ⟨rfl, hyn⟩ := le_number_integer_iff.mp hst
      exact .inl (le_number_integer_iff.mpr ⟨rfl, Number.Ordered.le_trans hxy hyn⟩)
  case number.number.number f x g y h z =>
      obtain ⟨rfl, hxy⟩ := le_number_iff.mp hrs
      obtain ⟨rfl, hyz⟩ := le_number_iff.mp hst
      exact .inl (le_number_iff.mpr ⟨rfl, Number.Ordered.le_trans hxy hyz⟩)
  -- In all other cases bytes would compare with what is not bytes.
  all_goals simp at hrs hst

end Reading

/-! ## The order of values -/

/-- Two integers, the first the greater, that round to one double, and between
them a value that is no integer and equal to this double. -/
def RoundedTogether (a b c : Datum Float) : Prop :=
  ∃ m n x, a.integer? = some m ∧ c.integer? = some n ∧ n < m ∧
    b.integer? = none ∧ b.number? = some x ∧ Float.ofInt m ≤ x ∧ x ≤ Float.ofInt n

variable {a b c : Datum Float}

theorem roundedTogether_iff : RoundedTogether a b c ↔ a.reading.Tied b.reading c.reading := by
  simp only [RoundedTogether, Reading.Tied, ← integer?_eq_some_iff, ← number?_eq_some_iff]
  constructor
  · rintro ⟨m, n, x, hm, hn, hlt, hnone, hx, hmx, hxn⟩
    exact ⟨m, n, x, hm, ⟨hnone, hx⟩, hn, hlt, hmx, hxn⟩
  · rintro ⟨m, n, x, hm, ⟨hnone, hx⟩, hn, hlt, hmx, hxn⟩
    exact ⟨m, n, x, hm, hn, hlt, hnone, hx, hmx, hxn⟩

/-- It takes an integer of more than 53 bits. -/
theorem RoundedTogether.exists_large (h : RoundedTogether a b c) :
    ∃ n, (a.integer? = some n ∨ c.integer? = some n) ∧ 2 ^ 53 < n.natAbs := by
  obtain ⟨m, n, x, hm, hn, hlt, -, -, hmx, hxn⟩ := h
  by_contra hsmall
  simp only [not_exists, not_and, Nat.not_lt] at hsmall
  have hle := Double.le_of_ofInt_le_ofInt (hsmall m (.inl hm)) (hsmall n (.inr hn))
    (Number.Ordered.le_trans hmx hxn)
  omega

theorem le_reading_iff (h : (a.compare? b).isSome = true) :
    a.reading.Le b.reading ↔ a.compare? b ≠ some .gt := by
  obtain ⟨o, ho⟩ := Option.isSome_iff_exists.mp h
  simp only [Reading.Le, ← compare?_reading, ho, Option.some.injEq, exists_eq_left', ne_eq,
    Ordering.isLE_iff_ne_gt]

/-- Of three values in a row the first is greater than the last only if they
are rounded together. -/
theorem compare?_eq_gt_iff (hab : (a.compare? b).isSome = true)
    (hbc : (b.compare? c).isSome = true) (hac : (a.compare? c).isSome = true)
    (hle : a.compare? b ≠ some .gt) (hle' : b.compare? c ≠ some .gt) :
    a.compare? c = some .gt ↔ RoundedTogether a b c := by
  rw [roundedTogether_iff]
  have hchain := Reading.Le.trans_or_tied (fun _ => natAbs_lt_of_reading)
    (fun _ => natAbs_lt_of_reading) (fun _ => natAbs_lt_of_reading)
    ((le_reading_iff hab).mpr hle) ((le_reading_iff hbc).mpr hle')
  constructor
  · intro hgt
    exact hchain.resolve_left fun h => (le_reading_iff hac).mp h hgt
  · intro htied
    exact not_not.mp fun h => htied.not_le ((le_reading_iff hac).mpr h)

/-- Exchanging two values reverses how they compare.  The order is transitive
but where two integers are rounded together, and so is equality; and that takes
an integer of more than 53 bits. -/
theorem compare?_preorder (hab : (a.compare? b).isSome = true)
    (hbc : (b.compare? c).isSome = true) (hac : (a.compare? c).isSome = true) :
    b.compare? a = (a.compare? b).map Ordering.swap ∧
    (a.compare? b ≠ some .gt → b.compare? c ≠ some .gt →
      (a.compare? c = some .gt ↔ RoundedTogether a b c)) ∧
    (a.compare? b = some .eq → b.compare? c = some .eq →
      (a.compare? c = some .eq ↔ ¬ RoundedTogether a b c ∧ ¬ RoundedTogether c b a)) ∧
    (RoundedTogether a b c →
      ∃ n, (a.integer? = some n ∨ c.integer? = some n) ∧ 2 ^ 53 < n.natAbs) := by
  refine ⟨compare?_swap a b, compare?_eq_gt_iff hab hbc hac, fun heq heq' => ?_,
    RoundedTogether.exists_large⟩
  have hba : b.compare? a = some .eq := by rw [compare?_swap a b, heq]; rfl
  have hcb : c.compare? b = some .eq := by rw [compare?_swap b c, heq']; rfl
  have hca : c.compare? a = (a.compare? c).map Ordering.swap := compare?_swap a c
  have hgt := compare?_eq_gt_iff hab hbc hac (by rw [heq]; decide) (by rw [heq']; decide)
  obtain ⟨o, ho⟩ := Option.isSome_iff_exists.mp hac
  have hlt := compare?_eq_gt_iff (a := c) (b := b) (c := a) (by rw [hcb]; rfl) (by rw [hba]; rfl)
    (by rw [hca, ho]; rfl) (by rw [hcb]; decide) (by rw [hba]; decide)
  rw [← hgt, ← hlt, hca, ho]
  cases o <;> decide

/-- Small integers and fractions are ordered. -/
theorem compare?_preorder_twoAndHalf :
    (Datum.int4 2 : Datum Float).compare? (.float8 2.5) = some .lt ∧
    (Datum.float8 2.5 : Datum Float).compare? (.int8 3) = some .lt ∧
    (Datum.int4 2 : Datum Float).compare? (.int8 3) ≠ some .gt := by
  have hab : (Datum.int4 2 : Datum Float).compare? (.float8 2.5) = some .lt := by decide +kernel
  have hbc : (Datum.float8 2.5 : Datum Float).compare? (.int8 3) = some .lt := by decide +kernel
  have hac : ((Datum.int4 2 : Datum Float).compare? (.int8 3)).isSome = true := rfl
  obtain ⟨-, hle, -, hlarge⟩ := compare?_preorder (by rw [hab]; rfl) (by rw [hbc]; rfl) hac
  refine ⟨hab, hbc, fun hgt => ?_⟩
  obtain ⟨n, hn, hbig⟩ := hlarge ((hle (by rw [hab]; decide) (by rw [hbc]; decide)).mp hgt)
  rcases hn with hn | hn <;> cases hn <;> revert hbig <;> decide

/-- The first integer that a double cannot hold is equal to one that is equal
to the integer before. -/
theorem compare?_not_transitive :
    (Datum.int8 9007199254740993 : Datum Float).compare? (.float8 9007199254740992) = some .eq ∧
    (Datum.float8 9007199254740992 : Datum Float).compare? (.int8 9007199254740992) = some .eq ∧
    (Datum.int8 9007199254740993 : Datum Float).compare? (.int8 9007199254740992) = some .gt := by
  decide +kernel

end Datum

end QueryPlanner
