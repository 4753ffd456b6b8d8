/-
  QueryPlanner.Decimal

  Decimal text of binary floating point values.

  A finite value is `m * 2 ^ q`, hence a whole number over a power of ten, so
  every digit asked for here is found in exact arithmetic.  Two texts are
  written: the shortest digits that still read back as the value, always in
  positional notation, and a fixed number of places.
-/

namespace QueryPlanner.Decimal

/-! ## Dyadic values -/

/-- A binary interchange format: the bits of a significand, and the exponent
of its smallest positive value as a power of two below one. -/
structure Format where
  precision : Nat
  depth : Nat

/-- Sixty-four bit values. -/
def double : Format := ⟨53, 1074⟩

/-- Thirty-two bit values. -/
def single : Format := ⟨24, 149⟩

/-- The value `m * 2 ^ q`. -/
structure Dyadic where
  m : Nat
  q : Int

/-- The bits of `m`. -/
def bitLength (m : Nat) : Nat := if m = 0 then 0 else m.log2 + 1

/-- The same value on the grid of a format that contains it. -/
def Dyadic.align (f : Format) (x : Dyadic) : Dyadic :=
  let q : Int := max (-(f.depth : Int)) (x.q + (bitLength x.m : Int) - (f.precision : Int))
  if q ≤ x.q then ⟨x.m <<< (x.q - q).toNat, q⟩ else ⟨x.m >>> (q - x.q).toNat, q⟩

/-- Sign, and the magnitude of a finite value; `none` for an infinity or for
what is no number. -/
def magnitude? (x : Float) : Bool × Option Dyadic :=
  let bits := x.toBits.toNat
  let biased : Nat := bits >>> 52 % 2048
  let fraction := bits % (1 <<< 52)
  (1 <<< 63 ≤ bits,
    if biased = 2047 then none
    else if biased = 0 then some ⟨fraction, -1074⟩
    else some ⟨1 <<< 52 + fraction, (biased : Int) - 1075⟩)

/-- A whole number over `10 ^ places`. -/
structure Scaled where
  units : Nat
  places : Nat

/-- A dyadic value as a whole number over a power of ten. -/
def Dyadic.scaled (x : Dyadic) : Scaled :=
  if 0 ≤ x.q then ⟨x.m <<< x.q.toNat, 0⟩ else ⟨x.m * Nat.pow 5 (-x.q).toNat, (-x.q).toNat⟩

/-! ## Shortest digits -/

/-- The first point of ever finer decimal grids, from `10 ^ j` down to `1`,
that lies between `lo` and `hi`: as a multiple of the grid's step and the
step's exponent.  Of two neighbours of `v` the nearer is taken, the upper one
at equal distance. -/
def nearestOnGrid (lo v hi : Nat) (closed : Bool) : Nat → Nat × Nat
  | 0 => (v, 0)
  | j + 1 =>
    let step := Nat.pow 10 (j + 1)
    let below := v / step
    let above := below + 1
    let belowFits := if closed then lo ≤ below * step else lo < below * step
    let aboveFits := if closed then above * step ≤ hi else above * step < hi
    if belowFits ∧ aboveFits then
      if above * step - v ≤ v - below * step then (above, j + 1) else (below, j + 1)
    else if belowFits then (below, j + 1)
    else if aboveFits then (above, j + 1)
    else nearestOnGrid lo v hi closed j

/-- Trailing zeros moved into the exponent, at most `fuel` of them. -/
def dropZeros (digits : Nat) (exponent : Int) : Nat → Nat × Int
  | 0 => (digits, exponent)
  | fuel + 1 =>
    if digits % 10 = 0 then dropZeros (digits / 10) (exponent + 1) fuel
    else (digits, exponent)

/-- The decimal digits of a number. -/
def digitCount (n : Nat) : Nat := (Nat.toDigits 10 n).length

/-- The fewest decimal digits that read back as a positive value of the
format, and the power of ten of the last of them. -/
def shortest (f : Format) (x : Dyadic) : Nat × Int :=
  let x := x.align f
  -- the neighbours' midpoints, in quarters of the last binary place
  let lower := if x.m = 1 <<< (f.precision - 1) ∧ -(f.depth : Int) < x.q then 1 else 2
  let v := (Dyadic.mk (4 * x.m) (x.q - 2)).scaled
  let lo := (Dyadic.mk (4 * x.m - lower) (x.q - 2)).scaled
  let hi := (Dyadic.mk (4 * x.m + 2) (x.q - 2)).scaled
  let count := digitCount v.units
  let (digits, step) := nearestOnGrid lo.units v.units hi.units (x.m % 2 = 0) (count - 1)
  dropZeros digits ((step : Int) - v.places) count

/-! ## Positional text -/

/-- The text of `n` with at least `width` digits. -/
def padded (width n : Nat) : String :=
  let ds := Nat.toDigits 10 n
  String.ofList (List.replicate (width - ds.length) '0' ++ ds)

/-- `units / 10 ^ places` with exactly that many places. -/
def positional (units places : Nat) : String :=
  if places = 0 then toString units
  else toString (units / Nat.pow 10 places) ++ "." ++ padded places (units % Nat.pow 10 places)

/-- `digits * 10 ^ exponent` without an exponent. -/
def plain (digits : Nat) (exponent : Int) : String :=
  if 0 ≤ exponent then toString (digits * Nat.pow 10 exponent.toNat)
  else positional digits (-exponent).toNat

/-- A magnitude with its sign; values that are no number carry none. -/
def signed (x : Float) (write : Dyadic → String) : String :=
  if x.isNaN then "NaN"
  else
    let (negative, size) := magnitude? x
    (if negative then "-" else "") ++ (match size with | none => "inf" | some d => write d)

/-- The shortest text that reads back as the value in its format. -/
def shortestText (f : Format) (x : Float) : String :=
  signed x fun d => if d.m = 0 then "0" else let (digits, e) := shortest f d; plain digits e

/-- A quotient rounded to the nearest whole number, halves to the even one. -/
def roundHalfEven (num den : Nat) : Nat :=
  let low := num / den
  let twice := 2 * (num % den)
  if twice < den then low
  else if den < twice then low + 1
  else if low % 2 = 0 then low else low + 1

/-- The double nearest to `num / den`, halves to the even one. -/
def nearestDouble (num den : Nat) : Float :=
  let guess : Int := (bitLength num : Int) - (bitLength den : Int) - 53
  -- the last place is a power of two that leaves a significand of 53 bits or one more
  let place := max guess (-1074)
  let scaled := fun (q : Int) =>
    if 0 ≤ q then (num, den <<< q.toNat) else (num <<< (-q).toNat, den)
  let fits := (scaled place).1 / (scaled place).2 < 1 <<< 53
  let place := if fits then place else place + 1
  let m := roundHalfEven (scaled place).1 (scaled place).2
  let bits := if m < 1 <<< 52 then m else (place + 1074).toNat <<< 52 + m
  Float.ofBits (UInt64.ofNat (min bits (2047 <<< 52)))

/-- The whole number of a format that is nearest to `n`, halves to the even one.  Formats have no
bound here. -/
def nearestWhole (f : Format) (n : Nat) : Nat :=
  let dropped := bitLength n - f.precision
  roundHalfEven n (1 <<< dropped) <<< dropped

/-- The value with a fixed number of places. -/
def fixedText (places : Nat) (x : Float) : String :=
  signed x fun d =>
    let s := d.scaled
    positional (roundHalfEven (s.units * Nat.pow 10 places) (Nat.pow 10 s.places)) places

end QueryPlanner.Decimal
