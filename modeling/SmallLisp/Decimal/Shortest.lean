import SmallLisp.Decimal.Binary64

/-!
# The decimal text of a float

A float that is an integer is written with all its digits and `.0`. Any other finite float is
written with the fewest places after the point that tell it from its neighbours, and of those
numerals the nearest, the larger of two that are equally near. No exponent is ever written.
-/

namespace SmallLisp.Decimal

/-- Whether `n / 10 ^ places` reads back as the float `x`, which is `m / 2 ^ k`: it lies between
the points half-way to the neighbours, which belong to `x` when its significand is even. All is
multiplied by `4 · 10 ^ places · 2 ^ k`. -/
def readsBack (x : Binary64) (k places n : Nat) : Bool :=
  let tens := tenPow places
  let low := (if x.isPowerOfTwo then 4 * x.significand - 1 else 4 * x.significand - 2) * tens
  let high := (4 * x.significand + 2) * tens
  let point := 4 * n * twoPow k
  if x.significand % 2 = 0 then low ≤ point && point ≤ high else low < point && point < high

/-- The numerator over `10 ^ places` nearest to the float among those that read back, if any; of
two that are equally near, the larger. -/
def nearestAt? (x : Binary64) (k places : Nat) : Option Nat :=
  let scaled := x.significand * tenPow places
  let down := scaled / twoPow k
  let remainder := scaled % twoPow k
  match readsBack x k places down, readsBack x k places (down + 1) with
  | true, true => some (if 2 * remainder < twoPow k then down else down + 1)
  | true, false => some down
  | false, true => some (down + 1)
  | false, false => none

/-- The fewest places, from `places` on, at which a numeral reads back, with its numerator. At `k`
places `m / 2 ^ k` is written exactly, so the search ends there. -/
def fewestPlaces (x : Binary64) (k : Nat) : (left : Nat) → (places : Nat) → Nat × Nat
  | 0, places => (places, x.significand * tenPow places / twoPow k)
  | left + 1, places =>
    match nearestAt? x k places with
    | some n => (places, n)
    | none => fewestPlaces x k left (places + 1)

/-- Digits with a point before the last `places` of them, and a zero before the point if there is
nothing else. -/
def withPoint (places n : Nat) : String :=
  let digits := (Nat.toDigits 10 n)
  let padded := List.replicate (places + 1 - digits.length) '0' ++ digits
  let whole := padded.take (padded.length - places)
  let rest := padded.drop (padded.length - places)
  String.ofList (whole ++ '.' :: rest)

/-- The decimal text of a finite float. -/
def Binary64.text (x : Binary64) : String :=
  let sign := if x.negative then "-" else ""
  let k := (-x.exponent).toNat
  if x.significand % twoPow k = 0 then
    sign ++ toString (x.significand * twoPow x.exponent.toNat / twoPow k) ++ ".0"
  else
    let (places, n) := fewestPlaces x k k 1
    sign ++ withPoint places n

/-- The decimal text of a float. -/
def floatText (x : Float) : String :=
  match Binary64.ofFloat? x with
  | some parts => parts.text
  | none => if x.isNaN then "NaN" else if x < 0 then "-inf" else "inf"

end SmallLisp.Decimal
