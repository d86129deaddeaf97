/-!
# Binary floating-point numbers

A finite 64-bit float is `± significand · 2 ^ exponent`. `Binary64.ofFloat?` takes a float apart and
`nearestFloat` goes the other way: it rounds an exact quotient to the nearest float, a tie to the
even significand, and a quotient beyond the largest float to infinity.
-/

namespace SmallLisp.Decimal

/-- The power of two with the given exponent. -/
def twoPow (k : Nat) : Nat := Nat.pow 2 k

/-- The power of ten with the given exponent. -/
def tenPow (k : Nat) : Nat := Nat.pow 10 k

/-- A finite float taken apart. -/
structure Binary64 where
  /-- The sign bit. -/
  negative : Bool
  /-- The significand, below `2 ^ 53`. -/
  significand : Nat
  /-- The power of two that multiplies it. -/
  exponent : Int
  /-- Whether the float below in magnitude is only half as far away as the one above: so at the
  powers of two, the smallest normal one apart. -/
  isPowerOfTwo : Bool

/-- The parts of a finite float. -/
def Binary64.ofFloat? (x : Float) : Option Binary64 :=
  let bits : Nat := x.toBits.toNat
  let negative := bits / twoPow 63 == 1
  let field : Nat := bits / twoPow 52 % twoPow 11
  let fraction : Nat := bits % twoPow 52
  if field = 0x7FF then none
  else if field = 0 then some ⟨negative, fraction, -1074, false⟩
  else some ⟨negative, twoPow 52 + fraction, (field : Int) - 1075, fraction == 0 && field != 1⟩

/-- The bits of positive infinity. -/
def infinityBits : Nat := 0x7FF * twoPow 52

/-- The bits of the float nearest to `num / den`, for positive `num` and `den`.

With `l` the difference of the two binary logarithms the quotient lies between `2 ^ (l - 1)` and
`2 ^ (l + 1)`, so the scale `2 ^ (l - 53)` leaves 53 or 54 bits before the point; one more halving
leaves 53. A scale below `2 ^ -1074` is not available. Since the significand runs through
`2 ^ 52 .. 2 ^ 53`, adding it to the shifted scale carries into the exponent field by itself. -/
def nearestBits (num den : Nat) : Nat :=
  let scaled (q : Int) : Nat × Nat := (num * twoPow (-q).toNat, den * twoPow q.toNat)
  let l : Int := (num.log2 : Int) - (den.log2 : Int)
  let q₀ := max (-1074) (l - 53)
  let q := if twoPow 53 ≤ (scaled q₀).1 / (scaled q₀).2 then q₀ + 1 else q₀
  let (n, d) := scaled q
  let down := n / d
  let twice := 2 * (n % d)
  let rounded := if d < twice || (twice == d && down % 2 == 1) then down + 1 else down
  min infinityBits ((q + 1074).toNat * twoPow 52 + rounded)

/-- The float nearest to `± num / den`. -/
def nearestFloat (negative : Bool) (num den : Nat) : Float :=
  let bits := if num = 0 then 0 else nearestBits num den
  Float.ofBits (UInt64.ofNat (if negative then twoPow 63 + bits else bits))

end SmallLisp.Decimal
