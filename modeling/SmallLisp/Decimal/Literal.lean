import SmallLisp.Decimal.Binary64

/-!
# Numerals

The texts that stand for numbers: an integer is an optional sign and ASCII digits, within the range
of 64 bits; a float is an optional sign, digits with at most one point among them and an optional
power of ten, and stands for the nearest float.
-/

namespace SmallLisp.Decimal

/-- The 64-bit integer equal to `n`, if there is one. -/
def int64? (n : Int) : Option Int64 :=
  if Int64.minValue.toInt ≤ n ∧ n ≤ Int64.maxValue.toInt then some (Int64.ofInt n) else none

/-- The value of a row of ASCII digits. -/
def digitsValue (cs : List Char) : Nat :=
  cs.foldl (fun n c => 10 * n + (c.toNat - '0'.toNat)) 0

/-- The value of one or more ASCII digits, and of nothing else. -/
def natural? (cs : List Char) : Option Nat :=
  if cs.isEmpty then none else if cs.all Char.isDigit then some (digitsValue cs) else none

/-- Takes a sign off the front; the flag tells a minus. -/
def takeSign : List Char → Bool × List Char
  | '-' :: cs => (true, cs)
  | '+' :: cs => (false, cs)
  | cs => (false, cs)

/-- The integer that an optional sign and digits stand for, within 64 bits. -/
def integer? (cs : List Char) : Option Int64 :=
  let (negative, digits) := takeSign cs
  (natural? digits).bind fun n => int64? (if negative then -(n : Int) else n)

/-- The decimal number `± digits · 10 ^ exponent`. -/
structure Numeral where
  /-- The sign. -/
  negative : Bool
  /-- The digits as one number, the point left out. -/
  digits : Nat
  /-- The power of ten that multiplies them. -/
  exponent : Int

/-- The exponent part of a numeral: nothing, or an `e` and a signed number. -/
def exponent? : List Char → Option Int
  | [] => some 0
  | c :: cs =>
    if c = 'e' || c = 'E' then
      let (negative, digits) := takeSign cs
      (natural? digits).map fun n => if negative then -(n : Int) else n
    else none

/-- The numeral that a text stands for. At least one digit stands before or after the point. -/
def numeral? (cs : List Char) : Option Numeral :=
  let (negative, cs) := takeSign cs
  let (whole, cs) := cs.span Char.isDigit
  let (fraction, cs) :=
    match cs with
    | '.' :: cs => cs.span Char.isDigit
    | cs => ([], cs)
  if whole.isEmpty && fraction.isEmpty then none
  else (exponent? cs).map fun e =>
    ⟨negative, digitsValue (whole ++ fraction), e - fraction.length⟩

/-- The float nearest to a numeral. Every float lies below `10 ^ 309`, and half the smallest
positive one lies above `10 ^ -324`, so that a numeral far outside needs no power of ten. -/
def Numeral.toFloat (x : Numeral) : Float :=
  let size : Int := (Nat.toDigits 10 x.digits).length + x.exponent
  if x.digits = 0 || size < -400 then nearestFloat x.negative 0 1
  else if 400 < size then nearestFloat x.negative (twoPow 1100) 1
  else nearestFloat x.negative (x.digits * tenPow x.exponent.toNat)
    (tenPow (-x.exponent).toNat)

/-- The float that a text stands for. -/
def float? (cs : List Char) : Option Float := (numeral? cs).map Numeral.toFloat

end SmallLisp.Decimal
