import SmallLisp.Decimal.Literal
import SmallLisp.Error

/-!
# Arithmetic

Numbers are 64-bit integers and floats. On integers an operation is exact: its result is the
integer that arithmetic gives, or the fault of an overflow. Once a float takes part, the integers
are converted to floats. A quotient of integers is an integer if it is one, and a float otherwise.
-/

namespace SmallLisp

/-- A number. -/
inductive Number where
  | int (n : Int64)
  | float (x : Float)

/-- An operation of arithmetic, on integers and on floats. -/
structure Operation where
  /-- The native function that performs it, named in faults. -/
  native : Native
  /-- Its exact result on integers. -/
  onInts : Int → Int → Int
  /-- Its result on floats. -/
  onFloats : Float → Float → Float

namespace Operation

/-- Addition. -/
def add : Operation := ⟨.add, (· + ·), (· + ·)⟩

/-- Subtraction. -/
def subtract : Operation := ⟨.subtract, (· - ·), (· - ·)⟩

/-- Multiplication. -/
def multiply : Operation := ⟨.multiply, (· * ·), (· * ·)⟩

end Operation

namespace Number

/-- The number that is a value, wanted by a native function. -/
def ofValue (f : Native) : Value → Except EvalFault Number
  | .int n => .ok (.int n)
  | .float x => .ok (.float x)
  | v => .error (.notNumber f v)

/-- A number as a value. -/
def toValue : Number → Value
  | int n => .int n
  | float x => .float x

/-- A number as a float. -/
def toFloat : Number → Float
  | int n => n.toFloat
  | float x => x

/-- The result of an operation. -/
def apply (op : Operation) : Number → Number → Except EvalFault Number
  | int a, int b =>
    match Decimal.int64? (op.onInts a.toInt b.toInt) with
    | some n => .ok (int n)
    | none => .error (.overflow op.native)
  | a, b => .ok (float (op.onFloats a.toFloat b.toFloat))

/-- The quotient of two numbers. -/
def divide : Number → Number → Except EvalFault Number
  | a, int b =>
    if b = 0 then .error .divisionByZero
    else
      match a with
      | int a =>
        let exact := if a.toInt % b.toInt = 0 then Decimal.int64? (a.toInt / b.toInt) else none
        match exact with
        | some n => .ok (int n)
        | none => .ok (float (a.toFloat / b.toFloat))
      | float a => .ok (float (a / b.toFloat))
  | a, float b => .ok (float (a.toFloat / b))

/-- The order of two numbers; a float that is no number has none. -/
def compare? : Number → Number → Option Ordering
  | int a, int b => some (compare a.toInt b.toInt)
  | a, b =>
    let x := a.toFloat
    let y := b.toFloat
    if x < y then some .lt else if x == y then some .eq else if y < x then some .gt else none

/-- Combines values with a number from left to right; each has to be a number when its turn
comes. -/
def fold (f : Native) (combine : Number → Number → Except EvalFault Number) (start : Number)
    (args : List Value) : Except EvalFault Value :=
  (args.foldlM (fun acc arg => do combine acc (← ofValue f arg)) start).map toValue

/-- The sum of values. -/
def sum (args : List Value) : Except EvalFault Value := fold .add (apply .add) (int 0) args

/-- The product of values. -/
def product (args : List Value) : Except EvalFault Value :=
  fold .multiply (apply .multiply) (int 1) args

/-- The first value less the others, or the negative of a single one. -/
def difference : List Value → Except EvalFault Value
  | [] => .error (.nativeArityIn .subtract "at least 1 argument")
  | [only] => fold .subtract (apply .subtract) (int 0) [only]
  | first :: rest => do fold .subtract (apply .subtract) (← ofValue .subtract first) rest

/-- The first value divided by the others, or the reciprocal of a single one. -/
def quotient : List Value → Except EvalFault Value
  | [] => .error (.nativeArityIn .divide "at least 1 argument")
  | [only] => fold .divide divide (int 1) [only]
  | first :: rest => do fold .divide divide (← ofValue .divide first) rest

end Number

/-- Whether each element of a list stands in a relation to the one after it. -/
def chained {α : Type} (related : α → α → Bool) : List α → Bool
  | a :: b :: rest => related a b && chained related (b :: rest)
  | _ => true

/-- Whether numbers are in order; `holds` tells which outcomes of a comparison are in order. -/
def Number.ordered (f : Native) (holds : Ordering → Bool) (args : List Value) :
    Except EvalFault Value :=
  if args.isEmpty then .error (.nativeArityIn f "at least 1 argument")
  else do
    let numbers ← args.mapM (ofValue f)
    return .bool (chained (fun a b => ((compare? a b).map holds).getD false) numbers)

end SmallLisp
