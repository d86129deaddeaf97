import Mathlib.Data.Int.Cast.Field
import Mathlib.Data.Rat.Cast.CharZero
import Mathlib.Data.Rat.Lemmas
import SmallLisp.Evaluation

/-!
# Exact arithmetic on integers

What the four operations are to give on 64-bit integers is read off the exact fold over the rationals, up to its
first result that is no integer of 64 bits (`Arithmetic.exactly`). A call gives that or the fault that names it
(`arithmetic_exact_iff`), with one exception: a quotient that is an integer out of range becomes a float. Only
the least integer divided by `-1` is such a quotient.
-/

namespace SmallLisp

/-- One of the four operations. -/
inductive Arithmetic where
  | add | subtract | multiply | divide
deriving DecidableEq

namespace Arithmetic

variable {op : Arithmetic} {a b : Int64} {n : ℤ} {q : ℚ}

/-! ## The exact fold -/

/-- An integer of 64 bits. -/
def Fits (n : ℤ) : Prop := -2 ^ 63 ≤ n ∧ n < 2 ^ 63

instance (n : ℤ) : Decidable (Fits n) := inferInstanceAs (Decidable (_ ∧ _))

/-- The function that does an operation. -/
def native : Arithmetic → Native
  | add => .add
  | subtract => .subtract
  | multiply => .multiply
  | divide => .divide

/-- The exact result of an operation. Nothing is divided by zero. -/
def exact : Arithmetic → ℚ → ℚ → Option ℚ
  | add, x, y => some (x + y)
  | subtract, x, y => some (x - y)
  | multiply, x, y => some (x * y)
  | divide, x, y => if y = 0 then none else some (x / y)

/-- What exact results amount to. -/
inductive Outcome where
  /-- All of them are integers of 64 bits, and the last one is this. -/
  | fits (n : ℤ)
  /-- The first one that is not is an integer all the same. -/
  | outside (n : ℤ)
  /-- The first one that is not is no integer. -/
  | fraction (q : ℚ)
  /-- Before any such result something is divided by zero. -/
  | byZero
deriving DecidableEq

/-- What a single exact result amounts to. -/
def Outcome.of : Option ℚ → Outcome
  | none => .byZero
  | some q => if q.isInt then if Fits q.num then .fits q.num else .outside q.num else .fraction q

/-- What the results of an exact fold amount to. -/
def foldExactly (op : Arithmetic) (acc : ℤ) : List Int64 → Outcome
  | [] => .fits acc
  | b :: bs =>
    match Outcome.of (op.exact acc b.toInt) with
    | .fits n => op.foldExactly n bs
    | bad => bad

/-- What an operation amounts to on integers: a sum starts from 0 and a product from 1, and so do the negative and
the reciprocal of a single integer; otherwise the first integer is where the fold starts. -/
def exactly (op : Arithmetic) (a : Int64) (as : List Int64) : Outcome :=
  match op, as with
  | add, _ | subtract, [] => op.foldExactly 0 (a :: as)
  | multiply, _ | divide, [] => op.foldExactly 1 (a :: as)
  | subtract, b :: bs | divide, b :: bs => op.foldExactly a.toInt (b :: bs)

example : subtract.exactly Int64.minValue [] = .outside (2 ^ 63) := by decide +kernel

example : divide.exactly 12 [2, 4, 0] = .fraction (3 / 2) := by decide +kernel

/-! ## One operation -/

/-- What a native function does with two numbers. -/
def combine : Arithmetic → Number → Number → Except EvalFault Number
  | add => Number.apply .add
  | subtract => Number.apply .subtract
  | multiply => Number.apply .multiply
  | divide => Number.divide

/-- A float, or the fault of a division by zero. -/
def Strays (r : Except EvalFault Number) : Prop :=
  (∃ x, r = .ok (.float x)) ∨ r = .error .divisionByZero

/-- What the code gives for an outcome. -/
def Gives (op : Arithmetic) (r : Except EvalFault Number) : Outcome → Prop
  | .fits n => ∃ k : Int64, k.toInt = n ∧ r = .ok (.int k)
  | .outside _ => if op = divide then Strays r else r = .error (.overflow op.native)
  | .fraction _ => op = divide ∧ Strays r
  | .byZero => r = .error .divisionByZero

theorem fits_toInt (a : Int64) : Fits a.toInt := ⟨a.le_toInt, a.toInt_lt⟩

/-- The integers of 64 bits are just those that have an `Int64`. -/
theorem int64?_of_fits (h : Fits n) : ∃ k : Int64, k.toInt = n ∧ Decimal.int64? n = some k := by
  have hrange : Int64.minValue.toInt ≤ n ∧ n ≤ Int64.maxValue.toInt := by
    rw [Int64.toInt_minValue, Int64.toInt_maxValue]
    exact ⟨h.1, Int.le_sub_one_of_lt h.2⟩
  exact ⟨.ofInt n, Int64.toInt_ofInt_of_le h.1 h.2, if_pos hrange⟩

theorem int64?_of_not_fits (h : ¬ Fits n) : Decimal.int64? n = none := by
  refine if_neg fun hrange => h ?_
  rw [Int64.toInt_minValue, Int64.toInt_maxValue] at hrange
  exact ⟨hrange.1, Int.lt_of_le_sub_one hrange.2⟩

theorem of_intCast (n : ℤ) : Outcome.of (some n) = if Fits n then .fits n else .outside n := by
  have hint : (n : ℚ).isInt := by rw [Rat.isInt, Rat.den_intCast, beq_self_eq_true]
  rw [Outcome.of, if_pos hint]
  rfl

/-- An operation whose exact result is an integer whatever the integers are. -/
theorem gives_apply (op : Arithmetic) (hop : op ≠ divide) (o : Operation) (hname : o.native = op.native)
    (a b : Int64) :
    op.Gives (Number.apply o (.int a) (.int b)) (Outcome.of (some (o.onInts a.toInt b.toInt : ℤ))) := by
  rw [of_intCast]
  by_cases hfits : Fits (o.onInts a.toInt b.toInt)
  · obtain ⟨k, hk, hint⟩ := int64?_of_fits hfits
    rw [if_pos hfits]
    exact ⟨k, hk, by rw [Number.apply, hint]⟩
  · rw [if_neg hfits, Gives, if_neg hop, Number.apply, int64?_of_not_fits hfits, ← hname]

/-- A quotient of integers is an integer just if the division leaves no remainder. -/
theorem of_divide {x y : ℤ} (hy : y ≠ 0) : Outcome.of (divide.exact x y) =
    if y ∣ x then if Fits (x / y) then .fits (x / y) else .outside (x / y) else .fraction (x / y) := by
  have hy' : (y : ℚ) ≠ 0 := Int.cast_ne_zero.mpr hy
  have hexact : divide.exact x y = some (x / y : ℚ) := if_neg hy'
  rw [hexact]
  by_cases hdvd : y ∣ x
  · rw [if_pos hdvd, ← Int.cast_div hdvd hy', of_intCast]
  · have hfraction : ¬ ((x : ℚ) / y).isInt := by
      rwa [Rat.isInt, beq_iff_eq, Rat.den_div_intCast_eq_one_iff x y hy]
    rw [if_neg hdvd, Outcome.of, if_neg hfraction]

theorem toInt_ne_zero (hb : b ≠ 0) : b.toInt ≠ 0 := fun h => hb (Int64.toInt_inj.mp h)

theorem gives_divide (a b : Int64) :
    divide.Gives (Number.divide (.int a) (.int b)) (Outcome.of (divide.exact a.toInt b.toInt)) := by
  by_cases hb : b = 0
  · subst hb
    rfl
  · rw [of_divide (toInt_ne_zero hb)]
    by_cases hdvd : b.toInt ∣ a.toInt
    · -- The quotient is an integer, and all depends on its size.
      have hmod : a.toInt % b.toInt = 0 := Int.emod_eq_zero_of_dvd hdvd
      rw [if_pos hdvd]
      by_cases hfits : Fits (a.toInt / b.toInt)
      · obtain ⟨k, hk, hint⟩ := int64?_of_fits hfits
        rw [if_pos hfits]
        refine ⟨k, hk, ?_⟩
        simp only [Number.divide, if_neg hb, if_pos hmod, hint]
      · rw [if_neg hfits, Gives, if_pos rfl]
        refine .inl ⟨a.toFloat / b.toFloat, ?_⟩
        simp only [Number.divide, if_neg hb, if_pos hmod, int64?_of_not_fits hfits]
    · have hmod : ¬ a.toInt % b.toInt = 0 := fun h => hdvd (Int.dvd_of_emod_eq_zero h)
      rw [if_neg hdvd]
      refine ⟨rfl, .inl ⟨a.toFloat / b.toFloat, ?_⟩⟩
      simp only [Number.divide, if_neg hb, if_neg hmod]

/-- One operation on integers. -/
theorem gives_combine (op : Arithmetic) (a b : Int64) :
    op.Gives (op.combine (.int a) (.int b)) (Outcome.of (op.exact a.toInt b.toInt)) := by
  cases op with
  | add =>
    have h := gives_apply add nofun .add rfl a b
    rwa [Operation.add, Int.cast_add] at h
  | subtract =>
    have h := gives_apply subtract nofun .subtract rfl a b
    rwa [Operation.subtract, Int.cast_sub] at h
  | multiply =>
    have h := gives_apply multiply nofun .multiply rfl a b
    rwa [Operation.multiply, Int.cast_mul] at h
  | divide => exact gives_divide a b

/-! ## A row of operations -/

/-- One turn of the fold over arguments. -/
def turn (op : Arithmetic) (acc : Number) (arg : Value) : Except EvalFault Number := do
  op.combine acc (← Number.ofValue op.native arg)

theorem turn_int (op : Arithmetic) (acc : Number) (b : Int64) : op.turn acc (.int b) = op.combine acc (.int b) := rfl

/-- Division never comes back from a float to an integer. -/
theorem strays_fold (bs : List Int64) (x : Float) : Strays ((bs.map .int).foldlM divide.turn (.float x)) := by
  induction bs generalizing x with
  | nil => exact .inl ⟨x, rfl⟩
  | cons b bs ih =>
    rw [List.map_cons, List.foldlM_cons, turn_int]
    by_cases hb : b = 0
    · have hstop : divide.combine (.float x) (.int b) = .error .divisionByZero := if_pos hb
      rw [hstop]
      exact .inr rfl
    · have hnext : divide.combine (.float x) (.int b) = .ok (.float (x / b.toFloat)) := if_neg hb
      rw [hnext]
      exact ih (x / b.toFloat)

theorem Strays.fold {r : Except EvalFault Number} (h : Strays r) (bs : List Int64) :
    Strays (r >>= fun acc => (bs.map .int).foldlM divide.turn acc) := by
  obtain ⟨x, rfl⟩ | rfl := h
  · exact strays_fold bs x
  · exact .inr rfl

/-- A row of operations on integers. -/
theorem gives_fold (op : Arithmetic) (acc : Int64) (bs : List Int64) :
    op.Gives ((bs.map .int).foldlM op.turn (.int acc)) (op.foldExactly acc.toInt bs) := by
  induction bs generalizing acc with
  | nil => exact ⟨acc, rfl, rfl⟩
  | cons b bs ih =>
    rw [List.map_cons, List.foldlM_cons, turn_int, foldExactly]
    have hstep := gives_combine op acc b
    cases hof : Outcome.of (op.exact acc.toInt b.toInt) with
    | fits n =>
      rw [hof] at hstep
      obtain ⟨k, rfl, hk⟩ := hstep
      rw [hk]
      exact ih k
    | outside n =>
      rw [hof, Gives] at hstep
      rw [Gives]
      split at hstep
      · -- Only division goes on behind such a result.
        rename_i hdivide
        subst hdivide
        rw [if_pos rfl]
        exact hstep.fold bs
      · rename_i hop
        rw [if_neg hop, hstep]
        rfl
    | fraction q =>
      rw [hof] at hstep
      obtain ⟨rfl, hstrays⟩ := hstep
      exact ⟨rfl, hstrays.fold bs⟩
    | byZero =>
      rw [hof, Gives] at hstep
      rw [hstep]
      rfl

theorem fits_of_of {r : Option ℚ} (h : Outcome.of r = .fits n) : Fits n := by
  unfold Outcome.of at h
  grind

/-- A quotient of integers of 64 bits is out of range only as the largest integer and one more. -/
theorem of_divide_outside (h : Outcome.of (divide.exact a.toInt b.toInt) = .outside n) : n = 2 ^ 63 := by
  by_cases hb : b = 0
  · subst hb
    cases h
  · have hb' := toInt_ne_zero hb
    rw [of_divide hb'] at h
    split at h
    · rename_i hdvd
      split at h
      · cases h
      · rename_i hrange
        obtain rfl := Outcome.outside.inj h
        obtain ⟨c, hc⟩ := hdvd
        rw [hc, Int.mul_ediv_cancel_left c hb'] at hrange ⊢
        -- The quotient is no larger than the dividend, so only its sign can take it out of range.
        have hle : c.natAbs ≤ a.toInt.natAbs := by
          rw [hc, Int.natAbs_mul]
          exact Nat.le_mul_of_pos_left _ (Int.natAbs_pos.mpr hb')
        have hsize := fits_toInt a
        unfold Fits at hsize hrange
        omega
    · cases h

theorem foldExactly_divide_outside (acc : Int64) {bs : List Int64}
    (h : divide.foldExactly acc.toInt bs = .outside n) : n = 2 ^ 63 := by
  induction bs generalizing acc with
  | nil => cases h
  | cons b bs ih =>
    rw [foldExactly] at h
    split at h
    · rename_i m hof
      obtain ⟨k, rfl, -⟩ := int64?_of_fits (fits_of_of hof)
      exact ih k h
    · exact of_divide_outside h

/-- The only result of divisions that is an integer out of range. -/
theorem exactly_divide_outside {as : List Int64} (h : divide.exactly a as = .outside n) : n = 2 ^ 63 := by
  cases as with
  | nil => exact foldExactly_divide_outside 1 h
  | cons b bs => exact foldExactly_divide_outside a h

/-! ## Calls -/

/-- What a function gives for arguments. -/
def result : Arithmetic → List Value → Except EvalFault Value
  | add => Number.sum
  | subtract => Number.difference
  | multiply => Number.product
  | divide => Number.quotient

/-- A function gives what its fold gives. -/
theorem gives_result (op : Arithmetic) (a : Int64) (as : List Int64) :
    ∃ r, op.result ((a :: as).map .int) = r.map Number.toValue ∧ op.Gives r (op.exactly a as) := by
  cases op with
  | add => exact ⟨_, rfl, gives_fold add 0 (a :: as)⟩
  | multiply => exact ⟨_, rfl, gives_fold multiply 1 (a :: as)⟩
  | subtract =>
    cases as with
    | nil => exact ⟨_, rfl, gives_fold subtract 0 [a]⟩
    | cons b bs => exact ⟨_, rfl, gives_fold subtract a (b :: bs)⟩
  | divide =>
    cases as with
    | nil => exact ⟨_, rfl, gives_fold divide 1 [a]⟩
    | cons b bs => exact ⟨_, rfl, gives_fold divide a (b :: bs)⟩

/-- A call of the function gives that in any world, which it leaves as it is. -/
theorem apply_native (op : Arithmetic) (here : Site) (depth : Nat) (args : List Value) :
    apply here (depth + 1) (.native op.native) args = Native.pureResult (op.result args) := by
  cases op <;> simp only [apply, Native.call, native, result]

/-- A call answers as exact arithmetic has it: with the last result, or with the fault that is due. Nothing is
asked where a result is no integer. -/
def Answers (op : Arithmetic) (w : World) (r : EStateM.Result Halt World Value) : Outcome → Prop
  | .fits n => ∃ k : Int64, k.toInt = n ∧ r = .ok (.int k) w
  | .outside _ => ∃ e, r = .error (.error e) w ∧ e.message = op.native.name ++ ": integer overflow"
  | .fraction _ => True
  | .byZero => ∃ e, r = .error (.error e) w ∧ e.message = "/: divide by zero"

/-- A call gives a float, or finds that it has to divide by zero. -/
def EndsInFloat (w : World) (r : EStateM.Result Halt World Value) : Prop :=
  (∃ x, r = .ok (.float x) w) ∨ r = .error (.error (.eval .divisionByZero)) w

variable {w : World} {r : Except EvalFault Number} {o : Outcome}

theorem Strays.endsInFloat (h : Strays r) : EndsInFloat w (Native.pureResult (r.map Number.toValue) w) := by
  obtain ⟨x, rfl⟩ | rfl := h
  · exact .inl ⟨x, rfl⟩
  · exact .inr rfl

theorem Gives.endsInFloat (h : divide.Gives r (.outside n)) :
    EndsInFloat w (Native.pureResult (r.map Number.toValue) w) := by
  rw [Gives, if_pos rfl] at h
  exact h.endsInFloat

theorem Gives.answers (h : op.Gives r o) (hop : ¬ (op = divide ∧ ∃ n, o = .outside n)) :
    op.Answers w (Native.pureResult (r.map Number.toValue) w) o := by
  cases o with
  | fits n =>
    obtain ⟨k, hk, rfl⟩ := h
    exact ⟨k, hk, rfl⟩
  | outside n =>
    rw [Gives, if_neg fun hdivide => hop ⟨hdivide, n, rfl⟩] at h
    subst h
    exact ⟨_, rfl, rfl⟩
  | fraction q => trivial
  | byZero =>
    rw [Gives] at h
    subst h
    exact ⟨_, rfl, rfl⟩

/-- A float is no overflow, and neither is the fault of a division by zero. -/
theorem EndsInFloat.not_answers {r : EStateM.Result Halt World Value} (h : EndsInFloat w r) :
    ¬ divide.Answers w r (.outside n) := by
  rintro ⟨e, he, hmessage⟩
  obtain ⟨x, hr⟩ | hr := h
  · rw [hr] at he
    cases he
  · rw [hr] at he
    cases he
    revert hmessage
    decide

end Arithmetic

open Arithmetic (Answers EndsInFloat)

/-- Each of the four functions, called with integers in any world, answers as exact arithmetic has it, except
where a quotient is an integer out of range. Then it is the least integer divided by `-1`, and the call goes on
with a float. -/
theorem arithmetic_exact_iff (op : Arithmetic) (a : Int64) (as : List Int64) (here : Site) (depth : Nat)
    (w : World) :
    (Answers op w (apply here (depth + 1) (.native op.native) ((a :: as).map .int) w) (op.exactly a as) ↔
      ¬ (op = .divide ∧ ∃ n, op.exactly a as = .outside n)) ∧
    (op = .divide → ∀ n, op.exactly a as = .outside n → n = 2 ^ 63 ∧
      EndsInFloat w (apply here (depth + 1) (.native op.native) ((a :: as).map .int) w)) := by
  obtain ⟨r, hresult, hgives⟩ := op.gives_result a as
  rw [op.apply_native, hresult]
  refine ⟨⟨?_, fun hop => hgives.answers hop⟩, ?_⟩
  · rintro hanswers ⟨rfl, n, houtside⟩
    rw [houtside] at hgives hanswers
    exact hgives.endsInFloat.not_answers hanswers
  · rintro rfl n houtside
    refine ⟨Arithmetic.exactly_divide_outside houtside, ?_⟩
    rw [houtside] at hgives
    exact hgives.endsInFloat

/-- What is said of the four functions without an exception. -/
def ArithmeticIsExact : Prop :=
  ∀ (op : Arithmetic) (a : Int64) (as : List Int64) (here : Site) (depth : Nat) (w : World),
    Answers op w (apply here (depth + 1) (.native op.native) ((a :: as).map .int) w) (op.exactly a as)

/-- The least integer divided by `-1` is out of range, and becomes a float. -/
theorem not_arithmeticIsExact : ¬ ArithmeticIsExact := by
  intro h
  have hanswers := h .divide Int64.minValue [-1] ⟨0, 0⟩ 0 World.empty
  have houtside : Arithmetic.divide.exactly Int64.minValue [-1] = .outside (2 ^ 63) := by decide +kernel
  obtain ⟨r, hresult, hgives⟩ := Arithmetic.divide.gives_result Int64.minValue [-1]
  rw [Arithmetic.apply_native, hresult, houtside] at hanswers
  rw [houtside] at hgives
  exact hgives.endsInFloat.not_answers hanswers

end SmallLisp
