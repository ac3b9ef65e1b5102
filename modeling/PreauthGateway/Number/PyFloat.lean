import PreauthGateway.Number.Double

/-!
# Python floats

A Python `float` is a double or not-a-number. The result of an operation on finite floats is the
double nearest to the exact result; not-a-number compares with nothing.

## Main definitions

* `PyFloat`, `PyFloat.ofRat`: floats, and the float a number is written as
* `PyFloat.add`, `PyFloat.sub`, `PyFloat.mul`: the operations
* `PyFloat.Le`, `PyFloat.Lt`: the comparisons
* `PyFloat.fixed2`: the text `"{:.2f}"` makes
-/

/-- A Python `float`; the sign of a zero is left out. -/
inductive PyFloat
  | nan
  | num (x : Double)
deriving DecidableEq

namespace PyFloat

/-- The float nearest to a rational. -/
def ofRat (q : ℚ) : PyFloat := .num (Double.ofRat q)

/-- `float(n)` of an integer in the range of doubles. -/
def ofInt (n : ℤ) : PyFloat := .num (Double.ofInt n)

/-- The sign of a double. -/
def sign : Double → ℤ
  | none => -1
  | some none => 1
  | some (some q) => if q = 0 then 0 else if 0 < q then 1 else -1

/-- `x + y` of doubles. -/
def addDouble : Double → Double → PyFloat
  | some (some p), some (some q) => ofRat (p + q)
  | none, some none | some none, none => .nan
  | none, _ | _, none => .num ⊥
  | _, _ => .num ⊤

/-- `-x` of a double. -/
def negDouble : Double → Double
  | none => ⊤
  | some none => ⊥
  | some (some q) => Double.finite (-q)

/-- `x * y` of doubles. -/
def mulDouble : Double → Double → PyFloat
  | some (some p), some (some q) => ofRat (p * q)
  | x, y =>
    if sign x * sign y = 0 then .nan else if 0 < sign x * sign y then .num ⊤ else .num ⊥

/-- `x + y`. -/
def add : PyFloat → PyFloat → PyFloat
  | .num x, .num y => addDouble x y
  | _, _ => .nan

/-- `x - y`. -/
def sub : PyFloat → PyFloat → PyFloat
  | .num x, .num y => addDouble x (negDouble y)
  | _, _ => .nan

/-- `x * y`. -/
def mul : PyFloat → PyFloat → PyFloat
  | .num x, .num y => mulDouble x y
  | _, _ => .nan

/-- `x <= y`. -/
def Le : PyFloat → PyFloat → Prop
  | .num x, .num y => x ≤ y
  | _, _ => False

/-- `x < y`. -/
def Lt : PyFloat → PyFloat → Prop
  | .num x, .num y => x < y
  | _, _ => False

instance : (x y : PyFloat) → Decidable (x.Le y)
  | .num x, .num y => inferInstanceAs (Decidable (x ≤ y))
  | .nan, _ => isFalse id
  | .num _, .nan => isFalse id

instance : (x y : PyFloat) → Decidable (x.Lt y)
  | .num x, .num y => inferInstanceAs (Decidable (x < y))
  | .nan, _ => isFalse id
  | .num _, .nan => isFalse id

/-- The truth value of a float. -/
def Truthy (x : PyFloat) : Prop := x ≠ .num (Double.finite 0)

instance (x : PyFloat) : Decidable x.Truthy := inferInstanceAs (Decidable (_ ≠ _))

/-- `"{:.2f}".format(x)`: the hundredths nearest to the exact value, ties to even. -/
def fixed2 : PyFloat → List Char
  | .nan => "nan".toList
  | .num none => "-inf".toList
  | .num (some none) => "inf".toList
  | .num (some (some q)) =>
    let hundredths := (Double.roundEven (|q| * 100)).toNat
    (if q < 0 then ['-'] else []) ++ Nat.toDigits 10 (hundredths / 100) ++
      ['.', (hundredths / 10 % 10).digitChar, (hundredths % 10).digitChar]

end PyFloat
