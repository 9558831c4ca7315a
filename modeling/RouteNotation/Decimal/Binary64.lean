/-!
Floating-point numbers of 64 bits as exact values, and the nearest one to a decimal number.
-/

namespace RouteNotation

/-- A finite number is `significand * 2 ^ exponent`. The significand has 53 bits at most, and fewer
only at the least exponent, so each number is written in one way. -/
inductive Binary64
  | nan
  | infinite (negative : Bool)
  | finite (negative : Bool) (significand : Nat) (exponent : Int)
  deriving DecidableEq, Repr

namespace Binary64

def leastExponent : Int := -1074
def greatestExponent : Int := 971

/-- The least significand of 53 bits. -/
def leastFull : Nat := Nat.pow 2 52

def zero (negative : Bool) : Binary64 := .finite negative 0 leastExponent

/-- `num / den` rounded to a whole number; a half goes to the even neighbour. -/
def roundHalfEven (num den : Nat) : Nat :=
  let q := num / den
  match compare (2 * (num % den)) den with
  | .lt => q
  | .gt => q + 1
  | .eq => if q % 2 = 0 then q else q + 1

/-- `num / den` over `2 ^ exponent`, as a fraction of whole numbers. -/
def scaled (num den : Nat) (exponent : Int) : Nat × Nat :=
  match exponent with
  | .ofNat n => (num, den * Nat.pow 2 n)
  | .negSucc n => (num * Nat.pow 2 (n + 1), den)

/-- The exponent at which `num / den` has a significand of 53 bits, or the least one. -/
def exponentFor (num den : Nat) : Int :=
  let guess : Int := (num.log2 : Int) - den.log2 - 52
  let (n, d) := scaled num den guess
  max leastExponent (if n < d * leastFull then guess - 1 else guess)

/-- The number nearest to `num / den`; past the greatest finite one it is infinite. -/
def ofFraction (negative : Bool) (num den : Nat) : Binary64 :=
  let exponent := exponentFor num den
  let (n, d) := scaled num den exponent
  let significand := roundHalfEven n d
  let (significand, exponent) :=
    if significand = 2 * leastFull then (leastFull, exponent + 1) else (significand, exponent)
  if greatestExponent < exponent then .infinite negative
  else .finite negative significand exponent

/-- The number nearest to `digits * 10 ^ power`. Powers far outside the range of finite numbers are
not computed. -/
def ofDecimal (negative : Bool) (digits : Nat) (power : Int) : Binary64 :=
  let size : Int := (Nat.toDigits 10 digits).length + power
  if digits = 0 ∨ size < -330 then zero negative
  else if 330 < size then .infinite negative
  else match power with
    | .ofNat n => ofFraction negative (digits * Nat.pow 10 n) 1
    | .negSucc n => ofFraction negative digits (Nat.pow 10 (n + 1))

def isFinite : Binary64 → Bool
  | .finite _ _ _ => true
  | .nan | .infinite _ => false

/-- Equality as keys of a mapping: both zeros are one number, and so are all values that are not
numbers. -/
def same : Binary64 → Binary64 → Bool
  | .finite _ 0 _, .finite _ 0 _ => true
  | x, y => x = y

end Binary64
end RouteNotation
