import Mustache.Decimal.Numeral

/-! Binary floating-point numbers of 53 digits, and rounding to them. -/
namespace Mustache.Decimal

/-- A number of 53 binary digits: `significand * 2 ^ exponent`, with an exponent from -1074 to 971
and a significand of full length unless the exponent is the least one. Zero has a sign. -/
inductive Binary where
  | finite (negative : Bool) (significand : Nat) (exponent : Int)
  | infinite (negative : Bool)
  | nan
  deriving DecidableEq, Repr

/-- A quotient rounded to the nearest whole number, a half to the even one. -/
def roundDiv (num den : Nat) : Nat :=
  let q := num / den
  let r := num % den
  if 2 * r < den then q else if den < 2 * r then q + 1 else q + q % 2

/-- The quotient `num / den / 2 ^ exponent` as a new numerator and denominator. -/
def scale (num den : Nat) (exponent : Int) : Nat × Nat :=
  (num * Nat.pow 2 (-exponent).toNat, den * Nat.pow 2 exponent.toNat)

namespace Binary

def zero (negative : Bool) : Binary := finite negative 0 (-1074)

/-- The number nearest to `num / den`, a half going to the even significand. -/
def round (negative : Bool) (num den : Nat) : Binary :=
  if num = 0 then zero negative
  else
    let least : Int := num.log2 - den.log2 - 53
    let (n, d) := scale num den least
    let exponent := max (if n / d < Nat.pow 2 53 then least else least + 1) (-1074)
    let (n, d) := scale num den exponent
    let significand := roundDiv n d
    let (significand, exponent) :=
      if significand = Nat.pow 2 53 then (Nat.pow 2 52, exponent + 1) else (significand, exponent)
    if 971 < exponent then infinite negative else finite negative significand exponent

/-- The number nearest to `digits * 10 ^ exponent`. Past the range of exponents the digits do not
matter. -/
def ofScientific (negative : Bool) (digits : Nat) (exponent : Int) : Binary :=
  let places := (toText digits).length
  if digits = 0 ∨ places + exponent < -323 then zero negative
  else if 309 < places + exponent then infinite negative
  else round negative (digits * Nat.pow 10 exponent.toNat) (Nat.pow 10 (-exponent).toNat)

def ofNumeral (n : Numeral) : Binary :=
  let (digits, exponent) := n.scientific
  ofScientific n.isNegative digits exponent

/-- Reads a numeral, or a name of what is not finite in upper or lower case. -/
def ofText? (s : Text) : Option Binary :=
  let (sign, rest) := Numeral.splitSign s
  let name := rest.map Char.toLower
  if name = "inf".toList ∨ name = "infinity".toList then some (infinite (sign = some '-'))
  else if name = "nan".toList then some nan
  else match Numeral.ofText? s with
    | some n => if n.whole = [] ∧ n.fraction = [] then none else some (ofNumeral n)
    | none => none

def isZero : Binary → Bool
  | finite _ significand _ => significand == 0
  | _ => false

def isInfinite : Binary → Bool
  | infinite _ => true
  | _ => false

def negate : Binary → Binary
  | finite negative significand exponent => finite (!negative) significand exponent
  | infinite negative => infinite (!negative)
  | nan => nan

/-- Finite numbers multiplied exactly and rounded once; the rest is no number. -/
def mul : Binary → Binary → Binary
  | finite n s e, finite n' s' e' =>
    let (num, den) := scale (s * s') 1 (-(e + e'))
    round (n != n') num den
  | _, _ => nan

/-- Finite numbers divided exactly and rounded once; the rest is no number. -/
def div : Binary → Binary → Binary
  | finite n s e, finite n' s' e' =>
    if s' = 0 then nan
    else
      let (num, den) := scale s s' (e' - e)
      round (n != n') num den
  | _, _ => nan

/-- The nearest number to a power of ten. -/
def powerOfTen (n : Nat) : Binary :=
  round false (Nat.pow 10 n) 1

example : round false 1 10 = finite false 0x1999999999999a (-56) := by decide +kernel
example : round false (Nat.pow 2 53 + 1) 1 = finite false (Nat.pow 2 52) 1 := by decide +kernel
example : round true 1 (Nat.pow 2 1075) = zero true := by decide +kernel

end Binary
end Mustache.Decimal
