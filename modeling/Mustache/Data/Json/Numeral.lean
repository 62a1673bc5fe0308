import Mustache.Data.Number

/-! Numbers of a JSON text. -/
namespace Mustache.Data.Json

open Decimal

/-- A JSON numeral has no plus sign, no superfluous zero, and digits on both sides of a point. -/
def isNumeral (n : Numeral) : Bool :=
  n.sign? != some '+' && !n.whole.isEmpty && (n.whole.length == 1 || n.whole.head? != some '0')
    && n.fraction? != some []

/-- The leading digits of a numeral, as far as they fit into 64 bits, and a power of ten. -/
structure Leading where
  significand : Nat
  exponent : Int
  full : Bool
  deriving DecidableEq, Repr

namespace Leading

def fits (significand digit : Nat) : Bool :=
  significand * 10 + digit < Nat.pow 2 64

/-- A whole digit that does not fit only raises the power of ten, and so do all that follow. -/
def addWhole (l : Leading) (digit : Nat) : Leading :=
  if !l.full && fits l.significand digit then { l with significand := l.significand * 10 + digit }
  else { l with exponent := l.exponent + 1, full := true }

/-- A digit of the fraction that does not fit is left out, and so are all that follow. -/
def addFraction (l : Leading) (digit : Nat) : Leading :=
  if !l.full && fits l.significand digit then
    { l with significand := l.significand * 10 + digit, exponent := l.exponent - 1 }
  else { l with full := true }

def ofWhole (digits : Text) : Leading :=
  (digits.map digitValue).foldl addWhole ⟨0, 0, false⟩

/-- The fraction starts afresh: it may still find room that a whole digit did not. -/
def ofNumeral (n : Numeral) : Leading :=
  (n.fraction.map digitValue).foldl addFraction { ofWhole n.whole with full := false }

end Leading

/-- Divides by a power of ten, by `10 ^ 308` at a time where the power is greater. -/
def shrink (x : Binary) (places : Nat) : Binary :=
  if places ≤ 308 then x.div (.powerOfTen places)
  else if x.isZero then x
  else shrink (x.div (.powerOfTen 308)) (places - 308)
termination_by places

/-- Scales a number by a power of ten in floating point; none if the result is out of range. -/
def scaled? (x : Binary) (exponent : Int) : Option Binary :=
  if exponent < 0 then some (shrink x exponent.natAbs)
  else if exponent ≤ 308 then
    let y := x.mul (.powerOfTen exponent.natAbs)
    if y.isInfinite then none else some y
  else if x.isZero then some x
  else none

/-- A numeral as a binary number: its leading digits are rounded once, and once more for each
scaling. An exponent of 32 bits or more leaves zero or nothing in range. -/
def float? (n : Numeral) : Option Binary :=
  let l := Leading.ofNumeral n
  let exponent := n.exponent?.getD 0
  let magnitude :=
    if Nat.pow 2 31 ≤ exponent.natAbs then
      if 0 < exponent ∧ l.significand ≠ 0 then none else some (.zero false)
    else scaled? (.round false l.significand 1) (l.exponent + exponent)
  magnitude.map fun x => if n.isNegative then x.negate else x

/-- A numeral without fraction and exponent is whole if it fits into 64 bits; minus zero is not. -/
def number? (n : Numeral) : Option Number :=
  let l := Leading.ofWhole n.whole
  if n.fraction?.isSome || n.exponent?.isSome || l.full then .float <$> float? n
  else if !n.isNegative then some (.integer l.significand)
  else if l.significand ≠ 0 ∧ l.significand ≤ Nat.pow 2 63 then some (.integer (-l.significand))
  else .float <$> float? n

/-- The value of a word that is no quoted text. -/
def numberOfWord? (w : Text) : Option Number := do
  let n ← Numeral.ofText? w
  if isNumeral n then number? n else none

end Mustache.Data.Json
