import Mustache.Decimal.Digits

/-! Decimal numerals as they are written: sign, whole digits, fraction digits, exponent. -/
namespace Mustache.Decimal

/-- A numeral as it is written. The parts that are missing are kept apart from empty ones. -/
structure Numeral where
  sign? : Option Char
  whole : Text
  fraction? : Option Text
  exponent? : Option Int
  deriving DecidableEq, Repr

namespace Numeral

/-- Takes a sign off the front of a text. -/
def splitSign : Text → Option Char × Text
  | '+' :: s => (some '+', s)
  | '-' :: s => (some '-', s)
  | s => (none, s)

/-- Reads what follows the mantissa: nothing, or a mark and a signed whole number. -/
def readExponent : Text → Option (Option Int)
  | [] => some none
  | e :: s =>
    let (sign, digits) := splitSign s
    if (e = 'e' ∨ e = 'E') ∧ digits ≠ [] ∧ digits.all Char.isDigit then
      some (some (if sign = some '-' then -(ofText digits : Int) else ofText digits))
    else none

/-- Reads a text that is a numeral and nothing else; each part but the exponent's digits may be
empty. -/
def ofText? (s : Text) : Option Numeral :=
  let (sign, s) := splitSign s
  let whole := s.takeWhile Char.isDigit
  match s.dropWhile Char.isDigit with
  | '.' :: s =>
    (readExponent (s.dropWhile Char.isDigit)).map fun exponent =>
      ⟨sign, whole, some (s.takeWhile Char.isDigit), exponent⟩
  | s => (readExponent s).map fun exponent => ⟨sign, whole, none, exponent⟩

def isNegative (n : Numeral) : Bool :=
  n.sign? == some '-'

/-- The digits of the fraction, none if there is no fraction. -/
def fraction (n : Numeral) : Text :=
  n.fraction?.getD []

/-- The digits read as one whole number, and the power of ten that it is multiplied by. -/
def scientific (n : Numeral) : Nat × Int :=
  (ofText (n.whole ++ n.fraction), n.exponent?.getD 0 - n.fraction.length)

end Numeral

example : (Numeral.ofText? ['-', '1', '.', '2', '5', 'e', '3']).map Numeral.scientific
    = some (125, 1) := by decide

end Mustache.Decimal
