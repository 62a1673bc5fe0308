import Mustache.Text

/-! Digits and the numbers they are written for. -/
namespace Mustache.Decimal

/-- The number that digits of a base are written for; the first digit is the highest. -/
def ofDigits (base : Nat) (digits : List Nat) : Nat :=
  digits.foldl (fun n d => base * n + d) 0

def digitValue (c : Char) : Nat :=
  c.toNat - '0'.toNat

/-- What a hexadecimal digit counts for, in upper or lower case. -/
def hexDigit? (c : Char) : Option Nat :=
  if '0' ≤ c ∧ c ≤ '9' then some (c.toNat - '0'.toNat)
  else if 'a' ≤ c ∧ c ≤ 'f' then some (c.toNat - 'a'.toNat + 10)
  else if 'A' ≤ c ∧ c ≤ 'F' then some (c.toNat - 'A'.toNat + 10)
  else none

/-- The number that a text of digits of a base stands for, if it has digits of that base only. -/
def ofTextIn? (base : Nat) (s : Text) : Option Nat := do
  let digits ← s.mapM hexDigit?
  if digits ≠ [] ∧ digits.all (· < base) then some (ofDigits base digits) else none

/-- The number that a text of decimal digits stands for. -/
def ofText (s : Text) : Nat :=
  ofDigits 10 (s.map digitValue)

/-- The decimal digits of a number, without leading zeros. -/
def toText (n : Nat) : Text :=
  (toString n).toList

def intToText (n : Int) : Text :=
  if n < 0 then '-' :: toText n.natAbs else toText n.natAbs

example : ofText ['0', '4', '2'] = 42 := by decide
example : intToText (-7) = ['-', '7'] := by decide
example : ofTextIn? 16 ['f', 'F'] = some 255 := by decide
example : ofTextIn? 8 ['8'] = none := by decide

end Mustache.Decimal
