import Mustache.Decimal.Shortest

/-! The texts that numbers are shown as. -/
namespace Mustache.Decimal

/-- How a binary number is laid out. A number whose first digit stands within the positional range
is written without an exponent; no range means that none is written with one. -/
structure Style where
  tie : Tie
  positional? : Option (Int × Int)
  keepPoint : Bool
  plusExponent : Bool
  nan : Text
  infinite : Text
  deriving DecidableEq, Repr

namespace Style

def zeros (n : Int) : Text :=
  List.replicate n.toNat '0'

/-- Digits whose last one stands at the given place, written out. -/
def positional (style : Style) (digits : Text) (place : Int) : Text :=
  let before := digits.length + place
  if 0 ≤ place then digits ++ zeros place ++ (if style.keepPoint then ['.', '0'] else [])
  else if 0 < before then digits.take before.toNat ++ '.' :: digits.drop before.toNat
  else '0' :: '.' :: zeros (-before) ++ digits

/-- Digits with a point behind the first one and an exponent for its place. -/
def exponential (style : Style) (digits : Text) (lead : Int) : Text :=
  let mantissa := match digits with
    | d :: rest@(_ :: _) => d :: '.' :: rest
    | digits => digits
  mantissa ++ 'e' :: (if style.plusExponent ∧ 0 ≤ lead then ['+'] else []) ++ intToText lead

def unsigned (style : Style) (significand : Nat) (exponent : Int) : Text :=
  let (n, place) := Shortest.digits style.tie significand exponent
  let digits := toText n
  let lead := digits.length + place - 1
  let inRange := style.positional?.all fun (least, most) => least ≤ lead && lead ≤ most
  if inRange then style.positional digits place else style.exponential digits lead

/-- The text of a number. -/
def text (style : Style) : Binary → Text
  | .finite negative significand exponent =>
    (if negative then ['-'] else []) ++ style.unsigned significand exponent
  | .infinite negative => (if negative then ['-'] else []) ++ style.infinite
  | .nan => style.nan

/-- Whole numbers keep a `.0`; exponents below -5 and above 15 are written, with their sign. -/
def json : Style :=
  { tie := .toEven, positional? := some (-5, 15), keepPoint := true, plusExponent := true,
    nan := "null".toList, infinite := "null".toList }

/-- As in JSON, but a positive exponent has no sign and there are names for what is not finite. -/
def yaml : Style :=
  { json with plusExponent := false, nan := ".nan".toList, infinite := ".inf".toList }

/-- Never an exponent, and no point for whole numbers. -/
def plain : Style :=
  { tie := .up, positional? := none, keepPoint := false, plusExponent := false,
    nan := "NaN".toList, infinite := "inf".toList }

end Style
end Mustache.Decimal
