import Mustache.Data.Yaml

/-! What the plain scalars of a YAML text stand for. -/
namespace Mustache.Data.Yaml

open Decimal

/-- Whether a text is more than one digit and starts with a zero: such a text is no number. -/
def hasLeadingZero (s : Text) : Bool :=
  let digits := (Numeral.splitSign s).2
  digits.head? == some '0' && 1 < digits.length && digits.all Char.isDigit

/-- The whole number that a text is written for, in base ten or after a mark for another base. -/
def integer? (s : Text) : Option Int :=
  let (sign, digits) := Numeral.splitSign s
  let magnitude := match digits with
    | '0' :: 'x' :: digits => ofTextIn? 16 digits
    | '0' :: 'o' :: digits => ofTextIn? 8 digits
    | '0' :: 'b' :: digits => ofTextIn? 2 digits
    | digits => if hasLeadingZero digits then none else ofTextIn? 10 digits
  magnitude.map fun n => if sign = some '-' then -(n : Int) else n

/-- The binary number that a text is written for. -/
def float? (s : Text) : Option Binary :=
  let (sign, name) := Numeral.splitSign s
  if name ∈ [".inf".toList, ".Inf".toList, ".INF".toList] then some (.infinite (sign = some '-'))
  else if s ∈ [".nan".toList, ".NaN".toList, ".NAN".toList] then some .nan
  else match Numeral.ofText? s with
    | some n =>
      let x := Binary.ofNumeral n
      if n.whole ++ n.fraction = [] ∨ x.isInfinite then none else some x
    | none => none

/-- Whether a number fits into some bits, with a sign if it is negative. -/
def fits (bits : Nat) : Int → Bool
  | .ofNat n => n < Nat.pow 2 bits
  | .negSucc n => n < Nat.pow 2 (bits - 1)

def isNull (s : Text) : Bool :=
  s ∈ ["~".toList, "null".toList, "Null".toList, "NULL".toList]

def bool? (s : Text) : Option Bool :=
  if s ∈ ["true".toList, "True".toList, "TRUE".toList] then some true
  else if s ∈ ["false".toList, "False".toList, "FALSE".toList] then some false
  else none

/-- A binary number, or the text itself if it is none. -/
def floatOrText (s : Text) : Yaml :=
  match if hasLeadingZero s then none else float? s with
  | some x => number (.float x)
  | none => text s

/-- Reads a plain scalar. A whole number has to fit into 64 bits, unless it is so great that it
does not even fit into 128; then it is read as a binary number. -/
def ofPlain? (s : Text) : Option Yaml :=
  if s = [] ∨ isNull s then some null
  else match bool? s, integer? s with
    | some b, _ => some (bool b)
    | none, some n =>
      if fits 64 n then some (number (.integer n))
      else if fits 128 n then none
      else some (floatOrText s)
    | none, none => some (floatOrText s)

/-- Reads a scalar whose tag tells what it has to be. -/
def ofKind? (kind s : Text) : Option Yaml :=
  if kind = "null".toList then if isNull s then some null else none
  else if kind = "bool".toList then (bool? s).map bool
  else if kind = "int".toList then ((integer? s).filter (fits 64)).map fun n => number (.integer n)
  else if kind = "float".toList then (float? s).map fun x => number (.float x)
  else some (text s)

end Mustache.Data.Yaml
