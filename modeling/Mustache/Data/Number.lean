import Mustache.Decimal.Style

/-! Numbers of a document: whole ones are kept apart from binary ones. -/
namespace Mustache.Data

inductive Number where
  | integer (n : Int)
  | float (x : Decimal.Binary)
  deriving DecidableEq, Repr

/-- Whether two numbers have the same value. A whole number and a binary one are never the same. -/
def Number.same : Number → Number → Bool
  | integer m, integer n => m == n
  | float x, float y => x == y || (x.isZero && y.isZero)
  | _, _ => false

/-- Whole numbers are written in full, others in a style. -/
def Number.text (style : Decimal.Style) : Number → Text
  | integer n => Decimal.intToText n
  | float x => style.text x

end Mustache.Data
