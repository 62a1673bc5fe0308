import Mustache.Decimal.Binary

/-! The fewest decimal digits that read back as a binary number. -/
namespace Mustache.Decimal

/-- Where a number goes that lies halfway between two decimals of the same length. -/
inductive Tie where
  | toEven
  | up
  deriving DecidableEq, Repr

namespace Shortest

/-- A positive number and the ends of the interval that rounds to it, as multiples of the same
power of two. The ends belong to the interval if the significand is even. -/
structure Neighbourhood where
  low : Nat
  middle : Nat
  high : Nat
  exponent : Int
  closed : Bool
  deriving DecidableEq, Repr

/-- The gap below a power of two is half the gap above it, the least exponent apart. -/
def neighbourhood (significand : Nat) (exponent : Int) : Neighbourhood :=
  let gap := if significand = Nat.pow 2 52 ∧ -1074 < exponent then 1 else 2
  ⟨4 * significand - gap, 4 * significand, 4 * significand + 2, exponent - 2, significand % 2 == 0⟩

/-- A multiple of the power of two as a fraction of `10 ^ place`: its numerator. -/
def Neighbourhood.numerator (b : Neighbourhood) (place : Int) (n : Nat) : Nat :=
  n * Nat.pow 2 b.exponent.toNat * Nat.pow 10 (-place).toNat

def Neighbourhood.denominator (b : Neighbourhood) (place : Int) : Nat :=
  Nat.pow 2 (-b.exponent).toNat * Nat.pow 10 place.toNat

/-- Whether `n * 10 ^ place` lies in the interval. -/
def Neighbourhood.holds (b : Neighbourhood) (place : Int) (n : Nat) : Bool :=
  let x := n * b.denominator place
  let low := b.numerator place b.low
  let high := b.numerator place b.high
  if b.closed then low ≤ x && x ≤ high else low < x && x < high

/-- The multiple of `10 ^ place` in the interval that is nearest to the middle. -/
def Neighbourhood.nearest? (b : Neighbourhood) (tie : Tie) (place : Int) : Option Nat :=
  let middle := b.numerator place b.middle
  let den := b.denominator place
  let n := middle / den
  match b.holds place n, b.holds place (n + 1) with
  | true, true =>
    let half := (2 * n + 1) * den
    if 2 * middle < half then some n
    else if half < 2 * middle then some (n + 1)
    else match tie with
      | .toEven => some (n + n % 2)
      | .up => some (n + 1)
  | true, false => some n
  | false, true => some (n + 1)
  | false, false => none

/-- Goes from a decimal place to lower ones until one has a hit. Seventeen digits are enough. -/
def search (b : Neighbourhood) (tie : Tie) : Nat → Int → Nat × Int
  | 0, place => (b.numerator place b.middle / b.denominator place, place)
  | steps + 1, place =>
    match b.nearest? tie place with
    | some n => (n, place)
    | none => search b tie steps (place - 1)

/-- The shortest digits for `significand * 2 ^ exponent` and the place of the last of them. -/
def digits (tie : Tie) (significand : Nat) (exponent : Int) : Nat × Int :=
  if significand = 0 then (0, 0)
  else
    let top := ((significand.log2 + 1 + exponent) * 30103).fdiv 100000 + 2
    search (neighbourhood significand exponent) tie 22 top

example : digits .toEven 0x1999999999999a (-56) = (1, -1) := by decide +kernel
example : digits .toEven 1 (-1074) = (5, -324) := by decide +kernel
example : digits .toEven (Nat.pow 2 52) (-96) = (5684341886080802, -29) := by decide +kernel

end Shortest
end Mustache.Decimal
