import Mustache.Data.Yaml.Cursor
import Mustache.Decimal.Digits

/-! Quoted scalars. -/
namespace Mustache.Data.Yaml.Quoted

/-- What a character stands for behind a backslash. -/
def escape? : Char → Option Char
  | '0' => some '\x00'
  | 'a' => some '\x07'
  | 'b' => some '\x08'
  | 't' => some '\t'
  | '\t' => some '\t'
  | 'n' => some '\n'
  | 'v' => some '\x0b'
  | 'f' => some '\x0c'
  | 'r' => some '\r'
  | 'e' => some '\x1b'
  | ' ' => some ' '
  | '"' => some '"'
  | '/' => some '/'
  | '\\' => some '\\'
  | 'N' => some '\u0085'
  | '_' => some '\u00a0'
  | 'L' => some '\u2028'
  | 'P' => some '\u2029'
  | _ => none

/-- How many digits follow a letter behind a backslash. -/
def digitCount? : Char → Option Nat
  | 'x' => some 2
  | 'u' => some 4
  | 'U' => some 8
  | _ => none

/-- The character of a code point; surrogates and what lies past the last one have none. -/
def character? (digits : Text) : Option Char := do
  let n ← Decimal.ofTextIn? 16 digits
  if h : n.isValidChar then some (Char.ofNatAux n h) else none

/-- Reads what follows a backslash: a character, and from how many it was read. -/
def readEscape? : Text → Option (Char × Nat)
  | [] => none
  | c :: s =>
    match digitCount? c with
    | some n =>
      let digits := s.take n
      if digits.length = n then (character? digits).map (·, n + 1) else none
    | none => (escape? c).map (·, 1)

/-- Reads on within quotes, given the text so far, the newest first. Two single quotes stand for
one, and a backslash within double quotes takes away the break behind it. -/
def readOn (quote : Char) : Nat → Text → Cursor → Option (Text × Cursor)
  | 0, _, _ => none
  | steps + 1, t, c =>
    if c.atDocumentMark then none
    else match c.rest with
      | [] => none
      | a :: s =>
        if isGap a then
          let (gap, c) := c.takeWhile isGap
          readOn quote steps ((fold gap).reverse ++ t) c
        else if a = quote then
          if quote = '\'' ∧ s.head? = some quote then readOn quote steps (a :: t) (c.advance 2)
          else some (t.reverse, c.skip)
        else if quote = '"' ∧ a = '\\' then
          if s.head?.any isBreak then
            let (gap, c) := (c.advance 2).takeWhile isGap
            readOn quote steps ((gap.filter isBreak).reverse ++ t) c
          else match readEscape? s with
            | some (b, n) => readOn quote steps (b :: t) (c.advance (n + 1))
            | none => none
        else readOn quote steps (a :: t) c.skip

/-- Reads a scalar that starts with a quote. -/
def read (quote : Char) (c : Cursor) : Option (Text × Cursor) :=
  readOn quote (c.rest.length + 1) [] c.skip

example : (read '\'' (.start ['\'', 'a', '\'', '\'', '\''])).map Prod.fst = some ['a', '\''] := by
  decide
example : (read '"' (.start ['"', 'a', ' ', '\n', 'b', '"'])).map Prod.fst
    = some ['a', ' ', 'b'] := by decide

end Mustache.Data.Yaml.Quoted
