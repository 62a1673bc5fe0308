import Mustache.Text.Blank

/-! The classes of characters that YAML texts are made of. -/
namespace Mustache.Data.Yaml

/-- The characters that a text may hold. -/
def isAllowed (c : Char) : Bool :=
  let n := c.toNat
  n == 0x09 || n == 0x0a || n == 0x0d || (0x20 ≤ n && n ≤ 0x7e) || n == 0x85
    || (0xa0 ≤ n && n ≤ 0xfffd) || 0x10000 ≤ n

/-- A carriage return, a line feed, both together and a next-line character are all newlines. -/
def unifyNewlines : Text → Text
  | '\r' :: '\n' :: s => '\n' :: unifyNewlines s
  | c :: s => (if c = '\r' ∨ c = '\u0085' then '\n' else c) :: unifyNewlines s
  | [] => []

/-- What ends a line: a newline, or a line or paragraph separator. -/
def isBreak (c : Char) : Bool :=
  c == '\n' || c == '\u2028' || c == '\u2029'

/-- Blanks and what ends a line. -/
def isGap (c : Char) : Bool :=
  Text.isBlank c || isBreak c

/-- Whether a gap comes next, or nothing at all. -/
def atGap : Text → Bool
  | [] => true
  | c :: _ => isGap c

/-- What the names of anchors, directives and tag handles are made of. -/
def isNameChar (c : Char) : Bool :=
  c.isAlphanum || c == '_' || c == '-'

/-- What parts values within brackets. -/
def isFlowMark (c : Char) : Bool :=
  c == ',' || c == '[' || c == ']' || c == '{' || c == '}'

/-- What a gap within a scalar comes to. Blanks stay, but a break takes the blanks around it with
it, and a newline is a space unless other breaks follow it. -/
def fold (gap : Text) : Text :=
  match gap.filter isBreak with
  | [] => gap
  | ['\n'] => [' ']
  | '\n' :: breaks => breaks
  | breaks => breaks

example : fold [' ', '\t'] = [' ', '\t'] := by decide
example : fold [' ', '\n', ' '] = [' '] := by decide
example : fold ['\n', ' ', '\n', '\n'] = ['\n', '\n'] := by decide
example : fold [' ', '\u2028', ' '] = ['\u2028'] := by decide

end Mustache.Data.Yaml
