import Mustache.Data.Yaml.Character

/-! A place in a YAML text and what follows it. -/
namespace Mustache.Data.Yaml

/-- What is left of a text, how many bytes in UTF-8 are in front of it, and the numbers of its line
and of its first character within that line. -/
structure Cursor where
  rest : Text
  offset : Nat
  line : Nat
  column : Nat
  deriving DecidableEq, Repr

namespace Cursor

def start (s : Text) : Cursor := ⟨s, 0, 0, 0⟩

/-- The place behind the next character. -/
def skip (c : Cursor) : Cursor :=
  match c.rest with
  | [] => c
  | a :: s =>
    let offset := c.offset + a.utf8Size
    if isBreak a then ⟨s, offset, c.line + 1, 0⟩ else ⟨s, offset, c.line, c.column + 1⟩

/-- The place behind some characters. -/
def advance : Nat → Cursor → Cursor
  | 0, c => c
  | n + 1, c => advance n c.skip

/-- Takes the characters of a class off the front. -/
def takeWhile (p : Char → Bool) (c : Cursor) : Text × Cursor :=
  let s := c.rest.takeWhile p
  (s, c.advance s.length)

def skipWhile (p : Char → Bool) (c : Cursor) : Cursor :=
  (c.takeWhile p).2

/-- Leaves out blanks and a comment, which a number sign begins. -/
def skipComment (c : Cursor) : Cursor :=
  let c := c.skipWhile Text.isBlank
  if c.rest.head? = some '#' then c.skipWhile fun a => !isBreak a else c

/-- Leaves out the rest of a line that has nothing but blanks and a comment on it. -/
def skipLine? (c : Cursor) : Option Cursor :=
  let c := c.skipComment
  match c.rest with
  | [] => some c
  | a :: _ => if isBreak a then some c.skip else none

/-- Whether a mark of three equal signs stands at the start of the line. -/
def atMark (c : Cursor) (sign : Char) : Bool :=
  c.column == 0 && c.rest.take 3 == [sign, sign, sign] && atGap (c.rest.drop 3)

/-- Whether a document starts or ends here. -/
def atDocumentMark (c : Cursor) : Bool :=
  c.atMark '-' || c.atMark '.'

end Cursor
end Mustache.Data.Yaml
