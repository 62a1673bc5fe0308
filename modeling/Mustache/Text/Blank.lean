import Mustache.Text

/-! The three classes of white space that templates tell apart. -/
namespace Mustache.Text

/-- Spaces and tabs: what may share a line with a tag that stands alone. -/
def isBlank (c : Char) : Bool :=
  c == ' ' || c == '\t'

/-- White space between the words of a set-delimiter tag: space, tab, newline, form feed, return. -/
def isAsciiSpace (c : Char) : Bool :=
  c == ' ' || c == '\t' || c == '\n' || c == '\x0c' || c == '\r'

/-- The ranges of the Unicode property `White_Space`, in order. -/
def whiteSpaceRanges : List (Nat × Nat) :=
  [(0x09, 0x0d), (0x20, 0x20), (0x85, 0x85), (0xa0, 0xa0), (0x1680, 0x1680), (0x2000, 0x200a),
   (0x2028, 0x2029), (0x202f, 0x202f), (0x205f, 0x205f), (0x3000, 0x3000)]

/-- White space of any script: what is trimmed around the contents of a tag. -/
def isSpace (c : Char) : Bool :=
  whiteSpaceRanges.any fun (first, last) => first ≤ c.toNat && c.toNat ≤ last

theorem isSpace_of_isBlank {c : Char} (h : isBlank c) : isSpace c := by
  simp only [isBlank, Bool.or_eq_true, beq_iff_eq] at h
  rcases h with rfl | rfl <;> decide

theorem isSpace_of_isAsciiSpace {c : Char} (h : isAsciiSpace c) : isSpace c := by
  simp only [isAsciiSpace, Bool.or_eq_true, beq_iff_eq] at h
  rcases h with (((rfl | rfl) | rfl) | rfl) | rfl <;> decide

/-- Leaves out the white space at both ends. -/
def trim (s : Text) : Text :=
  dropEndWhile isSpace (s.dropWhile isSpace)

/-- The words of a text, cut at white space of the ASCII set. -/
def words (s : Text) : List Text :=
  wordsBy isAsciiSpace s

/-- How long the first line of a text is if nothing but blanks stands on it, newline included. -/
def blankLine? (s : Text) : Option Nat :=
  let blanks := (s.takeWhile isBlank).length
  match s.dropWhile isBlank with
  | [] => some blanks
  | '\n' :: _ => some (blanks + 1)
  | '\r' :: '\n' :: _ => some (blanks + 2)
  | _ => none

example : words [' ', '<', '%', '\t', ' ', '%', '>'] = [['<', '%'], ['%', '>']] := by decide
example : blankLine? [' ', '\t', '\r', '\n', 'x'] = some 4 := by decide
example : blankLine? [' ', '\r', 'x'] = none := by decide
example : (whiteSpaceRanges.map fun (first, last) => last + 1 - first).sum = 25 := by decide

end Mustache.Text
