import Mustache.Text.Blank
import Mustache.Error

/-! Tags: delimiters, names, and what the text between two delimiters says. -/
namespace Mustache

/-- The marks that open and close a tag. -/
structure Delimiters where
  opening : Text
  closing : Text
  deriving DecidableEq, Repr

namespace Delimiters

/-- Double braces, in force at the start of every source. -/
def braces : Delimiters := ⟨['{', '{'], ['}', '}']⟩

/-- The inside of a set-delimiter tag without its marks: one `=` at the very end belongs to the
tag. -/
def inside (s : Text) : Text :=
  if s.getLast? = some '=' then s.dropLast else s

/-- Reads the inside of a set-delimiter tag after its first `=`: two words, neither with a `=` in
it. -/
def ofText (s : Text) : Except TagFault Delimiters :=
  match Text.words (inside s) with
  | [opening, closing] =>
    if '=' ∈ inside s then .error .invalidDelimiters else .ok ⟨opening, closing⟩
  | _ => .error .invalidDelimiters

end Delimiters

/-- What a tag asks for. Sections open and close by name; an inclusion names another template. -/
inductive Tag where
  | value (path : Text) (escaped : Bool)
  | opening (inverted : Bool) (path : Text)
  | closing (name : Text)
  | inclusion (name : Text)
  | comment
  | switch (delimiters : Delimiters)
  deriving DecidableEq, Repr

namespace Tag

/-- The segments of a dotted name. -/
def segments (name : Text) : List Text :=
  Text.splitWhere (· == '.') name

/-- Lets a name through that is a single dot, or dotted segments that are not empty and hold no
white space. -/
def checkName (name : Text) : Except TagFault Text :=
  if name = ['.'] then .ok name
  else if name = [] then .error .missingName
  else if (segments name).any List.isEmpty || name.any Text.isSpace then .error .invalidName
  else .ok name

/-- Reads the text between two delimiters, trimmed: its first character tells the kind of tag. -/
def ofText : Text → Except TagFault Tag
  | [] => .error .missingName
  | '!' :: _ => .ok .comment
  | '=' :: s => switch <$> Delimiters.ofText (s.dropWhile Text.isSpace)
  | '#' :: s => opening false <$> checkName (s.dropWhile Text.isSpace)
  | '^' :: s => opening true <$> checkName (s.dropWhile Text.isSpace)
  | '/' :: s => closing <$> checkName (s.dropWhile Text.isSpace)
  | '>' :: s => inclusion <$> checkName (s.dropWhile Text.isSpace)
  | '&' :: s => (value · false) <$> checkName (s.dropWhile Text.isSpace)
  | '{' :: s => (value · false) <$> checkName (s.dropWhile Text.isSpace)
  | s => (value · true) <$> checkName s

/-- Tags that take their line with them when nothing but blanks shares it. -/
def mayStandAlone : Tag → Bool
  | value _ _ => false
  | _ => true

/-- The delimiters in force after a tag. -/
def delimitersAfter (d : Delimiters) : Tag → Delimiters
  | switch d' => d'
  | _ => d

example : ofText ['#', ' ', 'a', '.', 'b'] = .ok (opening false ['a', '.', 'b']) := rfl
example : ofText ['a', '.', '.', 'b'] = .error .invalidName := rfl
example : ofText ['=', '<', ' ', '>', '='] = .ok (switch ⟨['<'], ['>']⟩) := rfl

end Tag
end Mustache
