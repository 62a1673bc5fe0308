import Mustache.Data.Yaml.Cursor
import Mustache.Decimal.Digits

/-! How tags are written: a handle that stands for the start of a name, and the rest of it. -/
namespace Mustache.Data.Yaml

/-- A tag as it is written. Names are bytes, for they may have any bytes written out in them. -/
structure TagName where
  handle : Text
  rest : List UInt8
  deriving DecidableEq, Repr

namespace TagName

/-- The bytes of a text in ASCII. -/
def bytes (s : Text) : List UInt8 :=
  s.map fun c => UInt8.ofNat c.toNat

/-- What a name may hold; where it stands between angle brackets it may also hold commas and square
brackets. -/
def isUriChar (bracketed : Bool) (c : Char) : Bool :=
  isNameChar c || c ∈ ";/?:@&=+$.%!~*'()".toList || (bracketed && c ∈ ",[]".toList)

/-- Reads one byte that is written as a percent sign and two digits. -/
def byte? : Text → Option UInt8
  | '%' :: a :: b :: _ => UInt8.ofNat <$> Decimal.ofTextIn? 16 [a, b]
  | _ => none

/-- How many bytes a character takes whose first one is given. -/
def byteCount? (first : UInt8) : Option Nat :=
  if first < 0x80 then some 1
  else if first < 0xc0 then none
  else if first < 0xe0 then some 2
  else if first < 0xf0 then some 3
  else if first < 0xf8 then some 4
  else none

def isTrailing (byte : UInt8) : Bool :=
  0x80 ≤ byte && byte < 0xc0

/-- Reads the bytes of one character. They have the right form, but they may still be no
character. -/
def readEscape? (s : Text) : Option (List UInt8) := do
  let first ← byte? s
  let count ← byteCount? first
  let others ← (List.range (count - 1)).mapM fun i => byte? (s.drop (3 * (i + 1)))
  if others.all isTrailing then some (first :: others) else none

/-- Reads the characters of a name, given the bytes before them, the newest first. -/
def readUri? (bracketed : Bool) : Nat → List UInt8 → Cursor → Option (List UInt8 × Cursor)
  | 0, _, _ => none
  | steps + 1, name, c =>
    match c.rest with
    | [] => some (name.reverse, c)
    | a :: _ =>
      if a = '%' then
        match readEscape? c.rest with
        | some escaped =>
          readUri? bracketed steps (escaped.reverse ++ name) (c.advance (3 * escaped.length))
        | none => none
      else if isUriChar bracketed a then readUri? bracketed steps (bytes [a] ++ name) c.skip
      else some (name.reverse, c)

def uri? (bracketed : Bool) (c : Cursor) : Option (List UInt8 × Cursor) :=
  readUri? bracketed (c.rest.length + 1) [] c

/-- A name that some bytes are written for: a zero ends it. -/
def upToZero (name : List UInt8) : List UInt8 :=
  name.takeWhile (· != 0)

/-- Takes a handle off the front: an exclamation mark, and perhaps a name and another mark. -/
def takeHandle (c : Cursor) : Text × Cursor :=
  let (name, after) := c.skip.takeWhile isNameChar
  if after.rest.head? = some '!' then ('!' :: name ++ ['!'], after.skip) else ('!' :: name, after)

def isWholeHandle (handle : Text) : Bool :=
  handle.length != 1 && handle.getLast? == some '!'

/-- A tag that starts with an exclamation mark and has no other one in it; if there is nothing but
the mark then it is a full name. -/
def ofMark (rest : List UInt8) : TagName :=
  if rest = [] then ⟨[], bytes ['!']⟩ else ⟨['!'], rest⟩

/-- Reads a full name between angle brackets. -/
def readFull? (c : Cursor) : Option (TagName × Cursor) := do
  let (name, after) ← uri? true (c.advance 2)
  if name ≠ [] ∧ after.rest.head? = some '>' then some (⟨[], upToZero name⟩, after.skip) else none

/-- Reads a handle and the rest of a name, or just an exclamation mark and the rest. -/
def readShort? (c : Cursor) : Option (TagName × Cursor) := do
  let (handle, after) := takeHandle c
  let (name, after) ← uri? false after
  if isWholeHandle handle then
    if name = [] then none else some (⟨handle, upToZero name⟩, after)
  else some (ofMark (upToZero (bytes handle.tail ++ name)), after)

/-- Reads a tag. Behind it comes a gap, or within brackets a comma. -/
def read? (inFlow : Bool) (c : Cursor) : Option (TagName × Cursor) := do
  let (tag, after) ← if c.rest.tail.head? = some '<' then readFull? c else readShort? c
  if atGap after.rest || (inFlow && after.rest.head? == some ',') then some (tag, after) else none

example : (read? false (.start ['!', 'a', '+'])).map Prod.fst
    = some ⟨['!'], bytes ['a', '+']⟩ := by decide
example : (read? false (.start ['!'])).map Prod.fst = some ⟨[], bytes ['!']⟩ := by decide
example : (read? false (.start ['!', 'a', '!', 'b'])).map Prod.fst
    = some ⟨['!', 'a', '!'], bytes ['b']⟩ := by decide
example : (read? true (.start ['!', 'a', ']'])).map Prod.fst = none := by decide

/-- What the handles stand for that every document knows. -/
def handles : List (Text × List UInt8) :=
  [(['!'], bytes ['!']), (['!', '!'], bytes "tag:yaml.org,2002:".toList)]

/-- The full name of a tag, given what handles stand for. -/
def resolve? (known : List (Text × List UInt8)) (tag : TagName) : Option (List UInt8) :=
  if tag.handle = [] then some tag.rest else (known.lookup tag.handle).map (· ++ tag.rest)

end TagName
end Mustache.Data.Yaml
