import Mustache.Decimal.Digits

/-! The lexemes of a JSON text: marks, quoted texts, and the words that are numbers or names. -/
namespace Mustache.Data.Json

inductive Lexeme where
  | mark (c : Char)
  | text (t : Text)
  | word (w : Text)
  deriving DecidableEq, Repr

namespace Lexeme

def isMark (c : Char) : Bool :=
  c == '[' || c == ']' || c == '{' || c == '}' || c == ',' || c == ':'

def isSpace (c : Char) : Bool :=
  c == ' ' || c == '\t' || c == '\n' || c == '\r'

/-- The character that a backslash and a letter stand for. -/
def escape? : Char → Option Char
  | '"' => some '"'
  | '\\' => some '\\'
  | '/' => some '/'
  | 'b' => some '\x08'
  | 'f' => some '\x0c'
  | 'n' => some '\n'
  | 'r' => some '\r'
  | 't' => some '\t'
  | _ => none

def isHighSurrogate (n : Nat) : Bool := 0xd800 ≤ n && n < 0xdc00
def isLowSurrogate (n : Nat) : Bool := 0xdc00 ≤ n && n < 0xe000

/-- The characters of a list of code points and pairs of surrogates; a lone one has none. -/
def joinSurrogates : List Nat → Option Text
  | [] => some []
  | high :: low :: rest =>
    if isHighSurrogate high && isLowSurrogate low then
      (Char.ofNat (0x10000 + (high - 0xd800) * 0x400 + (low - 0xdc00)) :: ·) <$> joinSurrogates rest
    else if isHighSurrogate high || isLowSurrogate high then none
    else (Char.ofNat high :: ·) <$> joinSurrogates (low :: rest)
  | [n] => if isHighSurrogate n || isLowSurrogate n then none else some [Char.ofNat n]

/-- Ends the word whose characters are given, the newest first. -/
def flush (word : Text) (rest : List Lexeme) : List Lexeme :=
  if word = [] then rest else .word word.reverse :: rest

mutual

/-- The lexemes of a text, given the characters of a word that has been begun. -/
def unquoted (word : Text) : Text → Option (List Lexeme)
  | [] => some (flush word [])
  | c :: s =>
    if c = '"' then flush word <$> quoted [] s
    else if isMark c then (flush word <| .mark c :: ·) <$> unquoted [] s
    else if isSpace c then flush word <$> unquoted [] s
    else unquoted (c :: word) s

/-- The lexemes of a text that starts within quotes, given the code points since then. -/
def quoted (points : List Nat) : Text → Option (List Lexeme)
  | [] => none
  | '\\' :: 'u' :: a :: b :: c :: d :: s => do
    let digits ← [a, b, c, d].mapM Decimal.hexDigit?
    quoted (Decimal.ofDigits 16 digits :: points) s
  | '\\' :: c :: s => do quoted ((← escape? c).toNat :: points) s
  | c :: s =>
    if c = '"' then do
      let t ← joinSurrogates points.reverse
      (.text t :: ·) <$> unquoted [] s
    else if c.toNat < 0x20 then none
    else quoted (c.toNat :: points) s

end

/-- The lexemes of a whole text, if every quoted one is well formed. -/
def ofText? (s : Text) : Option (List Lexeme) :=
  unquoted [] s

example : ofText? ['[', '-', '1', ' ', ']'] = some [.mark '[', .word ['-', '1'], .mark ']'] := by
  decide
example : ofText? ['"', '\\', 'u', 'd', '8', '3', 'd', '"'] = none := by decide

end Lexeme
end Mustache.Data.Json
