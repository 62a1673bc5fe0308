import Mustache.Data.Yaml.Directive
import Mustache.Data.Yaml.Block
import Mustache.Data.Yaml.Plain
import Mustache.Data.Yaml.Quoted

/-! The lexemes of a YAML text. -/
namespace Mustache.Data.Yaml

/-- The pieces that a text is read from. Lists and mappings that are told by their indentation have
a lexeme in front of them and one behind them, and so has every key. -/
inductive Lexeme where
  | directive (d : Directive)
  | documentStart
  | documentEnd
  | blockList
  | blockMapping
  | blockEnd
  | opening (c : Char)
  | closing (c : Char)
  | dash
  | comma
  | key
  | value
  | aliasOf (name : Text)
  | anchor (name : Text)
  | tag (t : TagName)
  | scalar (plain : Bool) (t : Text)
  deriving DecidableEq, Repr

/-- A place where a key may have started: how many lexemes are in front of it, and whether nothing
but a key can stand there. -/
structure Lexeme.KeyPlace where
  before : Nat
  offset : Nat
  line : Nat
  column : Nat
  required : Bool
  deriving DecidableEq, Repr

/-- How far a text is read. The lexemes are the newest first, and so are the columns of the blocks
that are open. There is a place for a key on each level of brackets. -/
structure Lexeme.Scan where
  cursor : Cursor
  lexemes : List Lexeme
  columns : List Nat
  key? : Option Lexeme.KeyPlace
  outerKeys : List (Option Lexeme.KeyPlace)
  keyAllowed : Bool
  deriving Repr

namespace Lexeme.Scan

def start (s : Text) : Scan := ⟨.start s, [], [], none, [], true⟩

def inFlow (s : Scan) : Bool := !s.outerKeys.isEmpty

/-- The first column inside the innermost block. -/
def inside (s : Scan) : Nat :=
  match s.columns with
  | [] => 0
  | column :: _ => column + 1

def add (s : Scan) (l : Lexeme) : Scan :=
  { s with lexemes := l :: s.lexemes }

/-- Adds a lexeme behind as many others. -/
def insert (s : Scan) (before : Nat) (l : Lexeme) : Scan :=
  let newer := s.lexemes.length - before
  { s with lexemes := s.lexemes.take newer ++ l :: s.lexemes.drop newer }

/-- Opens a block at a column unless there is one already. Brackets have no blocks in them. -/
def openBlock (s : Scan) (column before : Nat) (l : Lexeme) : Scan :=
  if s.inFlow || column < s.inside then s
  else { s.insert before l with columns := column :: s.columns }

/-- Ends the blocks that have no part in a column. -/
def closeBlocks (s : Scan) (column? : Option Nat) : Scan :=
  if s.inFlow then s
  else
    let closed := (s.columns.takeWhile fun column => column?.all (· < column)).length
    { s with
      columns := s.columns.drop closed
      lexemes := List.replicate closed blockEnd ++ s.lexemes }

/-- Gives up the place of a key, which is a fault if there has to be one. -/
def dropKey? (s : Scan) : Option Scan :=
  if s.key?.any KeyPlace.required then none else some { s with key? := none }

/-- Keeps in mind that a key may start here. -/
def saveKey? (s : Scan) : Option Scan :=
  if s.keyAllowed then do
    let s ← s.dropKey?
    let c := s.cursor
    let required := !s.inFlow && s.columns.head? == some c.column
    some { s with key? := some ⟨s.lexemes.length, c.offset, c.line, c.column, required⟩ }
  else some s

/-- A key does not go past the end of its line or 1024 bytes. -/
def isStale (c : Cursor) (k : KeyPlace) : Bool :=
  k.line < c.line || k.offset + 1024 < c.offset

/-- Gives up the places of keys that are too far off. -/
def dropStale? (s : Scan) : Option Scan :=
  let stale (k? : Option KeyPlace) := k?.filter (isStale s.cursor)
  if (s.key? :: s.outerKeys).any fun k? => (stale k?).any KeyPlace.required then none
  else
    let fresh (k? : Option KeyPlace) := k?.filter fun k => !isStale s.cursor k
    some { s with key? := fresh s.key?, outerKeys := s.outerKeys.map fresh }

/-- Leaves out what stands between two lexemes: blanks, comments, breaks, and byte order marks at
the start of a line. Tabs do not stand where a key may start a block. -/
def skipGap : Nat → Scan → Scan
  | 0, s => s
  | steps + 1, s =>
    let c := s.cursor
    let c := if c.column = 0 ∧ c.rest.head? = some '\ufeff' then c.skip else c
    let c := c.skipWhile fun a => a == ' ' || (a == '\t' && (s.inFlow || !s.keyAllowed))
    let c := if c.rest.head? = some '#' then c.skipWhile fun a => !isBreak a else c
    if c.rest.head?.any isBreak then
      skipGap steps { s with cursor := c.skip, keyAllowed := s.keyAllowed || !s.inFlow }
    else { s with cursor := c }

/-- Takes a lexeme of some length off the front. -/
def take (s : Scan) (length : Nat) (keyAllowed : Bool) (l : Lexeme) : Scan :=
  { s.add l with cursor := s.cursor.advance length, keyAllowed := keyAllowed }

/-- Takes a lexeme that goes as far as another place. -/
def takeTo (s : Scan) (after : Cursor) (keyAllowed : Bool) (l : Lexeme) : Scan :=
  { s.add l with cursor := after, keyAllowed := keyAllowed }

def openBracket? (s : Scan) (c : Char) : Option Scan := do
  let s ← s.saveKey?
  some ({ s with key? := none, outerKeys := s.key? :: s.outerKeys }.take 1 true (opening c))

def closeBracket? (s : Scan) (c : Char) : Option Scan := do
  let s ← s.dropKey?
  let s := match s.outerKeys with
    | [] => s
    | key? :: outerKeys => { s with key? := key?, outerKeys := outerKeys }
  some (s.take 1 false (closing c))

/-- Takes a sign that starts an item or a key. Outside of brackets it opens a block. -/
def sign? (s : Scan) (block sign : Lexeme) (keyAllowed : Bool) : Option Scan := do
  if !s.inFlow && !s.keyAllowed then none
  else
    let s ← (s.openBlock s.cursor.column s.lexemes.length block).dropKey?
    some (s.take 1 keyAllowed sign)

/-- Takes a dash. Within brackets it is taken as well, but it has no meaning there. -/
def dash? (s : Scan) : Option Scan :=
  if s.inFlow then s.dropKey?.map fun s => s.take 1 true dash else s.sign? blockList dash true

/-- Takes a colon: what stands at the place of a key becomes one. Without such a place the key is
empty, or it was told by a question mark. -/
def value? (s : Scan) : Option Scan :=
  match s.key? with
  | some k =>
    let s := (s.insert k.before key).openBlock k.column k.before blockMapping
    some ({ s with key? := none }.take 1 false value)
  | none => s.sign? blockMapping value (!s.inFlow)

/-- Takes the name of an anchor. -/
def name? (s : Scan) (lexeme : Text → Lexeme) : Option Scan := do
  let s ← s.saveKey?
  let (name, after) := s.cursor.skip.takeWhile isNameChar
  if name ≠ [] ∧ (atGap after.rest || after.rest.head?.any (· ∈ "?:,]\x7d%@`".toList)) then
    some (s.takeTo after false (lexeme name))
  else none

def tag? (s : Scan) : Option Scan := do
  let s ← s.saveKey?
  let (t, after) ← TagName.read? s.inFlow s.cursor
  some (s.takeTo after false (tag t))

def blockScalar? (s : Scan) (folded : Bool) : Option Scan := do
  let s ← s.dropKey?
  let (t, after) ← Block.read? folded s.inside s.cursor.skip
  some (s.takeTo after true (scalar false t))

def quoted? (s : Scan) (quote : Char) : Option Scan := do
  let s ← s.saveKey?
  let (t, after) ← Quoted.read quote s.cursor
  some (s.takeTo after false (scalar false t))

def plain? (s : Scan) : Option Scan := do
  let s ← s.saveKey?
  let r ← Plain.read s.inFlow s.inside s.cursor
  some (s.takeTo r.after r.lineEnded (scalar true r.text))

/-- Takes what belongs to no block: all of them end here. -/
def outside? (s : Scan) : Option Scan :=
  (s.closeBlocks none).dropKey?

def directive? (s : Scan) : Option Scan := do
  let s ← s.outside?
  let (d, after) ← Directive.read? s.cursor
  some (s.takeTo after false (directive d))

/-- Takes the lexeme that begins with a character in front of some text. -/
def lexeme? (s : Scan) (c : Char) (rest : Text) : Option Scan :=
  if c = '%' ∧ s.cursor.column = 0 then s.directive?
  else if s.cursor.atMark '-' then s.outside?.map (·.take 3 false documentStart)
  else if s.cursor.atMark '.' then s.outside?.map (·.take 3 false documentEnd)
  else if c = '[' ∨ c = '{' then s.openBracket? c
  else if c = ']' ∨ c = '}' then s.closeBracket? c
  else if c = ',' then s.dropKey?.map (·.take 1 true comma)
  else if c = '-' ∧ atGap rest then s.dash?
  else if c = '?' ∧ (s.inFlow || atGap rest) then s.sign? blockMapping key (!s.inFlow)
  else if c = ':' ∧ (s.inFlow || atGap rest) then s.value?
  else if c = '*' then s.name? aliasOf
  else if c = '&' then s.name? anchor
  else if c = '!' then s.tag?
  else if (c = '|' ∨ c = '>') ∧ !s.inFlow then s.blockScalar? (c == '>')
  else if c = '\'' ∨ c = '"' then s.quoted? c
  else if Plain.startsWith s.inFlow c rest then s.plain?
  else none

/-- Takes one lexeme after the other up to the end of the text. -/
def run? : Nat → Scan → Option (List Lexeme)
  | 0, _ => none
  | steps + 1, s => do
    let s ← (s.skipGap (s.cursor.rest.length + 1)).dropStale?
    let s := s.closeBlocks (some s.cursor.column)
    match s.cursor.rest with
    | [] => return (← s.outside?).lexemes.reverse
    | c :: rest => run? steps (← s.lexeme? c rest)

end Lexeme.Scan

/-- The lexemes of a text. -/
def Lexeme.ofText? (s : Text) : Option (List Lexeme) :=
  let s := unifyNewlines s
  if s.all isAllowed then (Scan.start s).run? (s.length + 1) else none

example : Lexeme.ofText? ['a', ':', ' ', '-', '1'] = some
    [.blockMapping, .key, .scalar true ['a'], .value, .scalar true ['-', '1'], .blockEnd] := by
  decide +kernel

end Mustache.Data.Yaml
