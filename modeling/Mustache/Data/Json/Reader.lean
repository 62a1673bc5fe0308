import Mustache.Data.Json
import Mustache.Data.Json.Lexeme
import Mustache.Data.Json.Numeral

/-! Reading JSON texts: one lexeme at a time, with the open lists and objects on a stack. -/
namespace Mustache.Data.Json

/-- A list or an object that a value is being read for, with what it holds so far, the newest
first. -/
inductive Outer where
  | list (items : List Json)
  | object (members : List (Text × Json)) (key : Text)
  deriving Repr

/-- What has been read of the innermost value, and so what may come next. -/
inductive Expected where
  | value
  | firstItem
  | firstKey
  | key (members : List (Text × Json))
  | colon (members : List (Text × Json)) (key : Text)
  | afterItem (items : List Json)
  | afterMember (members : List (Text × Json))
  | nothing (result : Json)
  deriving Repr

structure Reader where
  outer : List Outer
  expected : Expected
  deriving Repr

namespace Reader

/-- Puts a complete value where it belongs. -/
def supply (v : Json) : List Outer → Reader
  | [] => ⟨[], .nothing v⟩
  | .list items :: outer => ⟨outer, .afterItem (v :: items)⟩
  | .object members key :: outer => ⟨outer, .afterMember ((key, v) :: members)⟩

def valueOfWord? (w : Text) : Option Json :=
  if w = "null".toList then some .null
  else if w = "true".toList then some (.bool true)
  else if w = "false".toList then some (.bool false)
  else .number <$> numberOfWord? w

/-- Reads the start of a value. Lists and objects may lie in one another up to a depth. -/
def startValue (depth : Nat) (outer : List Outer) : Lexeme → Option Reader
  | .text t => some (supply (.text t) outer)
  | .word w => (supply · outer) <$> valueOfWord? w
  | .mark '[' => if outer.length < depth then some ⟨outer, .firstItem⟩ else none
  | .mark '{' => if outer.length < depth then some ⟨outer, .firstKey⟩ else none
  | .mark _ => none

def step (depth : Nat) (r : Reader) (l : Lexeme) : Option Reader :=
  match r.expected, l with
  | .value, l => startValue depth r.outer l
  | .firstItem, .mark ']' => some (supply (.list []) r.outer)
  | .firstItem, l => startValue depth (.list [] :: r.outer) l
  | .afterItem items, .mark ',' => some ⟨.list items :: r.outer, .value⟩
  | .afterItem items, .mark ']' => some (supply (.list items.reverse) r.outer)
  | .firstKey, .mark '}' => some (supply (.object []) r.outer)
  | .firstKey, .text key => some ⟨r.outer, .colon [] key⟩
  | .key members, .text key => some ⟨r.outer, .colon members key⟩
  | .colon members key, .mark ':' => some ⟨.object members key :: r.outer, .value⟩
  | .afterMember members, .mark ',' => some ⟨r.outer, .key members⟩
  | .afterMember members, .mark '}' => some (supply (.object members.reverse) r.outer)
  | _, _ => none

def result? (r : Reader) : Option Json :=
  match r.expected with
  | .nothing v => some v
  | _ => none

end Reader

/-- How deep lists and objects of a document may lie in one another. -/
def maxDepth : Nat := 127

/-- Reads a text that is one JSON value and nothing else, no deeper than the given depth. -/
def ofTextWithin? (depth : Nat) (s : Text) : Option Json := do
  let lexemes ← Lexeme.ofText? s
  let r ← lexemes.foldlM (Reader.step depth) ⟨[], .value⟩
  r.result?

def ofText? (s : Text) : Option Json :=
  ofTextWithin? maxDepth s

end Mustache.Data.Json
