import Mustache.Data.Yaml.Lexeme

/-! The nodes of a YAML document, as they are written: aliases stand for other nodes, and a tag is
just a name. -/
namespace Mustache.Data.Yaml

/-- What stands in front of a node: an anchor, by its number, and a tag, by its full name. -/
structure Properties where
  anchor? : Option Nat
  tag? : Option (List UInt8)
  deriving DecidableEq, Repr

def Properties.none : Properties := ⟨.none, .none⟩

inductive Node where
  | aliasOf (anchor : Nat)
  | scalar (p : Properties) (plain : Bool) (t : Text)
  | list (p : Properties) (items : List Node)
  | mapping (p : Properties) (entries : List (Node × Node))
  deriving Repr, Inhabited

/-- Where a node stands: within brackets, in a block, or behind a key of a block, where the items of
a list need no indentation. -/
inductive Place where
  | flow
  | block
  | entry
  deriving DecidableEq, Repr

namespace Node

/-- Stands where nothing is written. -/
def empty : Node := scalar .none true []

/-- What is left of a document, what its tag handles stand for, and the numbers of the anchors so
far. -/
structure Source where
  lexemes : List Lexeme
  handles : List (Text × List UInt8)
  anchors : List (Text × Nat)
  deriving Repr

abbrev Parse := StateT Source Option

def next? : Parse (Option Lexeme) := do
  return (← get).lexemes.head?

def drop : Parse Unit :=
  modify fun s => { s with lexemes := s.lexemes.tail }

/-- Takes a lexeme if it comes next. -/
def accept (l : Lexeme) : Parse Bool := do
  if (← next?) = some l then
    drop
    return true
  else return false

def expect (l : Lexeme) : Parse Unit := do
  unless ← accept l do failure

/-- Reads until there is nothing more to read, in less than some steps. -/
def times {α : Type} (read? : Parse (Option α)) : Nat → Parse (List α)
  | 0 => failure
  | steps + 1 => do
    match ← read? with
    | some a => return a :: (← times read? steps)
    | none => return []

/-- Reads until there is nothing more to read. Every time takes a lexeme. -/
def many {α : Type} (read? : Parse (Option α)) : Parse (List α) := do
  times read? ((← get).lexemes.length + 1)

/-- Gives an anchor its number: how many names there are so far. A name that comes again counts
once, so the next anchor may have the same number. -/
def define (name : Text) : Parse Nat := do
  let s ← get
  let anchor := s.anchors.length
  set { s with anchors := (name, anchor) :: s.anchors.filter (·.1 != name) }
  return anchor

def readAnchor? : Parse (Option Nat) := do
  match ← next? with
  | some (.anchor name) => do
    drop
    return some (← define name)
  | _ => return none

def readTag? : Parse (Option (List UInt8)) := do
  match ← next? with
  | some (.tag t) =>
    drop
    match t.resolve? (← get).handles with
    | some name => return some name
    | none => failure
  | _ => return none

/-- Reads an anchor and a tag, in any order. -/
def properties : Parse Properties := do
  match ← readTag? with
  | some tag => return ⟨← readAnchor?, some tag⟩
  | none => return ⟨← readAnchor?, ← readTag?⟩

/-- Reads a node unless one of some lexemes comes next: then nothing is written here. -/
def orEmpty (ends : List Lexeme) (read : Parse Node) : Parse Node := do
  if (← next?).any (· ∈ ends) then return empty else read

variable (node : Place → Parse Node)

/-- The next item of a list in a block. -/
def blockItem? : Parse (Option Node) := do
  if ← accept .dash then
    return some (← orEmpty [.dash, .blockEnd] (node .block))
  else
    expect .blockEnd
    return none

/-- The next item of a list that is not indented: nothing marks its end. -/
def looseItem? : Parse (Option Node) := do
  if ← accept .dash then
    return some (← orEmpty [.dash, .key, .value, .blockEnd] (node .block))
  else return none

/-- The next entry of a mapping in a block. -/
def blockPair? : Parse (Option (Node × Node)) := do
  let side := orEmpty [.key, .value, .blockEnd] (node .entry)
  if ← accept .key then
    let key ← side
    let value ← if ← accept .value then side else pure empty
    return some (key, value)
  else
    expect .blockEnd
    return none

/-- Reads what stands between brackets, with commas in between; one may follow the last item. -/
def bracketed {α : Type} (close : Char) (read : Parse α) : Parse (List α) :=
  many do
    if ← accept (.closing close) then return none
    else
      let a ← read
      unless (← next?) = some (.closing close) do expect .comma
      return some a

/-- Reads what follows a key within brackets. -/
def flowValue (close : Char) : Parse Node := do
  if ← accept .value then orEmpty [.comma, .closing close] (node .flow) else return empty

def flowEntry : Parse (Node × Node) := do
  if ← accept .key then
    let key ← orEmpty [.value, .comma, .closing '}'] (node .flow)
    return (key, ← flowValue node '}')
  else return (← node .flow, empty)

/-- Reads a mapping of one entry, whose braces are left out. Where its key is left out as well, what
stands in its place is lost. -/
def flowPair : Parse Node := do
  let key ←
    if (← next?).any (· ∈ [.value, .comma, .closing ']']) then
      drop
      pure empty
    else node .flow
  return mapping .none [(key, ← flowValue node ']')]

def flowItem : Parse Node := do
  if ← accept .key then flowPair node else node .flow

/-- The node that has nothing but properties. -/
def bare (p : Properties) : Parse Node :=
  if p = .none then failure else return scalar p true []

/-- Reads what follows the properties of a node. -/
def content (place : Place) (p : Properties) : Parse Node := do
  match ← next? with
  | some (.scalar plain t) =>
    drop
    return scalar p plain t
  | some (.opening c) =>
    drop
    if c = '[' then return list p (← bracketed ']' (flowItem node))
    else return mapping p (← bracketed '}' (flowEntry node))
  | some .dash => if place = .entry then return list p (← many (looseItem? node)) else bare p
  | some .blockList =>
    if place = .flow then bare p
    else
      drop
      return list p (← many (blockItem? node))
  | some .blockMapping =>
    if place = .flow then bare p
    else
      drop
      return mapping p (← many (blockPair? node))
  | _ => bare p

/-- Reads a node, given how the nodes in it are read. -/
def read (place : Place) : Parse Node := do
  match ← next? with
  | some (.aliasOf name) =>
    drop
    match (← get).anchors.lookup name with
    | some anchor => return aliasOf anchor
    | none => failure
  | _ => content node place (← properties)

/-- Reads a node of some levels at most. -/
def within : Nat → Place → Parse Node
  | 0, _ => failure
  | levels + 1, place => read (within levels) place

/-- How many levels of lists and mappings a document may have. -/
def maxLevels : Nat := 128

/-- Reads a document behind its start. -/
def afterStart : Parse Node := do
  match ← next? with
  | none | some (.directive _) | some .documentStart | some .documentEnd => return empty
  | _ => within (maxLevels + 1) .block

def directives : Parse (List Directive) :=
  many do
    match ← next? with
    | some (.directive d) =>
      drop
      return some d
    | _ => return none

/-- Reads a document. Its start is marked if there are directives in front of it. -/
def document : Parse Node := do
  match ← next? with
  | none => return empty
  | some (.directive _) | some .documentStart =>
    match Directive.handles? (← directives) with
    | some handles =>
      modify fun s => { s with handles := handles }
      expect .documentStart
      afterStart
    | none => failure
  | _ => within (maxLevels + 1) .block

/-- Reads a text of one document. -/
def ofText? (s : Text) : Option Node := do
  let (n, rest) ← document.run ⟨← Lexeme.ofText? s, TagName.handles, []⟩
  if rest.lexemes.all (· == .documentEnd) then some n else none

mutual

/-- A node and all nodes in it, in the order in which they are written. -/
def all : Node → List Node
  | n@(list _ items) => n :: allOfItems items
  | n@(mapping _ entries) => n :: allOfEntries entries
  | n => [n]

def allOfItems : List Node → List Node
  | [] => []
  | n :: ns => all n ++ allOfItems ns

def allOfEntries : List (Node × Node) → List Node
  | [] => []
  | (k, v) :: rest => all k ++ all v ++ allOfEntries rest

end

def anchor? : Node → Option Nat
  | aliasOf _ => none
  | scalar p _ _ | list p _ | mapping p _ => p.anchor?

/-- How many signs a node is told by: two for a list or mapping, one for all else. -/
def signs : Node → Nat
  | list _ _ | mapping _ _ => 2
  | _ => 1

end Node
end Mustache.Data.Yaml
