import Mustache.Layout
import Mustache.Part

/-! Nesting: opening and closing tags become blocks, everything else a part of its own. -/
namespace Mustache

/-- A block whose closing tag is still to come, with what stands before it on its own level:
parts and source, the newest first. -/
structure OpenBlock where
  inverted : Bool
  path : Text
  start : Position
  delimiters : Delimiters
  parts : List Part
  source : List Text
  deriving Repr

/-- How far a source is nested: the delimiters in force, the parts and the source of the innermost
level, the newest first, and the open blocks, the innermost first. -/
structure Nesting where
  delimiters : Delimiters
  parts : List Part
  source : List Text
  blocks : List OpenBlock
  deriving Repr

namespace Nesting

def start (d : Delimiters) : Nesting := ⟨d, [], [], []⟩

/-- Adds a part that ends with the given piece of source. -/
def add (n : Nesting) (part : Part) (raw : Text) : Nesting :=
  { n with parts := part :: n.parts, source := raw :: n.source }

/-- Adds a piece of source that leaves no part. -/
def skip (n : Nesting) (raw : Text) : Nesting :=
  { n with source := raw :: n.source }

/-- Opens a block. Its source starts behind the tag. -/
def enter (n : Nesting) (inverted : Bool) (path : Text) (start : Position) (raw : Text) : Nesting :=
  ⟨n.delimiters, [], [],
    ⟨inverted, path, start, n.delimiters, n.parts, raw :: n.source⟩ :: n.blocks⟩

/-- Closes the innermost block, which must have the name of the closing tag. -/
def leave (n : Nesting) (name : Text) (start : Position) (raw : Text) :
    Except SyntaxError Nesting :=
  match n.blocks with
  | [] => .error (.unbalancedSection name start)
  | b :: blocks =>
    if b.path = name then
      let source := n.source.reverse.flatten
      .ok ⟨n.delimiters,
        .block b.inverted b.path source b.delimiters n.parts.reverse :: b.parts,
        raw :: source :: b.source, blocks⟩
    else .error (.unbalancedSection name start)

/-- Takes in one more item. -/
def step (n : Nesting) : Item → Except SyntaxError Nesting
  | .text raw kept => .ok (if kept = [] then n.skip raw else n.add (.literal kept) raw)
  | .tag start raw tag alone? =>
    match tag with
    | .value path escaped => .ok (n.add (.value path escaped) raw)
    | .opening inverted path => .ok (n.enter inverted path start raw)
    | .closing name => n.leave name start raw
    | .inclusion name => .ok (n.add (.inclusion name (alone?.getD [])) raw)
    | .comment => .ok (n.skip raw)
    | .switch d => .ok ({ n with delimiters := d }.add (.switch d) raw)

/-- The parts of a source that ends here. -/
def finish (n : Nesting) : Except SyntaxError (List Part) :=
  match n.blocks with
  | [] => .ok n.parts.reverse
  | b :: _ => .error (.unclosedSection b.path b.start)

/-- The parts that items nest to. -/
def ofItems (d : Delimiters) (items : List Item) : Except SyntaxError (List Part) := do
  (← items.foldlM step (start d)).finish

end Nesting
end Mustache
