import Mustache.Data.Yaml.Node
import Mustache.Data.Yaml.Scalar

/-! Reads YAML texts. -/
namespace Mustache.Data.Yaml

/-- Leaves out an exclamation mark in front of a tag, if there is more to it. -/
def dropMark : Text → Text
  | '!' :: c :: s => c :: s
  | s => s

def tagText? (tag : List UInt8) : Option Text :=
  (String.fromUTF8? ⟨tag.toArray⟩).map String.toList

/-- Whether a tag starts with an exclamation mark: it is kept with the value then. -/
def isKept (tag : List UInt8) : Bool :=
  tag.head? == (TagName.bytes ['!']).head?

/-- The tag that is kept with a value. It makes no difference whether its mark is written once or
twice. -/
def keptTag? (tag? : Option (List UInt8)) : Option Text :=
  ((tag?.filter isKept).bind tagText?).map fun tag => dropMark (dropMark tag)

def withTag (tag? : Option (List UInt8)) (v : Yaml) : Yaml :=
  match keptTag? tag? with
  | some tag => tagged tag v
  | none => v

/-- Reads a scalar. Its tag may tell what it has to be; if there is none then a plain scalar tells
that itself. -/
def ofScalar? (tag? : Option (List UInt8)) (plain : Bool) (t : Text) : Option Yaml :=
  if tag?.all isKept then
    (if plain then ofPlain? t else some (text t)).map (withTag tag?)
  else
    let kind? := (tag?.bind tagText?).bind (Text.dropPrefix? "tag:yaml.org,2002:".toList)
    ofKind? (kind?.getD []) t

/-- Whether no two documents have the same value. -/
def distinct : List Yaml → Bool
  | [] => true
  | v :: vs => !vs.any v.same && distinct vs

/-- The nodes that aliases stand for, and how many aliases may be followed. -/
structure Anchors where
  nodes : List (Nat × Node)
  limit : Nat
  deriving Repr

namespace Anchors

/-- The anchors of a node. Of several ones with a number the last one counts, and for each sign that
the node is told by a hundred aliases may be followed. -/
def ofNode (n : Node) : Anchors :=
  let nodes := n.all
  ⟨(nodes.filterMap fun n => n.anchor?.map (·, n)).reverse,
    100 * (nodes.foldl (fun n node => n + node.signs) 0)⟩

/-- Follows an alias, and counts it. -/
def follow (a : Anchors) : Node → StateT Nat Option Node
  | .aliasOf anchor => do
    let count ← get
    set (count + 1)
    match a.nodes.lookup anchor with
    | some n => if count < a.limit then return n else failure
    | none => failure
  | n => return n

/-- Reads a node of some levels at most. There are no two entries with one key in a mapping. -/
def value (a : Anchors) : Nat → Node → StateT Nat Option Yaml
  | 0, n => do
    match ← a.follow n with
    | .scalar p plain t => ofScalar? p.tag? plain t
    | _ => failure
  | levels + 1, n => do
    match ← a.follow n with
    | .aliasOf _ => failure
    | .scalar p plain t => ofScalar? p.tag? plain t
    | .list p items => return withTag p.tag? (list (← items.mapM (a.value levels)))
    | .mapping p entries =>
      let entries ← entries.mapM fun (k, v) => do
        return (← a.value levels k, ← a.value levels v)
      if distinct (entries.map Prod.fst) then return withTag p.tag? (mapping entries) else failure

end Anchors

/-- Reads a YAML text of one document. -/
def ofText? (s : Text) : Option Yaml := do
  let n ← Node.ofText? s
  ((Anchors.ofNode n).value Node.maxLevels n).run' 0

end Mustache.Data.Yaml
