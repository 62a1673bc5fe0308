import Mustache.Data.Context

/-! Data given node by node: each answer is listed, and a node may be part of several others. -/
namespace Mustache.Data

/-- The answers of one node; other nodes are named by their number. A plain node is neither a
boolean nor callable, whatever else is listed. -/
structure Table.Node where
  members : List (Text × Nat)
  items? : Option (List Nat)
  value : Text
  falsy : Bool
  isBool : Bool
  lambda? : Option Lambda
  plain : Bool

/-- The nodes of a document by number. -/
structure Table where
  nodes : List Table.Node

namespace Table

def empty : Table := ⟨[]⟩

/-- Adds a node and tells its number. -/
def add (t : Table) (node : Node) : Nat × Table :=
  (t.nodes.length, ⟨t.nodes ++ [node]⟩)

def location (number : Nat) : Location :=
  [.item number]

/-- The node at a location: the nodes of a table lie side by side. -/
def node? (t : Table) : Location → Option Node
  | [.item number] => t.nodes[number]?
  | _ => none

def context (t : Table) : Context Location where
  child? place name := (t.node? place).bind fun n => (n.members.lookup name).map location
  children? place := (t.node? place).bind fun n => n.items?.map (·.map location)
  value place := ((t.node? place).map Node.value).getD []
  falsy place := (t.node? place).any Node.falsy
  isBool place := (t.node? place).any fun n => n.isBool && !n.plain
  lambda? place := (t.node? place).bind fun n => if n.plain then none else n.lambda?

def document (t : Table) (root : Nat) : Document :=
  ⟨t.context, location root⟩

@[simp] theorem node?_location (t : Table) (number : Nat) :
    t.node? (location number) = t.nodes[number]? := rfl

end Table
end Mustache.Data
