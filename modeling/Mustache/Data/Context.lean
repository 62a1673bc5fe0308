import Mustache.Data.Lambda

/-! Data to render against: the questions that can be asked about a node. -/
namespace Mustache.Data

/-- The answers that data gives about its nodes. Members are looked up by name, lists have items,
a falsy node renders no section, and a boolean renders one without being its context. Nothing is
assumed about how the answers fit together. -/
structure Context (ν : Type) where
  child? : ν → Text → Option ν
  children? : ν → Option (List ν)
  value : ν → Text
  falsy : ν → Bool
  isBool : ν → Bool
  lambda? : ν → Option Lambda

/-- A step from a node to a part of it. -/
inductive Step where
  | member (name : Text)
  | item (index : Nat)
  deriving DecidableEq, Repr

/-- The way from the root of a document to one of its nodes, which tells the nodes apart. -/
abbrev Location := List Step

namespace Context

variable {ν : Type}

def step? (C : Context ν) (node : ν) : Step → Option ν
  | .member name => C.child? node name
  | .item index => (C.children? node).bind (·[index]?)

/-- The node at the end of some steps. -/
def follow? (C : Context ν) (node : ν) (steps : List Step) : Option ν :=
  steps.foldlM C.step? node

@[simp] theorem follow?_nil (C : Context ν) (node : ν) : C.follow? node [] = some node := rfl

theorem follow?_append (C : Context ν) (node : ν) (steps more : List Step) :
    C.follow? node (steps ++ more) = (C.follow? node steps).bind (C.follow? · more) := by
  simp [follow?]

/-- A document with its locations as nodes: places that hold equal values stay apart. -/
def located (C : Context ν) (root : ν) : Context Location where
  child? place name :=
    ((C.follow? root place).bind (C.child? · name)).map fun _ => place ++ [.member name]
  children? place :=
    ((C.follow? root place).bind C.children?).map fun items =>
      (List.range items.length).map fun index => place ++ [.item index]
  value place := ((C.follow? root place).map C.value).getD []
  falsy place := (C.follow? root place).any C.falsy
  isBool place := (C.follow? root place).any C.isBool
  lambda? place := (C.follow? root place).bind C.lambda?

/-- What a node answers, put together. -/
structure Answers where
  value : Text
  falsy : Bool
  isBool : Bool
  items? : Option Nat
  takesText? : Option Bool
  deriving DecidableEq, Repr

def answers (C : Context ν) (node : ν) : Answers :=
  ⟨C.value node, C.falsy node, C.isBool node, (C.children? node).map List.length,
    (C.lambda? node).map Lambda.takesText⟩

end Context

/-- Data whose nodes are known by their locations. -/
structure Document where
  context : Context Location
  root : Location

/-- The document of a value, with the answers that values of its kind give. -/
def Document.ofValue {α : Type} (C : Context α) (value : α) : Document :=
  ⟨C.located value, []⟩

end Mustache.Data
