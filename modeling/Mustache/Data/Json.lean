import Mustache.Data.Entries
import Mustache.Data.Context
import Mustache.Data.Number

/-! JSON documents. -/
namespace Mustache.Data

/-- A JSON document. Of several members of one name the last one counts. -/
inductive Json where
  | null
  | bool (b : Bool)
  | number (n : Number)
  | text (t : Text)
  | list (items : List Json)
  | object (members : List (Text × Json))
  deriving Repr, Inhabited

namespace Json

def child? (name : Text) : Json → Option Json
  | object members => Entries.last? name members
  | _ => none

def items? : Json → Option (List Json)
  | list items => some items
  | _ => none

/-- The text of a scalar; null, lists and objects have none. -/
def value : Json → Text
  | text t => t
  | number n => n.text .json
  | bool b => (toString b).toList
  | _ => []

def falsy : Json → Bool
  | null | bool false => true
  | _ => false

def isBool : Json → Bool
  | bool _ => true
  | _ => false

def context : Context Json where
  child? v name := v.child? name
  children? := items?
  value := value
  falsy := falsy
  isBool := isBool
  lambda? _ := none

mutual

/-- The number of nodes of a document. -/
def size : Json → Nat
  | list items => 1 + sizeOfItems items
  | object members => 1 + sizeOfMembers members
  | _ => 1

def sizeOfItems : List Json → Nat
  | [] => 0
  | v :: vs => v.size + sizeOfItems vs

def sizeOfMembers : List (Text × Json) → Nat
  | [] => 0
  | (_, v) :: rest => v.size + sizeOfMembers rest

end

end Json
end Mustache.Data
