import Mustache.Data.Entries
import Mustache.Data.Context
import Mustache.Data.Number

/-! YAML documents. -/
namespace Mustache.Data

/-- A YAML document. Keys may be any values; of several entries with one key the last one counts. -/
inductive Yaml where
  | null
  | bool (b : Bool)
  | number (n : Number)
  | text (t : Text)
  | list (items : List Yaml)
  | mapping (entries : List (Yaml × Yaml))
  | tagged (tag : Text) (value : Yaml)
  deriving Repr, Inhabited

namespace Yaml

/-- The entries of a mapping that can be looked up by name: those whose key is an untagged text. -/
def members : List (Yaml × Yaml) → List (Text × Yaml)
  | [] => []
  | (text name, v) :: rest => (name, v) :: members rest
  | _ :: rest => members rest

/-- A tag is looked through. -/
def child? (name : Text) : Yaml → Option Yaml
  | mapping entries => Entries.last? name (members entries)
  | tagged _ v => v.child? name
  | _ => none

def items? : Yaml → Option (List Yaml)
  | list items => some items
  | tagged _ v => v.items?
  | _ => none

/-- The text of a scalar; null, lists and mappings have none. -/
def value : Yaml → Text
  | text t => t
  | number n => n.text .yaml
  | bool b => (toString b).toList
  | tagged _ v => v.value
  | _ => []

def falsy : Yaml → Bool
  | null | bool false => true
  | tagged _ v => v.falsy
  | _ => false

/-- A tagged boolean counts as a value of its own kind. -/
def isBool : Yaml → Bool
  | bool _ => true
  | _ => false

def context : Context Yaml where
  child? v name := v.child? name
  children? := items?
  value := value
  falsy := falsy
  isBool := isBool
  lambda? _ := none

mutual

/-- Whether two documents have the same value. The order of entries does not matter. -/
def same : Yaml → Yaml → Bool
  | null, null => true
  | bool a, bool b => a == b
  | number m, number n => m.same n
  | text s, text t => s == t
  | list v, list w => sameItems v w
  | mapping v, mapping w => v.length == w.length && allIn v w
  | tagged s v, tagged t w => s == t && v.same w
  | _, _ => false

def sameItems : List Yaml → List Yaml → Bool
  | [], [] => true
  | v :: vs, w :: ws => v.same w && sameItems vs ws
  | _, _ => false

/-- Whether each entry is among some others. -/
def allIn : List (Yaml × Yaml) → List (Yaml × Yaml) → Bool
  | [], _ => true
  | (k, v) :: rest, entries =>
    entries.any (fun (l, w) => k.same l && v.same w) && allIn rest entries

end

mutual

/-- The number of nodes of a document; a tag and what it tags are one. -/
def size : Yaml → Nat
  | list items => 1 + sizeOfItems items
  | mapping entries => 1 + sizeOfEntries entries
  | tagged _ v => v.size
  | _ => 1

def sizeOfItems : List Yaml → Nat
  | [] => 0
  | v :: vs => v.size + sizeOfItems vs

def sizeOfEntries : List (Yaml × Yaml) → Nat
  | [] => 0
  | (_, v) :: rest => v.size + sizeOfEntries rest

end

end Yaml
end Mustache.Data
