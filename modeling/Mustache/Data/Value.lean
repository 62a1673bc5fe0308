import Mustache.Data.Entries
import Mustache.Data.Context
import Mustache.Data.Number

/-! Values built in memory, the only ones of the stock that can be called. -/
namespace Mustache.Data

inductive Value where
  | null
  | bool (b : Bool)
  | number (x : Decimal.Binary)
  | text (t : Text)
  | list (items : List Value)
  | mapping (members : List (Text × Value))
  | callable (l : Lambda)
  deriving Inhabited

namespace Value

def child? (name : Text) : Value → Option Value
  | mapping members => Entries.last? name members
  | _ => none

def items? : Value → Option (List Value)
  | list items => some items
  | _ => none

/-- The text of a scalar; everything else has none. -/
def value : Value → Text
  | text t => t
  | number x => Decimal.Style.plain.text x
  | bool b => (toString b).toList
  | _ => []

def falsy : Value → Bool
  | null | bool false => true
  | _ => false

def isBool : Value → Bool
  | bool _ => true
  | _ => false

def lambda? : Value → Option Lambda
  | callable l => some l
  | _ => none

def context : Context Value where
  child? v name := v.child? name
  children? := items?
  value := value
  falsy := falsy
  isBool := isBool
  lambda? := lambda?

end Value
end Mustache.Data
