import Mustache.Data.Yaml.TagName

/-! Directives: what is told about a document in front of it. -/
namespace Mustache.Data.Yaml

/-- The version of the language, or what a tag handle stands for. -/
inductive Directive where
  | version (major minor : Nat)
  | handle (handle : Text) (start : List UInt8)
  deriving DecidableEq, Repr

namespace Directive

/-- Reads a number of at most nine digits. -/
def number? (c : Cursor) : Option (Nat × Cursor) :=
  let (digits, after) := c.takeWhile Char.isDigit
  if 0 < digits.length ∧ digits.length ≤ 9 then some (Decimal.ofText digits, after) else none

def version? (c : Cursor) : Option (Directive × Cursor) := do
  let (major, c) ← number? (c.skipWhile Text.isBlank)
  if c.rest.head? = some '.' then
    let (minor, c) ← number? c.skip
    some (version major minor, c)
  else none

def handle? (c : Cursor) : Option (Directive × Cursor) := do
  let c := c.skipWhile Text.isBlank
  let (name, c) := TagName.takeHandle c
  if (name = ['!'] ∨ TagName.isWholeHandle name) ∧ c.rest.head?.any Text.isBlank then
    let (start, c) ← TagName.uri? true (c.skipWhile Text.isBlank)
    if start ≠ [] ∧ atGap c.rest then some (handle name (TagName.upToZero start), c) else none
  else none

/-- Reads a directive and the rest of its line. -/
def read? (c : Cursor) : Option (Directive × Cursor) := do
  let (name, c) := c.skip.takeWhile isNameChar
  if !atGap c.rest then none
  else
    let (directive, c) ←
      if name = "YAML".toList then version? c
      else if name = "TAG".toList ∧ (c.skipWhile Text.isBlank).rest.head? = some '!' then handle? c
      else none
    return (directive, ← c.skipLine?)

/-- What handles stand for in a document, if its directives fit together: there is one version at
most, which is known, and no handle is told about twice. -/
def handles? (directives : List Directive) : Option (List (Text × List UInt8)) :=
  let versions := directives.filterMap fun d =>
    match d with
    | version major minor => some (major, minor)
    | _ => none
  let told := directives.filterMap fun d =>
    match d with
    | handle h start => some (h, start)
    | _ => none
  if versions.length ≤ 1 ∧ versions.all (fun v => v ∈ [(1, 1), (1, 2)]) ∧ (told.map Prod.fst).Nodup
  then some (told ++ TagName.handles)
  else none

end Directive
end Mustache.Data.Yaml
