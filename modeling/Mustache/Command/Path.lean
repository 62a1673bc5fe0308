import Mustache.Text

/-! Paths as they are written, with slashes between their parts. -/
namespace Mustache.Command.Path

/-- The parts of a path; a slash at an end or next to another one leaves an empty part. -/
def parts (path : Text) : List Text :=
  Text.splitWhere (· == '/') path

/-- The last part that is a name: empty parts and single dots do not count, and two dots are no
name. -/
def fileName? (path : Text) : Option Text :=
  match ((parts path).filter fun part => part ≠ [] && part ≠ ['.']).getLast? with
  | some ['.', '.'] => none
  | name? => name?

/-- Cuts a file name at its last dot; a dot in front does not count. -/
def splitName (name : Text) : Text × Option Text :=
  let extension := (name.reverse.takeWhile (· != '.')).reverse
  let stem := name.take (name.length - extension.length - 1)
  if stem = [] then (name, none) else (stem, some extension)

def extension? (path : Text) : Option Text :=
  (fileName? path).bind fun name => (splitName name).2

/-- The path of a name in a directory. -/
def join (directory name : Text) : Text :=
  if directory.getLast? = some '/' then directory ++ name else directory ++ '/' :: name

example : extension? "a/d.json.bak".toList = some "bak".toList := by decide
example : extension? "a/.json".toList = none := by decide
example : extension? "d.".toList = some [] := by decide
example : extension? "d".toList = none := by decide
example : splitName "a.b.mustache".toList = ("a.b".toList, some "mustache".toList) := by decide

end Mustache.Command.Path
