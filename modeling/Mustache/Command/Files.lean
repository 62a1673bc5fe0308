import Mustache.Command.Path

/-! Files: how they are reached, and a tree of them that is held in memory. -/
namespace Mustache.Command

/-- Why a file cannot be read or written. -/
inductive FileFault where
  | system (code : Nat) (description : String)
  | notUtf8
  deriving DecidableEq, Repr

namespace FileFault

def notFound : FileFault := system 2 "No such file or directory"
def notDirectory : FileFault := system 20 "Not a directory"
def isDirectory : FileFault := system 21 "Is a directory"
def nameTooLong : FileFault := system 36 "File name too long"
def permissionDenied : FileFault := system 13 "Permission denied"

/-- The fault of a number, in these words if there is none of them above. -/
def ofCode (code : Nat) (description : String) : FileFault :=
  match code with
  | 2 => notFound
  | 13 => permissionDenied
  | 20 => notDirectory
  | 21 => isDirectory
  | 36 => nameTooLong
  | _ => system code description

def message : FileFault → String
  | system code description => description ++ " (os error " ++ toString code ++ ")"
  | notUtf8 => "stream did not contain valid UTF-8"

end FileFault

/-- The ways to reach files: reading one, listing a directory, and writing one. The output is a file
too, on which text is shown. -/
structure FileAccess (m : Type → Type) where
  read : Text → m (Except FileFault ByteArray)
  list : Text → m (Except FileFault (List Text))
  write : Text → ByteArray → m (Except FileFault Unit)
  print : Text → m (Except FileFault Unit)

/-- Reads a file as text. -/
def FileAccess.readText {m : Type → Type} [Monad m] (files : FileAccess m) (path : Text) :
    m (Except FileFault Text) := do
  match ← files.read path with
  | .error fault => pure (.error fault)
  | .ok bytes =>
    match String.fromUTF8? bytes with
    | some s => pure (.ok s.toList)
    | none => pure (.error .notUtf8)

/-- A file with its contents, a directory, or a sink: it takes all that is written and holds
nothing. -/
inductive FileNode where
  | file (content : ByteArray)
  | directory
  | sink

/-- Files and directories, each by the names that lead to it from the root, the last name first, and
the directory in which paths start. -/
structure FileTree where
  entries : List (List Text × FileNode)
  home : List Text

namespace FileTree

/-- What is found at a place; the root is always there. -/
def node? (t : FileTree) (place : List Text) : Option FileNode :=
  if place = [] then some .directory else t.entries.lookup place

def put (t : FileTree) (place : List Text) (node : FileNode) : FileTree :=
  { t with entries := (place, node) :: t.entries.filter (·.1 != place) }

/-- Puts a node together with the directories above it. -/
def putUnder (t : FileTree) : List Text → FileNode → FileTree
  | [], _ => t
  | name :: above, node =>
    let t := if (t.node? above).isSome then t else t.putUnder above .directory
    t.put (name :: above) node

/-- A tree with nothing but a directory to start in. -/
def ofHome (home : List Text) : FileTree :=
  (FileTree.mk [] home).putUnder home .directory

/-- Follows the parts of a path. What a path goes through has to be a directory, and so has what
it has a slash behind. Above the root there is just the root. -/
def follow (t : FileTree) (place : List Text) : List Text → Except FileFault (List Text)
  | [] => .ok place
  | part :: parts =>
    match t.node? place with
    | some .directory =>
      if part = [] ∨ part = ['.'] then t.follow place parts
      else if part = ['.', '.'] then t.follow place.tail parts
      else if 255 < Text.utf8Length part then .error .nameTooLong
      else if (t.node? (part :: place)).isSome then t.follow (part :: place) parts
      else .error .notFound
    | some (.file _) | some .sink => .error .notDirectory
    | none => .error .notFound

/-- The place where a path starts: the root if there is a slash in front. A path takes less than
4096 bytes. -/
def start (t : FileTree) (path : Text) : Except FileFault (List Text) :=
  if path = [] then .error .notFound
  else if 4096 ≤ Text.utf8Length path then .error .nameTooLong
  else .ok (if path.head? = some '/' then [] else t.home)

/-- The place that a path leads to. -/
def resolve (t : FileTree) (path : Text) : Except FileFault (List Text) := do
  t.follow (← t.start path) (Path.parts path)

def read (t : FileTree) (path : Text) : Except FileFault ByteArray := do
  let place ← t.resolve path
  match t.node? place with
  | some (.file content) => .ok content
  | some .directory => .error .isDirectory
  | some .sink => .ok .empty
  | none => .error .notFound

/-- The names in a directory. -/
def list (t : FileTree) (path : Text) : Except FileFault (List Text) := do
  let place ← t.resolve path
  match t.node? place with
  | some .directory =>
    .ok (t.entries.filterMap fun (p, _) =>
      match p with
      | name :: above => if above = place then some name else none
      | [] => none)
  | some (.file _) | some .sink => .error .notDirectory
  | none => .error .notFound

/-- Writes a file whose directory exists. A path that ends in a slash or in dots names no file. -/
def write (t : FileTree) (path : Text) (content : ByteArray) : Except FileFault FileTree := do
  let parts := (Path.parts (Text.dropEndWhile (· == '/') path)).reverse
  let above ← t.follow (← t.start path) (parts.tail.reverse ++ [[]])
  match parts with
  | [] => .error .notFound
  | name :: _ =>
    if name = [] ∨ name = ['.'] ∨ name = ['.', '.'] ∨ path.getLast? = some '/' then
      .error .isDirectory
    else if 255 < Text.utf8Length name then .error .nameTooLong
    else match t.node? (name :: above) with
      | some .directory => .error .isDirectory
      | some .sink => .ok t
      | _ => .ok (t.put (name :: above) (.file content))

/-- The tree as a means to reach files. A write that fails leaves the tree as it is, and so does
what is shown. -/
def access : FileAccess (StateM FileTree) where
  read path := do return (← get).read path
  list path := do return (← get).list path
  write path content := do
    match (← get).write path content with
    | .ok t => set t; return .ok ()
    | .error fault => return .error fault
  print _ := return .ok ()

end FileTree
end Mustache.Command
