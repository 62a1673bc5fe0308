import Mustache.Command.Arguments
import Mustache.Command.Files
import Mustache.Data.Json.Reader
import Mustache.Data.Yaml.Reader
import Mustache.Render

/-! The command: renders a template file against a data file, all or nothing. -/
namespace Mustache.Command

open Data

/-- Why a command fails. -/
inductive Failure where
  | file (path : Text) (fault : FileFault)
  | unsupportedData (path : Text)
  | badJson
  | badYaml
  | missingPartial (name : Text)
  | template (path : Text) (stop : Stop)
  deriving DecidableEq, Repr

def Failure.message : Failure → String
  | file path fault => String.ofList path ++ ": " ++ fault.message
  | unsupportedData path =>
    String.ofList path ++ ": unsupported data format, expected .json, .yml or .yaml"
  | badJson => "json: this is no JSON document"
  | badYaml => "yaml: this is no YAML document"
  | missingPartial name => "partial `" ++ String.ofList name ++ "` not found"
  | template path (.error e) => String.ofList path ++ ": " ++ e.message
  | template path .tooDeep => String.ofList path ++ ": templates lie too deep in one another"

/-- The formats of data files. -/
inductive Format where
  | json
  | yaml
  deriving DecidableEq, Repr

/-- The format that the end of a file name tells, in upper or lower case. -/
def Format.ofPath? (path : Text) : Option Format :=
  let extension := ((Path.extension? path).getD []).map Char.toLower
  if extension = "json".toList then some json
  else if extension = "yml".toList ∨ extension = "yaml".toList then some yaml
  else none

/-- Data that was read, and how many nodes it has. -/
structure Source where
  document : Document
  size : Nat

/-- Reads data of a format. -/
def Source.ofText (s : Text) : Format → Except Failure Source
  | .json =>
    match Json.ofText? s with
    | some v => .ok ⟨.ofValue Json.context v, v.size⟩
    | none => .error .badJson
  | .yaml =>
    match Yaml.ofText? s with
    | some v => .ok ⟨.ofValue Yaml.context v, v.size⟩
    | none => .error .badYaml

/-- How a command reads its arguments, and data of a format. -/
structure Readers where
  request : List Text → Except UsageFault Request
  source : Text → Format → Except Failure Source

/-- The readers of the command itself. -/
def Readers.standard : Readers := ⟨Request.ofArguments, Source.ofText⟩

variable {m : Type → Type} [Monad m]

/-- What an action on a file comes to. Its fault is told with the path. -/
def onFile {α : Type} (path : Text) (action : m (Except FileFault α)) : ExceptT Failure m α := do
  match ← action with
  | .ok a => pure a
  | .error fault => throw (.file path fault)

def compileFile (files : FileAccess m) (path : Text) : ExceptT Failure m Template := do
  match Template.compile (← onFile path (files.readText path)) with
  | .ok t => pure t
  | .error e => throw (.template path (.error (.badSyntax e)))

def Readers.loadData (readers : Readers) (files : FileAccess m) (path : Text) :
    ExceptT Failure m Source :=
  match Format.ofPath? path with
  | some format => do
    match readers.source (← onFile path (files.readText path)) format with
    | .ok source => pure source
    | .error failure => throw failure
  | none => throw (.unsupportedData path)

/-- Adds the file of a name in a directory to a store, if it is a template. -/
def loadPartial (files : FileAccess m) (directory : Text) (store : Store) (name : Text) :
    ExceptT Failure m Store := do
  match Path.splitName name with
  | (stem, some extension) =>
    if extension = "mustache".toList then
      return store.insert stem (← compileFile files (Path.join directory name))
    else return store
  | _ => return store

/-- The templates of a directory, named by their files. -/
def loadPartials (files : FileAccess m) (directory : Text) : ExceptT Failure m Store := do
  (← onFile directory (files.list directory)).foldlM (loadPartial files directory) Store.empty

/-- All the templates of a command but the one that it renders. -/
def loadStore (files : FileAccess m) (i : Invocation) : ExceptT Failure m Store :=
  match i.partials? with
  | some directory => loadPartials files directory
  | none => pure Store.empty

/-- The first template that was asked for and is not there. -/
def missing? (store : Store) (lookups : List Text) : Option Text :=
  lookups.find? fun name => (store.get? name).isNone

/-- Renders a template against data. There is no lambda in a file, so no inclusion lies in more
others than there are pairs of a stored name and a node. -/
def renderSource (i : Invocation) (t : Template) (source : Source) (store : Store) :
    Except Failure Text :=
  let setting := ⟨source.document.context, some store, []⟩
  let report := t.render setting (store.size * source.size + 2) source.document.root
  match report.result with
  | .error stop => .error (.template i.template stop)
  | .ok text =>
    match if i.strict then missing? store report.lookups else none with
    | some name => .error (.missingPartial name)
    | none => .ok text

/-- Writes a text to the file that is asked for, and shows it if there is none. What is shown is
returned. -/
def deliver (files : FileAccess m) (i : Invocation) (text : Text) : ExceptT Failure m Text :=
  match i.output? with
  | none => do
    onFile "<stdout>".toList (files.print text)
    pure text
  | some path => do
    onFile path (files.write path (String.ofList text).toUTF8)
    pure []

/-- What a command shows and the code it ends with. -/
structure Outcome where
  code : Nat
  stdout : String
  stderr : String
  deriving DecidableEq, Repr

/-- Renders what was asked for and delivers it. -/
def Readers.render (readers : Readers) (files : FileAccess m) (i : Invocation) :
    ExceptT Failure m Text := do
  let t ← compileFile files i.template
  let source ← readers.loadData files i.data
  let store ← loadStore files i
  match renderSource i t source store with
  | .error failure => throw failure
  | .ok text => deliver files i text

def versionText : String := "mustache 0.2.0\n"

def usage : String := "Usage: mustache [OPTIONS] <TEMPLATE> <DATA>\n"

def helpText : String :=
  "Render a mustache template against JSON or YAML data\n\n" ++ usage ++
  "\nArguments:\n" ++
  "  <TEMPLATE>  Template file\n" ++
  "  <DATA>      Data file, read as JSON (.json) or YAML (.yml, .yaml)\n" ++
  "\nOptions:\n" ++
  "  -o, --output <OUTPUT>      Output file path (writes to stdout if not provided)\n" ++
  "  -p, --partials <PARTIALS>  Directory of `*.mustache` partials, named after their file stem\n" ++
  "      --strict-partials      Fail when a partial tag names a partial that does not exist\n" ++
  "  -h, --help                 Print help\n" ++
  "  -V, --version              Print version\n"

/-- Shows a text that does not come from a template. No fault is told if it cannot be shown. -/
def announce (files : FileAccess m) (text : String) : m Outcome := do
  match ← files.print text.toList with
  | .ok () => pure ⟨0, text, ""⟩
  | .error _ => pure ⟨0, "", ""⟩

/-- Runs a command with its arguments. -/
def Readers.run (readers : Readers) (files : FileAccess m) (arguments : List Text) : m Outcome := do
  match readers.request arguments with
  | .error fault => pure ⟨2, "", "error: " ++ fault.message ++ "\n\n" ++ usage⟩
  | .ok .version => announce files versionText
  | .ok .help => announce files helpText
  | .ok (.render i) =>
    match ← (readers.render files i).run with
    | .ok text => pure ⟨0, String.ofList text, ""⟩
    | .error failure => pure ⟨1, "", "error: " ++ failure.message ++ "\n"⟩

/-- Runs the command with its arguments. -/
def run (files : FileAccess m) (arguments : List Text) : m Outcome :=
  Readers.standard.run files arguments

end Mustache.Command
