import Mustache.Text

/-! The arguments of the command. -/
namespace Mustache.Command

/-- What a command is asked to render. -/
structure Invocation where
  template : Text
  data : Text
  output? : Option Text
  partials? : Option Text
  strict : Bool
  deriving DecidableEq, Repr

inductive Request where
  | render (i : Invocation)
  | version
  | help
  deriving DecidableEq, Repr

/-- Why arguments are no request. -/
inductive UsageFault where
  | unknown (argument : Text)
  | noValue (option : Text)
  | unwantedValue (option : Text)
  | repeated (option : Text)
  | emptyValue (option : Text)
  | tooFew
  deriving DecidableEq, Repr

def UsageFault.message : UsageFault → String
  | unknown argument => "unexpected argument '" ++ String.ofList argument ++ "' found"
  | noValue option => "a value is required for '" ++ String.ofList option ++ "'"
  | unwantedValue option => "no value is taken by '" ++ String.ofList option ++ "'"
  | repeated option => "'" ++ String.ofList option ++ "' cannot be used multiple times"
  | emptyValue option => "the value of '" ++ String.ofList option ++ "' is empty"
  | tooFew => "a template and a data file are required"

/-- The options that take a path. -/
inductive PathOption where
  | output
  | partials
  deriving DecidableEq, Repr

def PathOption.name : PathOption → Text
  | output => "--output".toList
  | partials => "--partials".toList

/-- The arguments so far; paths without an option in order. -/
structure Arguments where
  paths : List Text
  output? : Option Text
  partials? : Option Text
  strict : Bool
  deriving DecidableEq, Repr

namespace Arguments

def none : Arguments := ⟨[], .none, .none, false⟩

/-- Takes the value of an option, which may be given once. -/
def addOption (a : Arguments) (option : PathOption) (value : Text) : Except UsageFault Arguments :=
  if value = [] then .error (.emptyValue option.name)
  else match option, a.output?, a.partials? with
    | .output, .none, _ => .ok { a with output? := some value }
    | .partials, _, .none => .ok { a with partials? := some value }
    | _, _, _ => .error (.repeated option.name)

/-- Takes a path that belongs to no option: the template comes first, the data second. -/
def addPath (a : Arguments) (path : Text) : Except UsageFault Arguments :=
  if 2 ≤ a.paths.length then .error (.unknown path)
  else if path = [] then .error (.emptyValue "path".toList)
  else .ok { a with paths := a.paths ++ [path] }

def request (a : Arguments) : Except UsageFault Request :=
  match a.paths with
  | [template, data] => .ok (.render ⟨template, data, a.output?, a.partials?, a.strict⟩)
  | _ => .error .tooFew

/-- Whether an argument is read as an option and not as a value; a single dash is a value. -/
def isOption (argument : Text) : Bool :=
  argument.head? == some '-' && argument != ['-']

/-- What one argument asks for, the value that is written with an option included. -/
inductive Reading where
  | path
  | endOfOptions
  | option (o : PathOption) (value? : Option Text)
  | strict
  | version
  | help
  | fault (f : UsageFault)
  deriving DecidableEq, Repr

/-- An option that takes no value. -/
def plainOption (name : Text) (value? : Option Text) (r : Reading) : Reading :=
  if value?.isSome then .fault (.unwantedValue name) else r

/-- Reads a long option, with or without a value behind an equals sign. -/
def readLong (argument : Text) : Reading :=
  let name := argument.takeWhile (· != '=')
  let value? := match argument.dropWhile (· != '=') with
    | '=' :: value => some value
    | _ => .none
  if name = "--output".toList then .option .output value?
  else if name = "--partials".toList then .option .partials value?
  else if name = "--strict-partials".toList then plainOption name value? .strict
  else if name = "--version".toList then plainOption name value? .version
  else if name = "--help".toList then plainOption name value? .help
  else .fault (.unknown argument)

/-- The value that is written right behind a short option. -/
def attached? : Text → Option Text
  | [] => .none
  | '=' :: value => some value
  | value => some value

def read (argument : Text) : Reading :=
  match argument with
  | ['-', '-'] => .endOfOptions
  | '-' :: '-' :: _ => readLong argument
  | '-' :: 'o' :: value => .option .output (attached? value)
  | '-' :: 'p' :: value => .option .partials (attached? value)
  | '-' :: 'V' :: _ => .version
  | '-' :: 'h' :: _ => .help
  | '-' :: _ :: _ => .fault (.unknown argument)
  | _ => .path

/-- Takes in the rest of the arguments. A request for the version or for help is granted as soon as
it is reached, and a fault is reported as soon as it is. -/
def take (a : Arguments) : List Text → Except UsageFault Request
  | [] => a.request
  | argument :: rest =>
    match read argument with
    | .path => do take (← a.addPath argument) rest
    | .endOfOptions => do (← rest.foldlM addPath a).request
    | .option o (some value) => do take (← a.addOption o value) rest
    | .option o .none =>
      match rest with
      | value :: rest =>
        if isOption value then .error (.noValue o.name)
        else do take (← a.addOption o value) rest
      | [] => .error (.noValue o.name)
    | .strict =>
      if a.strict then .error (.repeated argument) else take { a with strict := true } rest
    | .version => .ok .version
    | .help => .ok .help
    | .fault f => .error f

end Arguments

/-- What a list of arguments asks for. -/
def Request.ofArguments (arguments : List Text) : Except UsageFault Request :=
  Arguments.none.take arguments

end Mustache.Command
