import Mustache.Store
import Mustache.Data.Context

/-! A run of the renderer: how it can end, and what it keeps on its way. -/
namespace Mustache

open Data

/-- Why a render fails. A cycle is the chain of inclusions up to the one that closes it. -/
inductive RenderError where
  | badSyntax (error : SyntaxError)
  | partialCycle (chain : List Text)
  | lambdaFailed (message : Text)
  deriving DecidableEq, Repr

def RenderError.message : RenderError → String
  | badSyntax error => error.message
  | partialCycle chain => "partial cycle: " ++ " > ".intercalate (chain.map String.ofList)
  | lambdaFailed message => String.ofList message

/-- How a run stops before its end: by an error, or because templates lie deeper in one another
than it was allowed to go. -/
inductive Stop where
  | error (e : RenderError)
  | tooDeep
  deriving DecidableEq, Repr

/-- A call of a lambda; one that takes no text has no argument. -/
structure Call (ν : Type) where
  node : ν
  label : Text
  argument? : Option Text
  deriving DecidableEq, Repr

/-- What a run has done so far, the newest first: the lambdas it called and the templates it asked
for. Templates that were indented are kept for the next time. -/
structure Progress (ν : Type) where
  calls : List (Call ν)
  lookups : List Text
  indented : List ((Text × Text) × Template)
  deriving Repr

def Progress.start {ν : Type} : Progress ν := ⟨[], [], []⟩

/-- A computation of the renderer. -/
abbrev Run (ν α : Type) := ExceptT Stop (StateM (Progress ν)) α

/-- What a run works with: data, templates, and the calls of earlier runs over the same data. -/
structure Setting (ν : Type) where
  context : Context ν
  store? : Option Store
  earlier : List (Call ν)

/-- The template that a setting has for a name. -/
def Setting.template? {ν : Type} (env : Setting ν) (name : Text) : Option Template :=
  env.store?.bind (·.get? name)

namespace Run

variable {ν : Type}

def fail {α : Type} (e : RenderError) : Run ν α :=
  throw (.error e)

/-- The parts of a source that is compiled on the way. -/
def compiled {α : Type} : Except SyntaxError α → Run ν α
  | .ok a => pure a
  | .error e => fail (.badSyntax e)

/-- The texts that the lambda at a node was called with, in the order of the calls. -/
def heard [DecidableEq ν] (node : ν) (calls : List (Call ν)) : List Text :=
  (calls.filter (·.node = node)).map fun c => c.argument?.getD []

/-- Calls a lambda over some text. The call is on record before it can fail. -/
def call [DecidableEq ν] (env : Setting ν) (node : ν) (l : Lambda) (text : Text) : Run ν Text := do
  let p ← get
  let argument? := if l.takesText then some text else none
  set { p with calls := ⟨node, l.label, argument?⟩ :: p.calls }
  match l.answer (heard node (env.earlier ++ p.calls.reverse)) (l.argument text) with
  | .ok t => pure t
  | .error message => fail (.lambdaFailed message)

/-- Notes that a store is asked for a template, if there is one. -/
def note {α : Type} (store? : Option α) (name : Text) : Run ν Unit :=
  if store?.isSome then modify fun p => { p with lookups := name :: p.lookups } else pure ()

/-- A template indented, which is done once in a run for each name and indent. -/
def indented (name indent : Text) (t : Template) : Run ν Template := do
  match (← get).indented.lookup (name, indent) with
  | some u => pure u
  | none =>
    let u ← compiled (t.indented indent)
    modify fun p => { p with indented := ((name, indent), u) :: p.indented }
    pure u

end Run
end Mustache
