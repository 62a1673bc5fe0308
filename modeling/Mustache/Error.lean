import Mustache.Position

/-! What can be wrong with a template, and how it is told. -/
namespace Mustache

/-- What makes a single tag unreadable. -/
inductive TagFault where
  | missingClose
  | missingName
  | invalidName
  | invalidDelimiters
  deriving DecidableEq, Repr

def TagFault.message : TagFault → String
  | .missingClose => "missing close delimiter"
  | .missingName => "missing tag"
  | .invalidName => "invalid tag"
  | .invalidDelimiters => "invalid delimiters tag"

/-- Why a source is no template; the position is the start of the tag at fault. -/
inductive SyntaxError where
  | malformedTag (position : Position) (fault : TagFault)
  | unbalancedSection (name : Text) (position : Position)
  | unclosedSection (name : Text) (position : Position)
  deriving DecidableEq, Repr

namespace SyntaxError

def position : SyntaxError → Position
  | malformedTag p _ | unbalancedSection _ p | unclosedSection _ p => p

def message : SyntaxError → String
  | malformedTag p fault => "malformed tag at " ++ p.describe ++ ": " ++ fault.message
  | unbalancedSection name p =>
    "unbalanced section `" ++ String.ofList name ++ "` at " ++ p.describe
  | unclosedSection name p =>
    "unclosed section `" ++ String.ofList name ++ "` opened at " ++ p.describe

end SyntaxError
end Mustache
