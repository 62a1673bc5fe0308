import Mustache.Text.Blank
import Mustache.Decimal.Digits

/-! Callable values, and a stock of behaviours for them. -/
namespace Mustache.Data

/-- A value that is called for its text. A lambda that takes no text is called with none; it may
keep a state, so that its answer depends on the texts of all its calls before, and a failure is told
in words. -/
structure Lambda where
  label : Text
  takesText : Bool
  answer : List Text → Text → Except Text Text

namespace Lambda

/-- The text that a lambda gets when it is called over some text. -/
def argument (l : Lambda) (text : Text) : Text :=
  if l.takesText then text else []

/-- What a lambda of the stock does. -/
inductive Behaviour where
  | constant (t : Text)
  | counting (t : Text)
  | cycling (ts : List Text)
  | identity
  | wrapping (before after : Text)
  | doubling (between : Text)
  | uppercase
  | length
  | failing (message : Text)
  | failingOn (pattern message : Text)
  | failingAfter (calls : Nat) (message : Text)
  deriving DecidableEq, Repr

/-- The answer to the `n`-th call. -/
def Behaviour.answer (n : Nat) (text : Text) : Behaviour → Except Text Text
  | constant t => .ok t
  | counting t => .ok (t ++ Decimal.toText n)
  | cycling ts => .ok (ts[(n - 1) % ts.length]?.getD [])
  | identity => .ok text
  | wrapping before after => .ok (before ++ text ++ after)
  | doubling between => .ok (text ++ between ++ text)
  | uppercase => .ok (text.map Char.toUpper)
  | length => .ok (Decimal.toText (Text.utf8Length text))
  | failing message => .error message
  | failingOn pattern message =>
    if (Text.breakOn pattern text).isSome then .error message else .ok text
  | failingAfter calls message => if calls < n then .error message else .ok text

def ofBehaviour (label : Text) (takesText : Bool) (b : Behaviour) : Lambda :=
  ⟨label, takesText, fun earlier text => b.answer (earlier.length + 1) text⟩

end Lambda
end Mustache.Data
