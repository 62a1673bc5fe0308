import Mustache.Nesting

/-! Templates: a source and the parts it is compiled to. -/
namespace Mustache

/-- The parts of a source, read with the given delimiters from its start. A tag that cannot be read
is reported before any fault in the nesting. -/
def Part.ofSource (d : Delimiters) (source : Text) : Except SyntaxError (List Part) :=
  match Tokens.ofText d source with
  | ⟨tokens, none⟩ => Nesting.ofItems d (Layout.ofTokens source tokens)
  | ⟨_, some (p, fault)⟩ => .error (.malformedTag p fault)

/-- A compiled template. -/
structure Template where
  source : Text
  parts : List Part
  deriving DecidableEq, Repr

namespace Template

def compile (source : Text) : Except SyntaxError Template := do
  return ⟨source, ← Part.ofSource .braces source⟩

/-- The template whose source has a text in front of every line. -/
def indented (t : Template) (indent : Text) : Except SyntaxError Template :=
  compile (Text.indentLines indent t.source)

theorem compile_source {source : Text} {t : Template} (h : compile source = .ok t) :
    t.source = source := by
  unfold compile at h
  cases hp : Part.ofSource .braces source with
  | error e => simp [hp, bind, Except.bind] at h
  | ok parts =>
    obtain rfl := by simpa [hp, bind, Except.bind, pure, Except.pure] using h
    rfl

end Template
end Mustache
