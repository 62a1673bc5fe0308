import Mustache.Text

/-! Escaping: what markup would take for its own is written as an entity. -/
namespace Mustache

def escapeChar : Char → Text
  | '&' => ['&', 'a', 'm', 'p', ';']
  | '<' => ['&', 'l', 't', ';']
  | '>' => ['&', 'g', 't', ';']
  | '"' => ['&', 'q', 'u', 'o', 't', ';']
  | c => [c]

def escape (s : Text) : Text :=
  s.flatMap escapeChar

@[simp] theorem escape_nil : escape [] = [] := rfl

@[simp] theorem escape_cons (c : Char) (s : Text) : escape (c :: s) = escapeChar c ++ escape s := by
  simp [escape]

@[simp] theorem escape_append (s t : Text) : escape (s ++ t) = escape s ++ escape t := by
  simp [escape]

example : escape ['a', '<', '&'] = ['a', '&', 'l', 't', ';', '&', 'a', 'm', 'p', ';'] := by decide

end Mustache
