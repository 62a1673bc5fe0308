import Mustache.Text

/-! Places in a source. -/
namespace Mustache

/-- A place in a source: bytes from 0, lines from 1, and characters of the line from 1. -/
structure Position where
  offset : Nat
  line : Nat
  column : Nat
  deriving DecidableEq, Repr

namespace Position

def start : Position := ⟨0, 1, 1⟩

/-- The place after one more character. -/
def next (p : Position) (c : Char) : Position :=
  if c = '\n' then ⟨p.offset + 1, p.line + 1, 1⟩
  else ⟨p.offset + c.utf8Size, p.line, p.column + 1⟩

/-- The place after a text. -/
def advance (p : Position) (s : Text) : Position :=
  s.foldl next p

@[simp] theorem advance_nil (p : Position) : p.advance [] = p := rfl

@[simp] theorem advance_cons (p : Position) (c : Char) (s : Text) :
    p.advance (c :: s) = (p.next c).advance s := rfl

@[simp] theorem advance_append (p : Position) (s t : Text) :
    p.advance (s ++ t) = (p.advance s).advance t := by
  simp [advance]

theorem next_offset (p : Position) (c : Char) : (p.next c).offset = p.offset + c.utf8Size := by
  unfold next
  split
  · rename_i h
    subst h
    rfl
  · rfl

theorem advance_offset (p : Position) (s : Text) :
    (p.advance s).offset = p.offset + Text.utf8Length s := by
  induction s generalizing p with
  | nil => simp
  | cons c s ih => rw [advance_cons, ih, next_offset, Text.utf8Length_cons, Nat.add_assoc]

/-- How messages name a place. -/
def describe (p : Position) : String :=
  "line " ++ toString p.line ++ ", column " ++ toString p.column

example : start.advance ['a', '\n', 'b', 'é', '\n', ' '] = ⟨7, 3, 2⟩ := by decide

end Position
end Mustache
