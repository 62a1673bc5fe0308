/-! Text as a list of characters: the cuts and searches that tags, lines and names need. -/
namespace Mustache

/-- Text is worked on character by character. -/
abbrev Text := List Char

namespace Text

/-- What follows a pattern at the start of a text. -/
def dropPrefix? : Text → Text → Option Text
  | [], s => some s
  | _ :: _, [] => none
  | p :: pattern, c :: s => if p = c then dropPrefix? pattern s else none

theorem dropPrefix?_eq_some_iff {pattern s rest : Text} :
    dropPrefix? pattern s = some rest ↔ s = pattern ++ rest := by
  induction pattern generalizing s with
  | nil => simp [dropPrefix?, eq_comm]
  | cons p pattern ih => cases s <;> grind [dropPrefix?]

/-- Cuts a text at the first place where a pattern stands: what is before it and what is after
it. -/
def breakOn (pattern : Text) : Text → Option (Text × Text)
  | [] => if pattern = [] then some ([], []) else none
  | c :: s =>
    match dropPrefix? pattern (c :: s) with
    | some rest => some ([], rest)
    | none => (breakOn pattern s).map fun (before, after) => (c :: before, after)

theorem eq_append_of_breakOn {pattern s before after : Text}
    (h : breakOn pattern s = some (before, after)) : s = before ++ pattern ++ after := by
  induction s generalizing before with
  | nil =>
    simp only [breakOn] at h
    split at h <;> simp_all
  | cons c s ih =>
    simp only [breakOn] at h
    split at h
    · rename_i rest hp
      obtain ⟨rfl, rfl⟩ := by simpa using h
      exact dropPrefix?_eq_some_iff.mp hp
    · obtain ⟨⟨b, a⟩, hb, hab⟩ := Option.map_eq_some_iff.mp h
      obtain ⟨rfl, rfl⟩ := by simpa using hab
      simpa using ih hb

/-- The text up to the first place where a pattern stands, or all of it. -/
def before (pattern s : Text) : Text :=
  match breakOn pattern s with
  | some (b, _) => b
  | none => s

/-- The pieces between the characters of a class, empty ones included. -/
def splitWhere (p : Char → Bool) : Text → List Text
  | [] => [[]]
  | c :: s =>
    if p c then [] :: splitWhere p s
    else match splitWhere p s with
      | [] => [[c]]
      | w :: ws => (c :: w) :: ws

theorem splitWhere_ne_nil (p : Char → Bool) (s : Text) : splitWhere p s ≠ [] := by
  cases s with
  | nil => simp [splitWhere]
  | cons c s =>
    simp only [splitWhere]
    split
    · simp
    · split <;> simp

/-- The non-empty pieces between the characters of a class. -/
def wordsBy (p : Char → Bool) (s : Text) : List Text :=
  (splitWhere p s).filter (!·.isEmpty)

/-- Leaves out the characters of a class at the end. -/
def dropEndWhile (p : Char → Bool) (s : Text) : Text :=
  (s.reverse.dropWhile p).reverse

/-- The lines of a text, each with the newline that ends it. -/
def lines : Text → List Text
  | [] => []
  | c :: s =>
    if c = '\n' then ['\n'] :: lines s
    else match lines s with
      | [] => [[c]]
      | l :: ls => (c :: l) :: ls

/-- Puts a text in front of every line. -/
def indentLines (indent s : Text) : Text :=
  (lines s).flatMap (indent ++ ·)

/-- How many bytes a text takes in UTF-8. -/
def utf8Length (s : Text) : Nat :=
  s.foldr (fun c n => c.utf8Size + n) 0

@[simp] theorem utf8Length_nil : utf8Length [] = 0 := rfl

@[simp] theorem utf8Length_cons (c : Char) (s : Text) :
    utf8Length (c :: s) = c.utf8Size + utf8Length s := rfl

@[simp] theorem utf8Length_append (s t : Text) :
    utf8Length (s ++ t) = utf8Length s + utf8Length t := by
  induction s with
  | nil => simp
  | cons c s ih => simp [ih, Nat.add_assoc]

/-- A character takes at least one byte. -/
theorem length_le_utf8Length (s : Text) : s.length ≤ utf8Length s := by
  induction s with
  | nil => simp
  | cons c s ih =>
    have hc := c.utf8Size_pos
    simp only [List.length_cons, utf8Length_cons]
    omega

end Text
end Mustache
