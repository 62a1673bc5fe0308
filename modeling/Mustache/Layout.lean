import Mustache.Token

/-! Lines: a tag that shares its line with nothing but blanks takes the whole line with it. -/
namespace Mustache

/-- A token in its place: of plain text, what its neighbours leave of it; of a tag that stands
alone, the blanks in front of it. -/
inductive Item where
  | text (raw kept : Text)
  | tag (start : Position) (raw : Text) (tag : Tag) (alone? : Option Text)
  deriving DecidableEq, Repr

namespace Layout

/-- The blanks since the start of the line, the newest first, as long as there is nothing else on
it. -/
abbrev Lead := Option Text

def Lead.next (lead : Lead) (c : Char) : Lead :=
  if c = '\n' then some []
  else if Text.isBlank c then lead.map (c :: ·)
  else none

def Lead.advance (lead : Lead) (s : Text) : Lead :=
  s.foldl Lead.next lead

@[simp] theorem Lead.advance_append (lead : Lead) (s t : Text) :
    lead.advance (s ++ t) = (lead.advance s).advance t := by
  simp [Lead.advance]

/-- The blanks in front of a tag that stands alone, given the line before it and the text behind. -/
def standsAlone? (lead : Lead) (tag : Tag) (rest : Text) : Option Text :=
  if tag.mayStandAlone && (Text.blankLine? rest).isSome then lead.map List.reverse else none

/-- Whether the next token is a tag that stands alone. -/
def nextStandsAlone (lead : Lead) (source : Text) : List Token → Bool
  | ⟨_, raw, some tag⟩ :: _ => (standsAlone? lead tag (source.drop raw.length)).isSome
  | _ => false

/-- How much of a text belongs to the line of a tag in front of it, if that stands alone. -/
def lineEnd (afterLone : Bool) (s : Text) : Nat :=
  if afterLone then (Text.blankLine? s).getD 0 else 0

/-- What is left of plain text by the tags around it, given which of them stand alone. -/
def keep (afterLone beforeLone : Bool) (s : Text) : Text :=
  let s := s.drop (lineEnd afterLone s)
  if beforeLone then Text.dropEndWhile Text.isBlank s else s

/-- Places the tokens of a source, given the line in front of it and whether it follows a tag that
stands alone. -/
def place (lead : Lead) (afterLone : Bool) (source : Text) : List Token → List Item
  | [] => []
  | ⟨_, raw, none⟩ :: ts =>
    let lead := lead.advance raw
    let rest := source.drop raw.length
    .text raw (keep afterLone (nextStandsAlone lead rest ts) raw) :: place lead false rest ts
  | ⟨start, raw, some tag⟩ :: ts =>
    let rest := source.drop raw.length
    let alone? := standsAlone? lead tag rest
    .tag start raw tag alone? :: place (lead.advance raw) alone?.isSome rest ts

/-- The tokens of a whole source in their places. -/
def ofTokens (source : Text) (ts : List Token) : List Item :=
  place (some []) false source ts

end Layout
end Mustache
