import Mustache.Data.Yaml.Cursor

/-! Plain scalars: where they start, and how far they go. -/
namespace Mustache.Data.Yaml.Plain

/-- Whether a plain scalar can start with a character in front of some text. -/
def startsWith (inFlow : Bool) (c : Char) (rest : Text) : Bool :=
  if c = '-' then !rest.head?.any Text.isBlank
  else if c = '?' ∨ c = ':' then !inFlow && !atGap rest
  else !(isGap c || isFlowMark c || c ∈ "#&*!|>'\"%@`".toList)

/-- The characters of a plain scalar up to a gap, or to what ends the scalar: a colon in front of
a gap, and within brackets what parts values. There, a colon may not touch such a mark. -/
def chunk (inFlow : Bool) : Text → Option Text
  | [] => some []
  | c :: s =>
    if isGap c then some []
    else if inFlow && c == ':' && s.head?.any fun d => isFlowMark d || d == '?' then none
    else if (c == ':' && atGap s) || (inFlow && isFlowMark c) then some []
    else (c :: ·) <$> chunk inFlow s

/-- Whether a tab stands in a gap behind a break before a column. -/
def tabBefore (least : Nat) (gap : Text) : Bool :=
  (Text.splitWhere isBreak gap).tail.any fun blanks =>
    let spaces := (blanks.takeWhile (· == ' ')).length
    spaces < least && spaces < blanks.length

/-- A plain scalar and whether its line has ended behind it. -/
structure Reading where
  text : Text
  lineEnded : Bool
  after : Cursor
  deriving DecidableEq, Repr

/-- Reads on in a plain scalar, given its text so far, the newest first, and the gap behind that.
Outside of brackets all its lines start at the least column or behind it. -/
def readOn (inFlow : Bool) (least : Nat) : Nat → Text → Text → Cursor → Option Reading
  | 0, _, _, _ => none
  | steps + 1, t, gap, c =>
    let whole : Reading := ⟨t.reverse, gap.any isBreak, c⟩
    if c.atDocumentMark || c.rest.head? = some '#' then some whole
    else
      match chunk inFlow c.rest with
      | none => none
      | some [] => some whole
      | some piece =>
        let t := piece.reverse ++ ((fold gap).reverse ++ t)
        let (gap, c) := (c.advance piece.length).takeWhile isGap
        if gap = [] then some ⟨t.reverse, false, c⟩
        else if tabBefore least gap then none
        else if !inFlow && c.column < least then some ⟨t.reverse, gap.any isBreak, c⟩
        else readOn inFlow least steps t gap c

def read (inFlow : Bool) (least : Nat) (c : Cursor) : Option Reading :=
  readOn inFlow least (c.rest.length + 1) [] [] c

example : (read false 1 (.start ['a', ' ', 'b', ' ', '#'])).map Reading.text
    = some ['a', ' ', 'b'] := by decide
example : (read true 0 (.start ['a', ':', ']'])).map Reading.text = none := by decide

end Mustache.Data.Yaml.Plain
