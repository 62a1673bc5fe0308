import Mustache.Data.Yaml.Cursor
import Mustache.Decimal.Digits

/-! Block scalars: lines that are told by their indentation, kept as they are or folded. -/
namespace Mustache.Data.Yaml.Block

/-- What becomes of the breaks at the end: none stays, the first one stays, or all of them. -/
inductive Chomping where
  | strip
  | clip
  | keep
  deriving DecidableEq, Repr

/-- The signs behind the mark of a block scalar. -/
structure Header where
  chomping : Chomping
  indent? : Option Nat
  length : Nat
  deriving DecidableEq, Repr

def chomping? : Option Char → Option Chomping
  | some '+' => some .keep
  | some '-' => some .strip
  | _ => none

/-- Reads a sign for the end and a digit for the indentation, in any order. No indentation is
zero. -/
def header? (s : Text) : Option Header :=
  let digit? (s : Text) := (s.head?.filter Char.isDigit).map Decimal.digitValue
  let header : Header := match chomping? s.head?, digit? s with
    | some chomping, _ =>
      let indent? := digit? s.tail
      ⟨chomping, indent?, if indent?.isSome then 2 else 1⟩
    | none, some indent =>
      match chomping? s.tail.head? with
      | some chomping => ⟨chomping, some indent, 2⟩
      | none => ⟨.clip, some indent, 1⟩
    | none, none => ⟨.clip, none, 0⟩
  if header.indent? = some 0 then none else some header

/-- The breaks of empty lines, the indentation of the text, and the place where its next line
starts. -/
structure Lead where
  breaks : Text
  indent : Nat
  after : Cursor
  deriving DecidableEq, Repr

/-- Leaves out empty lines and the indentation of the next one. An indentation that is not known
yet is the longest one found here, but not less than the least. -/
def lead? (least : Nat) (indent? : Option Nat) : Nat → Nat → Text → Cursor → Option Lead
  | 0, _, _, _ => none
  | steps + 1, longest, breaks, c =>
    let spaces := (c.rest.takeWhile (· == ' ')).length
    let c := c.advance (indent?.elim spaces fun indent => min spaces (indent - c.column))
    let longest := max longest c.column
    let open? := indent?.all (c.column < ·)
    match c.rest with
    | a :: _ =>
      if open? && a == '\t' then none
      else if isBreak a then lead? least indent? steps longest (breaks ++ [a]) c.skip
      else some ⟨breaks, indent?.getD (max longest (max least 1)), c⟩
    | [] => some ⟨breaks, indent?.getD (max longest (max least 1)), c⟩

/-- A block scalar as far as it has been read: its text, the break behind it, and whether its last
line began with a blank. -/
structure Lines where
  text : Text
  ending : Text
  blankFirst : Bool
  deriving DecidableEq, Repr

/-- Adds a line. A newline between two lines that begin with no blank is folded: it becomes a space
unless empty lines follow it. -/
def Lines.add (folded : Bool) (l : Lines) (breaks line ending : Text) : Lines :=
  let blank := line.head?.any Text.isBlank
  let between :=
    if folded && l.ending.head? == some '\n' && !l.blankFirst && !blank then
      if breaks = [] then [' '] else []
    else l.ending
  ⟨l.text ++ between ++ breaks ++ line, ending, blank⟩

def Lines.finish (l : Lines) (chomping : Chomping) (breaks : Text) : Text :=
  match chomping with
  | .strip => l.text
  | .clip => l.text ++ l.ending
  | .keep => l.text ++ l.ending ++ breaks

/-- Reads the lines that stand at the indentation of the first one. -/
def lines? (folded : Bool) (least : Nat) (chomping : Chomping) : Nat → Lines → Lead →
    Option (Text × Cursor)
  | 0, _, _ => none
  | steps + 1, l, ⟨breaks, indent, c⟩ =>
    if c.column = indent ∧ c.rest ≠ [] then do
      let (line, c) := c.takeWhile fun a => !isBreak a
      let l := l.add folded breaks line (c.rest.take 1)
      let c := c.skip
      lines? folded least chomping steps l (← lead? least (some indent) (c.rest.length + 1) 0 [] c)
    else some (l.finish chomping breaks, c)

/-- Reads a block scalar behind its mark. An indentation that is given counts from the column of
the block around it, whose inside starts at the least column. -/
def read? (folded : Bool) (least : Nat) (c : Cursor) : Option (Text × Cursor) := do
  let header ← header? c.rest
  let c ← (c.advance header.length).skipLine?
  let indent? := header.indent?.map (· + (least - 1))
  let lead ← lead? least indent? (c.rest.length + 1) 0 [] c
  lines? folded least header.chomping (c.rest.length + 1) ⟨[], [], false⟩ lead

example : (read? true 1 (.start "-\n a\n b\n\n c\n".toList)).map Prod.fst
    = some "a b\nc".toList := by decide +kernel
example : (read? false 1 (.start "\n  a\n   b\n".toList)).map Prod.fst
    = some "a\n b\n".toList := by decide +kernel

end Mustache.Data.Yaml.Block
