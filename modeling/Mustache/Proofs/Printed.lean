import Mustache.Proofs.Wording

/-! Printed sources: texts and tags one after the other, each tag with the delimiters in force.
Reading such a source gives back what was printed, if every search ends where it is meant to. -/
namespace Mustache

open Text

/-- The bytes of the source that a token takes, from the first one to the one behind the last. -/
def Token.span (t : Token) : Nat × Nat :=
  (t.start.offset, t.start.offset + utf8Length t.raw)

/-- One piece of a source that is to be printed. -/
inductive Piece where
  | text (s : Text)
  | tag (w : Wording)
  deriving DecidableEq, Repr

namespace Piece

def print (d : Delimiters) : Piece → Text
  | text s => s
  | tag w => w.print d

def tag? : Piece → Option Tag
  | text _ => none
  | tag w => some w.tag

/-- The delimiters in force behind a piece. -/
def delimitersAfter (d : Delimiters) : Piece → Delimiters
  | text _ => d
  | tag w => w.tag.delimitersAfter d

/-- The source that pieces print to. -/
def printAll (d : Delimiters) : List Piece → Text
  | [] => []
  | x :: xs => x.print d ++ printAll (x.delimitersAfter d) xs

/-- The pieces as tokens, the first of them at a position. -/
def tokens (p : Position) (d : Delimiters) : List Piece → List Token
  | [] => []
  | x :: xs =>
    ⟨p, x.print d, x.tag?⟩ :: tokens (p.advance (x.print d)) (x.delimitersAfter d) xs

/-- The bytes that the pieces take, the first of them from an offset on. -/
def spans (offset : Nat) (d : Delimiters) : List Piece → List (Nat × Nat)
  | [] => []
  | x :: xs =>
    let next := offset + utf8Length (x.print d)
    (offset, next) :: spans next (x.delimitersAfter d) xs

/-- Pieces that can be told apart in print. No text is empty or next to another one, the opening
delimiter is first found behind a text in front of a tag and nowhere in the last text, and the end
of a tag is first found at its end. -/
inductive Legible : Delimiters → List Piece → Prop
  | nil {d : Delimiters} : Legible d []
  | last {d : Delimiters} {s : Text} (hs : s ≠ []) (h : breakOn d.opening s = none) :
    Legible d [text s]
  | text {d : Delimiters} {s : Text} {w : Wording} {xs : List Piece} (hs : s ≠ [])
      (h : breakOn d.opening (s ++ d.opening) = some (s, [])) (hr : Legible d (tag w :: xs)) :
    Legible d (text s :: tag w :: xs)
  | tag {d : Delimiters} {w : Wording} {xs : List Piece} (hw : w.Proper)
      (h : breakOn (w.terminator d) (w.inside ++ w.terminator d) = some (w.inside, []))
      (hr : Legible (w.tag.delimitersAfter d) xs) : Legible d (tag w :: xs)

lemma tokens_map_span (p : Position) (d : Delimiters) (xs : List Piece) :
    (tokens p d xs).map Token.span = spans p.offset d xs := by
  induction xs generalizing p d with
  | nil => rfl
  | cons x xs ih =>
    rw [tokens, List.map_cons, ih, Position.advance_offset]
    rfl

lemma printAll_tag (d : Delimiters) (w : Wording) (xs : List Piece) :
    printAll d (.tag w :: xs) =
      d.opening ++ (w.inside ++ w.terminator d ++ printAll (w.tag.delimitersAfter d) xs) :=
  Wording.printBehind_append [] w d _

lemma scan_printAll {d : Delimiters} {xs : List Piece} (h : Legible d xs) (p : Position) :
    Tokens.scan d p (printAll d xs) = ⟨tokens p d xs, none⟩ := by
  induction h generalizing p with
  | nil => exact Tokens.scan_nil _ p
  | @last d s hs h =>
    have hread : Token.read d (printAll d [.text s]) = .ok ⟨s, none, []⟩ := by
      rw [printAll, printAll, List.append_nil]
      exact Token.read_last h
    rw [Tokens.scan_of_read (by simpa [printAll, print] using hs) hread]
    simp [tokens, print, tag?]
  | @text d s w xs hs h hr ih =>
    have hsource : printAll d (.text s :: .tag w :: xs) = s ++ printAll d (.tag w :: xs) := rfl
    have hread : Token.read d (s ++ printAll d (.tag w :: xs)) =
        .ok ⟨s, none, printAll d (.tag w :: xs)⟩ := by
      rw [printAll_tag, ← List.append_assoc]
      exact Token.read_text hs (breakOn_append h _)
    rw [hsource, Tokens.scan_of_read (by simp [hs]) hread]
    simp only [Option.elim_none, ih]
    rfl
  | @tag d w xs hw h hr ih =>
    have hread := Wording.readTag_wording hw h (printAll (w.tag.delimitersAfter d) xs)
    rw [printAll_tag, Tokens.scan_of_readTag hread, ih]
    rfl

/-- A source that is printed from legible pieces is read to its end, piece by piece: the tokens say
what the pieces say and take the bytes that the pieces were printed to. -/
theorem ofText_printAll {d : Delimiters} {xs : List Piece} (h : Legible d xs) :
    Tokens.ofText d (printAll d xs) = ⟨tokens .start d xs, none⟩ ∧
      (tokens .start d xs).map Token.span = spans 0 d xs :=
  ⟨scan_printAll h .start, tokens_map_span .start d xs⟩

/-- Tags of four kinds between braces and between bars, with texts that begin like tags. -/
theorem ofText_printAll_switched :
    let bars : Delimiters := ⟨['|'], ['|', '>']⟩
    let xs : List Piece :=
      [.text ['é', '{', '\n'], .tag (.named .brace [' '] ['}', 'x'] []),
        .tag (.switch [] [' '] [] bars), .text ['{', '{'],
        .tag (.escaped [] ['a', '.', 'b'] ['\t']),
        .tag (.comment ['>', ' ']), .text ['>', '}']]
    Legible .braces xs ∧
      Tokens.ofText .braces (printAll .braces xs) = ⟨tokens .start .braces xs, none⟩ ∧
      (tokens .start .braces xs).map Token.span =
        [(0, 4), (4, 13), (13, 23), (23, 25), (25, 32), (32, 38), (38, 40)] := by
  intro bars xs
  have hall {p : Char → Bool} {b : Bool} {s : Text} (h : s.all (p · == b) = true) :
      ∀ c ∈ s, p c = b := by simpa using h
  have hname {s : Text} (hs : (Tag.segments s).all (· ≠ []) = true)
      (h : s.all (isSpace · == false) = true) : Tag.IsName s :=
    .inr ⟨by simpa using hs, hall h⟩
  have hbrace : Wording.Proper (.named .brace [' '] ['}', 'x'] []) :=
    ⟨hall (by decide), hall (by decide), hname (by decide) (by decide)⟩
  have hswitch : Wording.Proper (.switch [] [' '] [] bars) := by
    refine ⟨hall (by decide), hall (by decide), by decide, hall (by decide), ⟨?_, ?_⟩, ?_, ?_⟩
    · decide
    · decide
    · rintro _ ⟨⟩
      decide
    · rintro _ ⟨⟩
      decide
  have hescaped : Wording.Proper (.escaped [] ['a', '.', 'b'] ['\t']) := by
    refine ⟨hall (by decide), hall (by decide), hname (by decide) (by decide), ?_⟩
    rintro _ ⟨⟩
    decide
  have h : Legible .braces xs := by
    refine .text (by decide) (by decide) (.tag hbrace (by decide) (.tag hswitch (by decide) ?_))
    refine .text (by decide) (by decide) (.tag hescaped (by decide) (.tag trivial (by decide) ?_))
    exact .last (by decide) (by decide)
  obtain ⟨htokens, hspans⟩ := ofText_printAll h
  exact ⟨h, htokens, hspans.trans (by decide)⟩

end Piece
end Mustache
