import Mustache.Proofs.Segment
import Mustache.Template

/-! Segments in their places: which tags stand alone, and what that leaves of the text around
them. Placing the tokens of a source and placing its segments are the same. -/
namespace Mustache

open Layout

@[simp] lemma Layout.keep_nil (afterLone beforeLone : Bool) :
    keep afterLone beforeLone [] = [] := by
  cases afterLone <;> cases beforeLone <;> rfl

/-- A segment in its place: whether the tag before it stands alone, and the blanks in front of its
own tag if that does. -/
structure Placed extends Segment where
  afterLone : Bool
  alone? : Option Text
  deriving DecidableEq, Repr

/-- Places the segments of a source, given the line in front of them and whether they follow a tag
that stands alone. -/
def Segment.place (lead : Lead) (afterLone : Bool) : List Segment → Text → List Placed
  | [], _ => []
  | x :: xs, last =>
    let lead := lead.advance x.text
    let alone? := standsAlone? lead x.tag (sourceOf xs last)
    ⟨x, afterLone, alone?⟩ :: place (lead.advance x.raw) alone?.isSome xs last

namespace Placed

/-- What is kept of the text in front of the tag. -/
def kept (x : Placed) : Text := keep x.afterLone x.alone?.isSome x.text

/-- Whether the last tag of some segments stands alone. -/
def afterLast (afterLone : Bool) : List Placed → Bool
  | [] => afterLone
  | x :: xs => afterLast x.alone?.isSome xs

/-- A stretch of plain text as an item, if there is any. -/
def textItem (s kept : Text) : List Item :=
  if s = [] then [] else [.text s kept]

/-- The items of placed segments that stand at a position. -/
def items (p : Position) : List Placed → List Item
  | [] => []
  | x :: xs =>
    textItem x.text x.kept ++ .tag (p.advance x.text) x.raw x.tag x.alone? ::
      items ((p.advance x.text).advance x.raw) xs

/-- The place behind some segments. -/
def positionAfter (p : Position) (xs : List Placed) : Position :=
  xs.foldl (fun p x => (p.advance x.text).advance x.raw) p

lemma items_append (p : Position) (xs ys : List Placed) :
    items p (xs ++ ys) = items p xs ++ items (positionAfter p xs) ys := by
  induction xs generalizing p with
  | nil => rfl
  | cons x xs ih => simp [items, positionAfter, ih, List.append_assoc]

end Placed

namespace Layout

lemma place_textToken (lead : Lead) (afterLone : Bool) (p : Position) (s : Text) :
    place lead afterLone s (Segment.textToken p s) =
      Placed.textItem s (keep afterLone false s) := by
  by_cases hs : s = []
  · simp [Segment.textToken, Placed.textItem, hs, place]
  · simp [Segment.textToken, Placed.textItem, hs, place, nextStandsAlone]

/-- Plain text and the tag behind it are placed together. -/
theorem place_textToken_append (lead : Lead) (afterLone : Bool) (p q : Position)
    (text raw rest : Text) (tag : Tag) (ts : List Token) :
    place lead afterLone (text ++ (raw ++ rest))
        (Segment.textToken p text ++ ⟨q, raw, some tag⟩ :: ts) =
      let alone? := standsAlone? (lead.advance text) tag rest
      Placed.textItem text (keep afterLone alone?.isSome text) ++
        .tag q raw tag alone? :: place ((lead.advance text).advance raw) alone?.isSome rest ts := by
  by_cases ht : text = []
  · subst ht
    simp [Segment.textToken, Placed.textItem, place, Lead.advance]
  · simp [Segment.textToken, Placed.textItem, ht, place, nextStandsAlone]

/-- Placing tokens is placing segments. -/
theorem place_tokens (lead : Lead) (afterLone : Bool) (p : Position) (xs : List Segment)
    (last : Text) :
    place lead afterLone (Segment.sourceOf xs last) (Segment.tokens p xs last) =
      let placed := Segment.place lead afterLone xs last
      Placed.items p placed ++
        Placed.textItem last (keep (Placed.afterLast afterLone placed) false last) := by
  induction xs generalizing lead afterLone p with
  | nil => exact place_textToken lead afterLone p last
  | cons x xs ih =>
    rw [Segment.sourceOf, Segment.tokens, place_textToken_append]
    simp [ih, Segment.place, Placed.items, Placed.afterLast, Placed.kept]

end Layout
end Mustache
