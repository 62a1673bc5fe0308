import Mustache.Proofs.Line
import Mustache.Proofs.Nests

/-! Margins: the layout of a piece of a source depends on what is around it only over blanks and
line ends. Behind any other character, and in front of one, a piece is laid out as it is on its
own. -/
namespace Mustache

/-- The characters that can stand between a tag and the ends of its line if it stands alone. -/
def Text.margins : List Char := [' ', '\t', '\r', '\n']

namespace Layout

variable {c : Char}

lemma isBlank_of_notMem_margins (hc : c ∉ Text.margins) : Text.isBlank c = false := by
  simp_all [Text.margins, Text.isBlank]

lemma Lead.next_of_notMem_margins (hc : c ∉ Text.margins) (lead : Lead) : lead.next c = none := by
  have hblank := isBlank_of_notMem_margins hc
  have hnewline : c ≠ '\n' := by
    rintro rfl
    simp [Text.margins] at hc
  simp [Lead.next, hnewline, hblank]

/-- Behind such a character it does not matter what the line began with. -/
theorem Lead.advance_cons_of_notMem_margins (hc : c ∉ Text.margins) (lead lead' : Lead) (s : Text) :
    lead.advance (c :: s) = lead'.advance (c :: s) := by
  change Lead.advance (lead.next c) s = Lead.advance (lead'.next c) s
  rw [Lead.next_of_notMem_margins hc, Lead.next_of_notMem_margins hc]

lemma Lead.advance_append_of_notMem_margins (hc : c ∉ Text.margins) (lead : Lead) (s : Text) :
    lead.advance (s ++ [c]) = none := by
  rw [Lead.advance_append]
  exact Lead.next_of_notMem_margins hc _

lemma blankLine?_cons_of_notMem_margins (hc : c ∉ Text.margins) (s : Text) :
    Text.blankLine? (c :: s) = none := by
  rw [Text.blankLine?_cons_of_not_isBlank (isBlank_of_notMem_margins hc)]
  simp_all [Text.margins]

/-- In front of such a character it does not matter what the line ends with. -/
theorem blankLine?_append_of_notMem_margins (hc : c ∉ Text.margins) (s more : Text) :
    Text.blankLine? (s ++ c :: more) = Text.blankLine? (s ++ [c]) := by
  refine Text.blankLine?_append_cons (isBlank_of_notMem_margins hc) ?_ s more
  rintro rfl
  simp [Text.margins] at hc

end Layout

namespace Segment

open Layout

lemma place_map_toSegment (lead : Lead) (afterLone : Bool) (xs : List Segment) (last : Text) :
    (place lead afterLone xs last).map Placed.toSegment = xs := by
  induction xs generalizing lead afterLone with
  | nil => rfl
  | cons x xs ih => rw [place, List.map_cons, ih]

/-- Segments that follow one another are placed one after the other. -/
theorem place_append (lead : Lead) (afterLone : Bool) (xs ys : List Segment) (last : Text) :
    place lead afterLone (xs ++ ys) last =
      let first := place lead afterLone xs (sourceOf ys last)
      first ++ place (lead.advance (sourceOf xs []))
        (Placed.afterLast afterLone first) ys last := by
  induction xs generalizing lead afterLone with
  | nil => rfl
  | cons x xs ih =>
    rw [List.cons_append, place, place, ih, sourceOf_append_eq_sourceOf]
    simp [Placed.afterLast]

/-- Segments that are placed one after the other are each placed by what is around them. -/
theorem place_eq_append {lead : Lead} {afterLone : Bool} {xs : List Segment} {last : Text}
    {ps qs : List Placed} (h : place lead afterLone xs last = ps ++ qs) :
    ps = place lead afterLone (ps.map Placed.toSegment) (sourceOf (qs.map Placed.toSegment) last) ∧
      qs = place (lead.advance (sourceOf (ps.map Placed.toSegment) []))
        (Placed.afterLast afterLone ps)
        (qs.map Placed.toSegment) last := by
  have hxs := place_map_toSegment lead afterLone xs last
  rw [h, List.map_append] at hxs
  rw [← hxs, place_append] at h
  obtain ⟨hp, hq⟩ := List.append_inj h (by
    have hlength := congrArg List.length (place_map_toSegment lead afterLone
      (ps.map Placed.toSegment) (sourceOf (qs.map Placed.toSegment) last))
    simpa using hlength)
  refine ⟨hp.symm, ?_⟩
  rw [hp] at hq
  exact hq.symm

variable {c : Char}

/-- Behind a character that is no margin, segments are placed whatever stands in front of it. -/
theorem place_of_first (hc : c ∉ Text.margins) (lead lead' : Lead) (afterLone : Bool) {x : Segment}
    {t : Text} (hx : x.text = c :: t) (xs : List Segment) (last : Text) :
    place lead afterLone (x :: xs) last = place lead' afterLone (x :: xs) last := by
  rw [place, place, hx, Lead.advance_cons_of_notMem_margins hc lead lead']

/-- Segments are placed by how the text behind the last of them ends the lines in front of it. -/
theorem place_congr_last {last last' : Text}
    (h : ∀ xs, Text.blankLine? (sourceOf xs last) = Text.blankLine? (sourceOf xs last'))
    (lead : Lead) (afterLone : Bool) (xs : List Segment) :
    place lead afterLone xs last = place lead afterLone xs last' := by
  induction xs generalizing lead afterLone with
  | nil => rfl
  | cons x xs ih => rw [place, place, standsAlone?, standsAlone?, h xs, ih]

/-- In front of a character that is no margin, segments are placed whatever stands behind it. -/
theorem place_of_last (hc : c ∉ Text.margins) (lead : Lead) (afterLone : Bool) (xs : List Segment)
    (s more : Text) :
    place lead afterLone xs (s ++ c :: more) = place lead afterLone xs (s ++ [c]) := by
  apply place_congr_last
  intro xs
  rw [sourceOf_append_last, sourceOf_append_last, blankLine?_append_of_notMem_margins hc]

/-- Between two tags, a piece of a source that begins and ends with a character that is no margin is
laid out as it is on its own. -/
theorem place_between {lead : Lead} {afterLone : Bool} {xs : List Segment} {last : Text}
    {before inner rest following : List Placed} {x y z : Placed} {a b : Char} {s t : Text}
    (h : place lead afterLone xs last = before ++ x :: (inner ++ y :: rest))
    (hz : inner ++ y :: rest = z :: following) (hfirst : z.text = a :: t) (ha : a ∉ Text.margins)
    (hlast : y.text = s ++ [b]) (hb : b ∉ Text.margins) :
    inner = placed (inner.map Placed.toSegment) y.text ∧
      y.kept = keptLast (inner.map Placed.toSegment) y.text := by
  obtain ⟨-, hx⟩ := place_eq_append h
  rw [List.map_cons, place] at hx
  obtain ⟨hx, hinner⟩ := List.cons.inj hx
  -- the opening tag does not stand alone, because the character is on its line
  have halone : ∀ lead : Lead, standsAlone? lead x.tag
      (sourceOf ((inner ++ y :: rest).map Placed.toSegment) last) = none := by
    intro lead
    rw [hz, List.map_cons, sourceOf, hfirst, standsAlone?, List.cons_append,
      blankLine?_cons_of_notMem_margins ha]
    simp
  rw [halone] at hinner
  obtain ⟨hi, hy⟩ := place_eq_append hinner.symm
  have hsource : sourceOf ((y :: rest).map Placed.toSegment) last =
      s ++ b :: (y.raw ++ sourceOf (rest.map Placed.toSegment) last) := by
    rw [List.map_cons, sourceOf_cons, hlast, List.append_assoc]
    rfl
  rw [hsource, place_of_last hb, ← hlast] at hi
  have hplaced : inner = placed (inner.map Placed.toSegment) y.text := by
    cases inner with
    | nil => rfl
    | cons z' inner =>
      obtain ⟨rfl, -⟩ := List.cons.inj hz
      rw [List.map_cons] at hi ⊢
      exact hi.trans (place_of_first ha _ _ _ hfirst _ _)
  refine ⟨hplaced, ?_⟩
  rw [List.map_cons, place] at hy
  obtain ⟨hy, -⟩ := List.cons.inj hy
  -- neither does the closing tag
  have hclosed : y.afterLone = Placed.afterLast false inner ∧ y.alone? = none := by
    rw [hy, hlast, Lead.advance_append_of_notMem_margins hb]
    simp [standsAlone?]
  rw [Placed.kept, hclosed.1, hclosed.2, keptLast, ← hplaced]
  rfl

end Segment
end Mustache
