import Mustache.Proofs.Behind
import Mustache.Proofs.Elision
import Mustache.Proofs.Indentation
import Mustache.Proofs.Margin
import Mustache.Proofs.Reads

/-! Seams: behind whole lines a source is cut, placed and nested as it is on its own. The text in
front of the seam and the text behind it become one, and nothing else changes. -/
namespace Mustache

open Text Layout

namespace Text

variable {s : Text}

/-- Behind whole lines, a pattern without newlines is found where it is found without them. -/
theorem WholeLines.breakOn_append (hs : s.WholeLines) {pattern : Text} (hn : '\n' ∉ pattern)
    (h : breakOn pattern s = none) (t : Text) :
    breakOn pattern (s ++ t) = (breakOn pattern t).map fun (b, a) => (s ++ b, a) := by
  rcases hs with rfl | ⟨u, rfl⟩
  · simp
  · simpa using breakOn_append_of_notMem hn (breakOn_eq_none_of_append h) t

lemma WholeLines.of_append {t : Text} (h : (s ++ t).WholeLines) : t.WholeLines := by
  cases t using List.reverseRecOn with
  | nil => exact .inl rfl
  | append_singleton t c _ =>
    rcases h with h | ⟨u, hu⟩
    · simp at h
    · rw [← List.append_assoc] at hu
      exact .inr ⟨t, by rw [List.append_inj_right' hu rfl]⟩

/-- Behind a character that is no newline, whole lines end with a newline of their own. -/
theorem WholeLines.exists_of_append {c : Char} {t : Text} (h : (s ++ c :: t).WholeLines)
    (hc : c ≠ '\n') : ∃ u, t = u ++ ['\n'] := by
  rcases @WholeLines.of_append (s ++ [c]) t (by simpa using h) with rfl | ht
  · rcases @WholeLines.of_append s [c] h with h | ⟨u, hu⟩
    · simp at h
    · have hlast := List.append_inj_right' (show [] ++ [c] = u ++ ['\n'] from hu) rfl
      exact absurd (List.cons.inj hlast).1 hc
  · exact ht

lemma WholeLines.dropEndWhile_append (hs : s.WholeLines) (t : Text) :
    dropEndWhile isBlank (s ++ t) = s ++ dropEndWhile isBlank t := by
  rcases hs with rfl | ⟨u, rfl⟩
  · rfl
  · induction t using List.reverseRecOn with
    | nil => simp [dropEndWhile]
    | append_singleton t c ih =>
      by_cases hc : isBlank c = true
      · have hall : ∀ a ∈ [c], isBlank a = true := by simp [hc]
        rw [← List.append_assoc, Text.dropEndWhile_append _ _ hall,
          Text.dropEndWhile_append _ _ hall,
          ih]
      · rw [← List.append_assoc, dropEndWhile_append_singleton _ _ hc,
          dropEndWhile_append_singleton _ _ hc, List.append_assoc]

end Text

namespace Layout

lemma Lead.advance_wholeLines {s : Text} (hs : s.WholeLines) :
    Lead.advance (some []) s = some [] := by
  rcases hs with rfl | ⟨u, rfl⟩
  · rfl
  · rw [Lead.advance_append]
    rfl

/-- What is kept of whole lines and of what follows them is kept of each. -/
theorem keep_append {s : Text} (hs : s.WholeLines) (afterLone beforeLone : Bool) (t : Text)
    (h : s = [] → afterLone = false) :
    keep afterLone beforeLone (s ++ t) = keep afterLone false s ++ keep false beforeLone t := by
  have hend : lineEnd afterLone (s ++ t) = lineEnd afterLone s := by
    cases afterLone with
    | false => rfl
    | true =>
      obtain rfl | ⟨u, rfl⟩ := hs
      · simp at h
      · rw [List.append_assoc, List.singleton_append, lineEnd,
          blankLine?_append_cons isBlank_newline (by decide)]
        rfl
  have hdrop : (s ++ t).drop (lineEnd afterLone (s ++ t)) = keep afterLone false s ++ t := by
    rw [hend, List.drop_append_of_le_length (lineEnd_le_length afterLone s)]
    rfl
  have hkept : (keep afterLone false s).WholeLines := by
    rw [← List.take_append_drop (lineEnd afterLone s) s] at hs
    exact hs.of_append
  rw [keep]
  simp only [hdrop]
  cases beforeLone with
  | false => rfl
  | true => exact hkept.dropEndWhile_append t

end Layout

namespace Placed

lemma afterLast_append (afterLone : Bool) (xs ys : List Placed) :
    afterLast afterLone (xs ++ ys) = afterLast (afterLast afterLone xs) ys := by
  induction xs generalizing afterLone with
  | nil => rfl
  | cons x xs ih => exact ih _

end Placed

namespace Segment

variable {d : Delimiters} {s last : Text} {xs : List Segment}

/-- Whole lines end with whole lines behind their last tag. -/
theorem Cuts.wholeLines_last (hd : d.Valid) (h : Cuts d s xs last) (hs : s.WholeLines) :
    last.WholeLines ∧ (last = [] → xs = []) := by
  have hsource := h.sourceOf_eq
  cases xs using List.reverseRecOn with
  | nil => exact ⟨(show last = s from hsource) ▸ hs, fun _ => rfl⟩
  | append_singleton xs x _ =>
    obtain ⟨t, c, ht, hc⟩ := (h.solid hd x (by simp)).last
    have hn : c ≠ '\n' := by
      rintro rfl
      simp [isAsciiSpace] at hc
    have hcut : sourceOf xs [] ++ x.text ++ t ++ c :: last = s := by
      rw [← hsource, sourceOf_append]
      simp [sourceOf, ht]
    rw [← hcut] at hs
    obtain ⟨u, rfl⟩ := hs.exists_of_append hn
    exact ⟨.inr ⟨u, rfl⟩, by simp⟩

/-- More text behind whole lines does not change how their segments are placed. -/
theorem place_append_wholeLines (hlast : last.WholeLines) (hx : last = [] → xs = []) (lead : Lead)
    (afterLone : Bool) (more : Text) :
    place lead afterLone xs (last ++ more) = place lead afterLone xs last := by
  rcases hlast with rfl | ⟨u, rfl⟩
  · rw [hx rfl]
    rfl
  · apply place_congr_last
    intro zs
    rw [List.append_assoc, sourceOf_append_last, sourceOf_append_last]
    exact blankLine?_append_cons isBlank_newline (by decide) _ more

/-- Behind whole lines segments are placed as they are on their own. -/
theorem placed_append_prefixed (hd : d.Valid) (h : Cuts d s xs last) (hs : s.WholeLines)
    (ys : List Segment) (last' : Text) :
    placed (xs ++ prefixed last ys) (prefixedLast last last' ys) =
      placed xs last ++ Placed.prefixed last
        (place (some []) (Placed.afterLast false (placed xs last)) ys last') := by
  obtain ⟨hlast, hx⟩ := h.wholeLines_last hd hs
  have hlead : Lead.advance (Lead.advance (some []) (sourceOf xs [])) last = some [] := by
    rw [← Lead.advance_append, ← sourceOf_eq_append, h.sourceOf_eq]
    exact Lead.advance_wholeLines hs
  rw [placed, place_append, sourceOf_prefixed, place_append_wholeLines hlast hx]
  dsimp only
  rw [place_prefixed, hlead]
  rfl

end Segment

namespace Tokens

lemma tags_textToken (p : Position) (s : Text) (fault? : Option (Position × TagFault)) :
    tags ⟨Segment.textToken p s, fault?⟩ = [] := by
  unfold Segment.textToken
  split <;> rfl

lemma tags_textToken_append (p : Position) (s : Text) (ts : List Token)
    (fault? fault?' : Option (Position × TagFault)) :
    tags ⟨Segment.textToken p s ++ ts, fault?⟩ = tags ⟨ts, fault?'⟩ := by
  unfold Segment.textToken
  split <;> rfl

/-- Behind whole lines without tags the same tags are read, to the same fault. -/
theorem scan_append_wholeLines {d : Delimiters} (hd : d.Valid) {s : Text} (hs : s.WholeLines)
    (h : breakOn d.opening s = none) (p : Position) (t : Text) :
    (scan d p (s ++ t)).tags = (scan d (p.advance s) t).tags ∧
      (scan d p (s ++ t)).fault? = (scan d (p.advance s) t).fault? := by
  have hsearch := hs.breakOn_append hd.opening.newline_notMem h t
  cases ht : breakOn d.opening t with
  | none =>
    rw [ht] at hsearch
    rw [scan_of_cuts (.last hsearch), scan_of_cuts (.last ht)]
    exact ⟨(tags_textToken _ _ _).trans (tags_textToken _ _ _).symm, rfl⟩
  | some cut =>
    obtain ⟨text, inside⟩ := cut
    rw [ht] at hsearch
    cases hr : Token.readTag d inside with
    | error fault =>
      rw [scan_of_readTag_eq_error hd hsearch hr, scan_of_readTag_eq_error hd ht hr,
        Position.advance_append]
      exact ⟨(tags_textToken _ _ _).trans (tags_textToken _ _ _).symm, rfl⟩
    | ok r =>
      obtain ⟨inside', rest, tag, -, -, rfl⟩ := Token.readTag_eq_ok_iff.mp hr
      rw [scan_tag hsearch hr, scan_tag ht hr]
      simp only [Position.advance_append, and_true]
      exact (tags_textToken_append _ _ _ _ none).trans (tags_textToken_append _ _ _ _ none).symm

end Tokens
end Mustache
