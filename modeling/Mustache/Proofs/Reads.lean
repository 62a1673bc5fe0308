import Mustache.Proofs.Segment

/-! Reading part of a source: some segments from its start, and a rest that is still to be read.
What is read does not depend on the rest, so that sources can be cut and put together between
tags. -/
namespace Mustache

/-- The delimiters in force behind some tags. -/
def Delimiters.after (d : Delimiters) (tags : List Tag) : Delimiters :=
  tags.foldl Tag.delimitersAfter d

namespace Delimiters

@[simp] lemma after_nil (d : Delimiters) : d.after [] = d := rfl

@[simp] lemma after_cons (d : Delimiters) (tag : Tag) (tags : List Tag) :
    d.after (tag :: tags) = (tag.delimitersAfter d).after tags := rfl

@[simp] lemma after_append (d : Delimiters) (tags more : List Tag) :
    d.after (tags ++ more) = (d.after tags).after more := by
  simp [after]

end Delimiters

namespace Token

lemma terminator_append (d : Delimiters) {s : Text} (hs : s ≠ []) (more : Text) :
    terminator d (s ++ more) = terminator d s := by
  obtain ⟨c, s, rfl⟩ := List.exists_cons_of_ne_nil hs
  rw [List.cons_append]
  unfold terminator
  split <;> simp_all

/-- A tag has something inside. -/
theorem inside_ne_nil {inside : Text} {tag : Tag} (h : Tag.ofText (Text.trim inside) = .ok tag) :
    inside ≠ [] := by
  rintro rfl
  simp [Text.trim, Text.dropEndWhile, Tag.ofText] at h

/-- A tag is its opening delimiter and the text in front of the rest. -/
theorem exists_of_readTag {d : Delimiters} {s : Text} {r : Reading} (h : readTag d s = .ok r) :
    ∃ u, r.raw = d.opening ++ u ∧ s = u ++ r.rest := by
  obtain ⟨inside, rest, tag, hb, -, rfl⟩ := readTag_eq_ok_iff.mp h
  exact ⟨inside ++ terminator d s, List.append_assoc .., Text.eq_append_of_breakOn hb⟩

/-- A tag begins and ends with its delimiters. -/
theorem exists_raw_eq_of_readTag {d : Delimiters} {s : Text} {r : Reading}
    (h : readTag d s = .ok r) : ∃ inside, r.raw = d.opening ++ inside ++ d.closing := by
  obtain ⟨inside, rest, tag, -, -, rfl⟩ := readTag_eq_ok_iff.mp h
  obtain ⟨m, hm⟩ := exists_terminator_eq d s
  exact ⟨inside ++ m, by simp [hm]⟩

/-- A tag is read as before when more text follows. -/
theorem readTag_append {d : Delimiters} {s : Text} {r : Reading} (h : readTag d s = .ok r)
    (more : Text) : readTag d (s ++ more) = .ok ⟨r.raw, r.tag?, r.rest ++ more⟩ := by
  obtain ⟨inside, rest, tag, hb, ht, rfl⟩ := readTag_eq_ok_iff.mp h
  have hs : s ≠ [] := by
    rw [Text.eq_append_of_breakOn hb]
    simp [inside_ne_nil ht]
  refine readTag_eq_ok_iff.mpr ⟨inside, rest ++ more, tag, ?_, ht, ?_⟩
  · rw [terminator_append d hs]
    exact Text.breakOn_append hb more
  · rw [terminator_append d hs]

/-- A tag in front of a certain rest is read as before without that rest. -/
theorem readTag_of_append {d : Delimiters} {s raw rest more : Text} {tag? : Option Tag}
    (h : readTag d (s ++ more) = .ok ⟨raw, tag?, rest ++ more⟩) :
    readTag d s = .ok ⟨raw, tag?, rest⟩ := by
  obtain ⟨inside, rest', tag, hb, ht, hr⟩ := readTag_eq_ok_iff.mp h
  obtain ⟨rfl, rfl, rfl⟩ := Reading.mk.inj hr
  have hs : s ≠ [] := by
    have hcut := Text.eq_append_of_breakOn hb
    rw [← List.append_assoc] at hcut
    rw [List.append_cancel_right hcut]
    simp [inside_ne_nil ht]
  rw [terminator_append d hs] at hb ⊢
  exact readTag_eq_ok_iff.mpr ⟨inside, rest, tag, Text.breakOn_of_append hb, ht, rfl⟩

end Token

namespace Segment

/-- From the start of a source some segments are read, and a rest is left that is to be read with
the delimiters then in force. -/
inductive Reads : Delimiters → Text → List Segment → Text → Prop
  | done {d : Delimiters} {s : Text} : Reads d s [] s
  | tag {d : Delimiters} {s text inside raw next rest : Text} {tag : Tag} {xs : List Segment}
      (hb : Text.breakOn d.opening s = some (text, inside))
      (ht : Token.readTag d inside = .ok ⟨raw, some tag, next⟩)
      (hr : Reads (tag.delimitersAfter d) next xs rest) : Reads d s (⟨text, raw, tag⟩ :: xs) rest

/-- A source is cut into the segments that are read of it if no tag is opened in the rest. -/
theorem cuts_iff_reads {d : Delimiters} {s last : Text} {xs : List Segment} :
    Cuts d s xs last ↔
      Reads d s xs last ∧ Text.breakOn (d.after (xs.map Segment.tag)).opening last = none := by
  constructor
  · intro h
    induction h with
    | last hb => exact ⟨.done, hb⟩
    | tag hb ht _ ih => exact ⟨.tag hb ht ih.1, ih.2⟩
  · rintro ⟨h, hlast⟩
    induction h with
    | done => exact .last hlast
    | tag hb ht _ ih => exact .tag hb ht (ih hlast)

namespace Reads

variable {d : Delimiters} {s rest : Text} {xs ys : List Segment}

lemma sourceOf_eq (h : Reads d s xs rest) : sourceOf xs rest = s := by
  induction h with
  | done => rfl
  | tag hb ht _ ih =>
    rw [sourceOf, ih, ← Token.eq_append_of_readTag ht, ← List.append_assoc]
    exact (Text.eq_append_of_breakOn hb).symm

/-- Reading leaves valid delimiters. -/
theorem valid (h : Reads d s xs rest) (hd : d.Valid) : (d.after (xs.map Segment.tag)).Valid := by
  induction h with
  | done => exact hd
  | tag _ ht _ ih => exact ih (Token.valid_of_readTag ht hd)

/-- What is read of a source and a cut of the rest are a cut of the source. -/
theorem trans_cuts {last : Text} (hx : Reads d s xs rest)
    (hy : Cuts (d.after (xs.map Segment.tag)) rest ys last) : Cuts d s (xs ++ ys) last := by
  induction hx with
  | done => exact hy
  | tag hb ht _ ih => exact .tag hb ht (ih hy)

lemma split {last : Text} (h : Reads d s (xs ++ ys) last) :
    Reads d s xs (sourceOf ys last) ∧
      Reads (d.after (xs.map Segment.tag)) (sourceOf ys last) ys last := by
  induction xs generalizing d s with
  | nil =>
    obtain rfl := h.sourceOf_eq
    exact ⟨.done, h⟩
  | cons x xs ih =>
    cases h with
    | tag hb ht hr =>
      obtain ⟨hx, hy⟩ := ih hr
      exact ⟨.tag hb ht hx, hy⟩

/-- The same segments are read when more text follows. -/
theorem append (h : Reads d s xs rest) (more : Text) : Reads d (s ++ more) xs (rest ++ more) := by
  induction h with
  | done => exact .done
  | tag hb ht _ ih => exact .tag (Text.breakOn_append hb more) (Token.readTag_append ht more) ih

/-- The same segments are read without some text at the end. -/
theorem of_append {more : Text} (h : Reads d s xs (rest ++ more)) :
    Reads d (sourceOf xs rest) xs rest := by
  induction xs generalizing d s with
  | nil => exact .done
  | cons x xs ih =>
    cases h with
    | @tag _ _ text inside raw next _ tag _ hb ht hr =>
      obtain ⟨u, hraw, rfl⟩ := Token.exists_of_readTag ht
      have hnext : next = sourceOf xs rest ++ more := by
        rw [← hr.sourceOf_eq, sourceOf_append_last]
      have hs : s = (text ++ (raw ++ sourceOf xs rest)) ++ more := by
        rw [Text.eq_append_of_breakOn hb, hnext, show raw = d.opening ++ u from hraw]
        simp
      rw [hnext, ← List.append_assoc] at hb ht
      rw [hs] at hb
      exact .tag (Text.breakOn_of_append hb) (Token.readTag_of_append ht) (ih hr)

/-- The tokens of what is read come first, and behind them the tokens of the rest. -/
theorem scan_eq (h : Reads d s xs rest) (p : Position) :
    Tokens.scan d p s =
      let after := Tokens.scan (d.after (xs.map Segment.tag)) (p.advance (sourceOf xs [])) rest
      ⟨tokens p xs [] ++ after.tokens, after.fault?⟩ := by
  induction h generalizing p with
  | done => simp [tokens, textToken]
  | tag hb ht _ ih =>
    rw [Tokens.scan_tag hb ht, ih]
    simp [tokens]

/-- A tag that is read begins and ends with the delimiters in force there. -/
theorem exists_raw_eq {x : Segment} (h : Reads d s (x :: xs) rest) :
    ∃ inside, x.raw = d.opening ++ inside ++ d.closing := by
  cases h with
  | tag hb ht _ => exact Token.exists_raw_eq_of_readTag ht

end Reads
end Segment
end Mustache
