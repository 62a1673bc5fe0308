import Mustache.Proofs.Delimiters

/-! Segments: a source cut at its tags, each with the plain text in front of it. Reading a source
to its end and cutting it into segments are the same. -/
namespace Mustache

/-- A tag and the plain text in front of it, since the tag before. -/
structure Segment where
  text : Text
  raw : Text
  tag : Tag
  deriving DecidableEq, Repr

namespace Segment

/-- The source that segments cut, given the text behind the last one. -/
def sourceOf : List Segment → Text → Text
  | [], last => last
  | x :: xs, last => x.text ++ (x.raw ++ sourceOf xs last)

/-- A cut is right when each text ends where the delimiters in force first open a tag, and the
last text opens none. -/
inductive Cuts : Delimiters → Text → List Segment → Text → Prop
  | last {d : Delimiters} {s : Text} (h : Text.breakOn d.opening s = none) : Cuts d s [] s
  | tag {d : Delimiters} {s text inside raw rest last : Text} {tag : Tag} {xs : List Segment}
      (hb : Text.breakOn d.opening s = some (text, inside))
      (ht : Token.readTag d inside = .ok ⟨raw, some tag, rest⟩)
      (hr : Cuts (tag.delimitersAfter d) rest xs last) : Cuts d s (⟨text, raw, tag⟩ :: xs) last

@[simp] lemma sourceOf_nil (last : Text) : sourceOf [] last = last := rfl

@[simp] lemma sourceOf_cons (x : Segment) (xs : List Segment) (last : Text) :
    sourceOf (x :: xs) last = x.text ++ (x.raw ++ sourceOf xs last) := rfl

lemma sourceOf_append (xs ys : List Segment) (last : Text) :
    sourceOf (xs ++ ys) last = sourceOf xs [] ++ sourceOf ys last := by
  induction xs with
  | nil => rfl
  | cons x xs ih => simp [sourceOf, ih, List.append_assoc]

lemma sourceOf_append_last (xs : List Segment) (last more : Text) :
    sourceOf xs (last ++ more) = sourceOf xs last ++ more := by
  induction xs with
  | nil => rfl
  | cons x xs ih => simp [sourceOf, ih, List.append_assoc]

lemma sourceOf_eq_append (xs : List Segment) (last : Text) :
    sourceOf xs last = sourceOf xs [] ++ last :=
  sourceOf_append_last xs [] last

/-- The source of segments is the source of the first of them, with that of the others behind. -/
theorem sourceOf_append_eq_sourceOf (xs ys : List Segment) (last : Text) :
    sourceOf (xs ++ ys) last = sourceOf xs (sourceOf ys last) := by
  rw [sourceOf_append, ← sourceOf_eq_append]

/-- A segment whose source is put through a function. -/
def mapSource (f : Text → Text) (x : Segment) : Segment :=
  ⟨f x.text, f x.raw, x.tag⟩

lemma sourceOf_map {f : Text → Text} (hf : ∀ s t, f (s ++ t) = f s ++ f t) (xs : List Segment)
    (last : Text) : sourceOf (xs.map (mapSource f)) (f last) = f (sourceOf xs last) := by
  induction xs with
  | nil => rfl
  | cons x xs ih => simp [sourceOf, mapSource, ih, hf]

/-- A stretch of plain text as a token, if there is any. -/
def textToken (p : Position) (s : Text) : List Token :=
  if s = [] then [] else [⟨p, s, none⟩]

/-- The tokens of a source that is cut into segments. -/
def tokens (p : Position) : List Segment → Text → List Token
  | [], last => textToken p last
  | x :: xs, last =>
    textToken p x.text ++
      ⟨p.advance x.text, x.raw, some x.tag⟩ :: tokens ((p.advance x.text).advance x.raw) xs last

end Segment

namespace Token

/-- When a tag can be read, and as what. -/
theorem readTag_eq_ok_iff {d : Delimiters} {s : Text} {r : Reading} :
    readTag d s = .ok r ↔
      ∃ inside rest tag, Text.breakOn (terminator d s) s = some (inside, rest) ∧
        Tag.ofText (Text.trim inside) = .ok tag ∧
        r = ⟨d.opening ++ inside ++ terminator d s, some tag, rest⟩ := by
  unfold readTag
  split
  · rename_i hs
    subst hs
    simp only [reduceCtorEq, false_iff, not_exists, not_and]
    intro inside rest tag hb ht
    obtain ⟨rfl, -, -⟩ := by simpa using Text.eq_append_of_breakOn hb
    simp [Text.trim, Text.dropEndWhile, Tag.ofText] at ht
  · split
    · rename_i hb
      simp [hb]
    · rename_i inside rest hb
      split
      · rename_i ht
        simp [hb, ht]
      · rename_i tag ht
        simp only [Except.ok.injEq, hb, Option.some.injEq, Prod.mk.injEq]
        constructor
        · rintro rfl
          exact ⟨inside, rest, tag, ⟨rfl, rfl⟩, ht, rfl⟩
        · rintro ⟨inside, rest, tag, ⟨rfl, rfl⟩, ht', rfl⟩
          simp_all

lemma exists_terminator_eq (d : Delimiters) (s : Text) :
    ∃ m, terminator d s = m ++ d.closing := by
  unfold terminator
  split
  · exact ⟨['}'], rfl⟩
  · exact ⟨['='], rfl⟩
  · exact ⟨[], rfl⟩

/-- A tag that can be read leaves valid delimiters behind it. -/
theorem valid_of_readTag {d : Delimiters} {s raw rest : Text} {tag : Tag}
    (h : readTag d s = .ok ⟨raw, some tag, rest⟩) (hd : d.Valid) :
    (tag.delimitersAfter d).Valid := by
  obtain ⟨inside, rest', tag', -, ht, hr⟩ := readTag_eq_ok_iff.mp h
  obtain ⟨-, rfl, -⟩ := by simpa using hr
  exact Tag.valid_delimitersAfter ht hd

lemma read_opening (d : Delimiters) (s : Text) : read d (d.opening ++ s) = readTag d s := by
  simp [read]

/-- Plain text is read up to the next tag. -/
theorem read_text {d : Delimiters} {s text inside : Text} (hne : text ≠ [])
    (hb : Text.breakOn d.opening s = some (text, inside)) :
    read d s = .ok ⟨text, none, d.opening ++ inside⟩ := by
  obtain ⟨c, text, rfl⟩ := List.exists_cons_of_ne_nil hne
  have hs := Text.eq_append_of_breakOn hb
  rw [read, Text.dropPrefix?_eq_none_of_breakOn hb]
  simp only [Text.before, hb]
  rw [hs, List.append_assoc, List.drop_left]

/-- Without a tag, everything is plain text. -/
theorem read_last {d : Delimiters} {s : Text} (hb : Text.breakOn d.opening s = none) :
    read d s = .ok ⟨s, none, []⟩ := by
  rw [read, Text.dropPrefix?_eq_none_of_breakOn_eq_none hb]
  simp [Text.before, hb]

end Token

namespace Tokens

lemma scan_of_read {d : Delimiters} {p : Position} {s : Text} {r : Token.Reading} (hs : s ≠ [])
    (hr : Token.read d s = .ok r) :
    scan d p s =
      let after := scan (r.tag?.elim d (Tag.delimitersAfter d)) (p.advance r.raw) r.rest
      ⟨⟨p, r.raw, r.tag?⟩ :: after.tokens, after.fault?⟩ := by
  rw [scan]
  simp only [hs, ↓reduceDIte]
  split
  · simp_all
  · simp_all

/-- A tag in front of some text is one token. -/
theorem scan_of_readTag {d : Delimiters} {s raw rest : Text} {tag : Tag}
    (ht : Token.readTag d s = .ok ⟨raw, some tag, rest⟩) (p : Position) :
    scan d p (d.opening ++ s) =
      let after := scan (tag.delimitersAfter d) (p.advance raw) rest
      ⟨⟨p, raw, some tag⟩ :: after.tokens, after.fault?⟩ := by
  have hne : d.opening ++ s ≠ [] := by
    intro hn
    obtain ⟨-, rfl⟩ := by simpa using hn
    simp [Token.readTag] at ht
  exact scan_of_read hne ((Token.read_opening d s).trans ht)

/-- A tag in front of some text that cannot be read ends the reading. -/
theorem scan_of_readTag_error {d : Delimiters} (hd : d.Valid) {s : Text} {fault : TagFault}
    (ht : Token.readTag d s = .error fault) (p : Position) :
    scan d p (d.opening ++ s) = ⟨[], some (p, fault)⟩ := by
  have hne : d.opening ++ s ≠ [] := by
    intro hn
    exact hd.opening.1 (List.append_eq_nil_iff.mp hn).1
  rw [scan]
  simp only [hne, ↓reduceDIte]
  split <;> simp_all [Token.read_opening]

/-- Up to its first tag a source is read as plain text, and behind the tag with the delimiters that
are in force there. -/
theorem scan_tag {d : Delimiters} {s text inside raw rest : Text} {tag : Tag}
    (hb : Text.breakOn d.opening s = some (text, inside))
    (ht : Token.readTag d inside = .ok ⟨raw, some tag, rest⟩) (p : Position) :
    scan d p s =
      let after := scan (tag.delimitersAfter d) ((p.advance text).advance raw) rest
      ⟨Segment.textToken p text ++ ⟨p.advance text, raw, some tag⟩ :: after.tokens,
        after.fault?⟩ := by
  have hopen := scan_of_readTag ht
  by_cases htext : text = []
  · subst htext
    obtain rfl : s = d.opening ++ inside := by simpa using Text.eq_append_of_breakOn hb
    rw [hopen]
    simp [Segment.textToken]
  · have hs : s ≠ [] := by
      rintro rfl
      simp [Text.breakOn] at hb
      simp_all
    rw [scan_of_read hs (Token.read_text htext hb)]
    simp [hopen, Segment.textToken, htext]

/-- A source whose first tag cannot be read is read up to there. -/
theorem scan_of_readTag_eq_error {d : Delimiters} (hd : d.Valid) {s text inside : Text}
    {fault : TagFault} (hb : Text.breakOn d.opening s = some (text, inside))
    (ht : Token.readTag d inside = .error fault) (p : Position) :
    scan d p s = ⟨Segment.textToken p text, some (p.advance text, fault)⟩ := by
  have hopen := scan_of_readTag_error hd ht
  by_cases htext : text = []
  · subst htext
    obtain rfl : s = d.opening ++ inside := by simpa using Text.eq_append_of_breakOn hb
    rw [hopen]
    rfl
  · have hs : s ≠ [] := by
      rintro rfl
      simp [Text.breakOn, hd.opening.1] at hb
    rw [scan_of_read hs (Token.read_text htext hb)]
    simp [hopen, Segment.textToken, htext]

/-- A source that is cut into segments is read to its end, token by token. -/
theorem scan_of_cuts {d : Delimiters} {s last : Text} {xs : List Segment}
    (h : Segment.Cuts d s xs last) (p : Position) :
    scan d p s = ⟨Segment.tokens p xs last, none⟩ := by
  induction h generalizing p with
  | @last d s hb =>
    by_cases hs : s = []
    · simp [hs, Segment.tokens, Segment.textToken]
    · rw [scan_of_read hs (Token.read_last hb)]
      simp [Segment.tokens, Segment.textToken, hs]
  | tag hb ht hr ih =>
    rw [scan_tag hb ht, ih]
    rfl

/-- A source that is read to its end can be cut into segments. -/
theorem exists_cuts_of_scan {d : Delimiters} {p : Position} {s : Text} (hd : d.Valid)
    (h : (scan d p s).fault? = none) : ∃ xs last, Segment.Cuts d s xs last := by
  fun_induction scan d p s with
  | case1 d p =>
    refine ⟨[], [], .last ?_⟩
    simp [Text.breakOn, hd.opening.1]
  | case2 => simp at h
  | case3 d p s hs r hr after ih =>
    cases hb : Text.breakOn d.opening s with
    | none => exact ⟨[], s, .last hb⟩
    | some cut =>
      obtain ⟨text, inside⟩ := cut
      by_cases htext : text = []
      · subst htext
        obtain rfl : s = d.opening ++ inside := by simpa using Text.eq_append_of_breakOn hb
        rw [Token.read_opening] at hr
        obtain ⟨inside', rest, tag, -, -, rfl⟩ := Token.readTag_eq_ok_iff.mp hr
        obtain ⟨xs, last, hx⟩ := ih (Token.valid_of_readTag hr hd) h
        exact ⟨_, last, .tag hb hr hx⟩
      · rw [Token.read_text htext hb] at hr
        obtain rfl := by simpa using hr
        obtain ⟨xs, last, hx⟩ := ih hd h
        cases hx with
        | last hb' => simp at hb'
        | tag hb' ht' hr' =>
          obtain ⟨rfl, rfl⟩ := by simpa using hb'
          exact ⟨_, last, .tag hb ht' hr'⟩

end Tokens

namespace Segment

/-- Nothing of a source is lost when it is cut. -/
theorem Cuts.sourceOf_eq {d : Delimiters} {s last : Text} {xs : List Segment}
    (h : Cuts d s xs last) : sourceOf xs last = s := by
  induction h with
  | last => rfl
  | tag hb ht hr ih =>
    have hraw := Token.eq_append_of_readTag ht
    rw [sourceOf, ih, ← hraw, ← List.append_assoc]
    exact (Text.eq_append_of_breakOn hb).symm

end Segment
end Mustache
