import Mustache.Proofs.Site

/-! Elision: what a source loses to its tags. A tag takes itself out, one that stands alone its
whole lines, and the plain texts of a template are what is left. -/
namespace Mustache

open Layout

namespace Text

/-- A text that neither begins nor ends with white space. -/
structure Solid (s : Text) : Prop where
  first : ∃ c t, s = c :: t ∧ isAsciiSpace c = false
  last : ∃ t c, s = t ++ [c] ∧ isAsciiSpace c = false

lemma Solid.of_append {s t : Text} (m : Text) (hs : s.Solid) (ht : t.Solid) :
    Solid (s ++ m ++ t) := by
  obtain ⟨c, s', rfl, hc⟩ := hs.first
  obtain ⟨t', c', rfl, hc'⟩ := ht.last
  exact ⟨⟨c, s' ++ m ++ (t' ++ [c']), by simp, hc⟩, ⟨c :: s' ++ m ++ t', c', by simp, hc'⟩⟩

/-- Behind the start of a text or a character that is no white space, a blank last line begins in
the text that follows. -/
theorem lastLine_append_of_blank {s t : Text}
    (hs : s = [] ∨ ∃ u c, s = u ++ [c] ∧ isAsciiSpace c = false) (hb : Blank (lastLine (s ++ t))) :
    lastLine (s ++ t) = lastLine t := by
  by_cases ht : '\n' ∈ t
  · obtain ⟨a, b, rfl⟩ := List.append_of_mem ht
    rw [← List.append_assoc, lastLine_append_newline, lastLine_append_newline]
  · rcases hs with rfl | ⟨u, c, rfl, hc⟩
    · rfl
    · have hn : c ≠ '\n' := by rintro rfl; simp [isAsciiSpace] at hc
      rw [lastLine_append_of_notMem _ ht, lastLine_append_singleton, if_neg hn] at hb
      have := isAsciiSpace_of_isBlank (hb c (by simp))
      simp [hc] at this

/-- In front of a character that is no white space, a blank first line ends with a newline. -/
theorem blankLine?_append {s rest : Text} {c : Char} {k : Nat} (hc : isAsciiSpace c = false)
    (h : blankLine? (s ++ c :: rest) = some k) :
    blankLine? s = some k ∧ ∃ u v, s = u ++ '\n' :: v ∧ k = u.length + 1 := by
  obtain ⟨blanks, ending, rest', hs, hb, rfl, hending⟩ := blankLine?_eq_some_iff.mp h
  have hnot : c ∉ blanks ++ ending := by
    intro hm
    rcases List.mem_append.mp hm with hm | hm
    · simp [isAsciiSpace_of_isBlank (hb c hm)] at hc
    · rcases hending with rfl | rfl | ⟨rfl, -⟩
      · simp_all [isAsciiSpace]
      · rcases (by simpa using hm : c = '\r' ∨ c = '\n') with rfl | rfl <;>
          simp [isAsciiSpace] at hc
      · simp at hm
  rw [← List.append_assoc] at hs
  -- the line cannot reach the character, so it lies in the text in front
  obtain ⟨v, rfl, hrest⟩ : ∃ v, s = blanks ++ ending ++ v ∧ rest' = v ++ c :: rest := by
    rcases List.append_eq_append_iff.mp hs with ⟨a, ha, hr⟩ | ⟨a, ha, hr⟩
    · cases a with
      | nil => exact ⟨[], by simpa using ha.symm, by simpa using hr.symm⟩
      | cons c' a =>
        obtain ⟨rfl, -⟩ := by simpa using hr
        exact absurd (ha ▸ by simp) hnot
    · exact ⟨a, ha, hr⟩
  obtain ⟨e, rfl⟩ : ∃ e, ending = e ++ ['\n'] := by
    rcases hending with rfl | rfl | ⟨-, rfl⟩
    · exact ⟨[], rfl⟩
    · exact ⟨['\r'], rfl⟩
    · simp at hrest
  refine ⟨blankLine?_eq_some_iff.mpr ⟨blanks, _, v, by simp, hb, rfl, ?_⟩, blanks ++ e, v,
    by simp, by simp; omega⟩
  rcases hending with he | he | ⟨he, -⟩
  · exact .inl he
  · exact .inr (.inl he)
  · simp at he

/-- Blanks at the end of a text are all that stands on its last line, if that is blank. -/
theorem dropEndWhile_append_lastLine {s : Text} (h : Blank (lastLine s)) :
    dropEndWhile isBlank s ++ lastLine s = s := by
  obtain ⟨u, hs, hu⟩ := exists_eq_append_lastLine s
  have hdrop : dropEndWhile isBlank s = u := by
    rw [hs, dropEndWhile, List.reverse_append,
      List.dropWhile_append_of_pos fun c hc => h c (List.mem_reverse.mp hc)]
    rcases hu with rfl | ⟨v, rfl⟩
    · rfl
    · simp [isBlank]
  rw [hdrop, ← hs]

end Text

namespace Delimiters

lemma IsMark.solid {m : Text} (h : IsMark m) : m.Solid := by
  obtain ⟨hne, hc⟩ := h
  refine ⟨?_, ?_⟩
  · obtain ⟨c, t, rfl⟩ := List.exists_cons_of_ne_nil hne
    exact ⟨c, t, rfl, (hc c (by simp)).1⟩
  · exact ⟨m.dropLast, m.getLast hne, (List.dropLast_append_getLast hne).symm,
      (hc _ (List.getLast_mem hne)).1⟩

end Delimiters

namespace Token

/-- A tag begins and ends with its delimiters. -/
theorem solid_of_readTag {d : Delimiters} {s raw rest : Text} {tag : Tag} (hd : d.Valid)
    (h : readTag d s = .ok ⟨raw, some tag, rest⟩) : raw.Solid := by
  obtain ⟨inside, rest', tag', -, -, hr⟩ := readTag_eq_ok_iff.mp h
  obtain ⟨rfl, -, -⟩ := by simpa using hr
  obtain ⟨m, hm⟩ := exists_terminator_eq d s
  have := hd.opening.solid.of_append (inside ++ m) hd.closing.solid
  simpa [hm] using this

end Token

lemma Segment.Cuts.solid {d : Delimiters} {s last : Text} {xs : List Segment}
    (h : Cuts d s xs last) (hd : d.Valid) : ∀ x ∈ xs, Text.Solid x.raw := by
  induction h with
  | last => simp
  | tag hb ht hr ih =>
    intro x hx
    rcases List.mem_cons.mp hx with rfl | hx
    · exact Token.solid_of_readTag hd ht
    · exact ih (Token.valid_of_readTag ht hd) x hx

namespace Layout

/-- What is kept of text is what a tag that stands alone in front of it leaves, and of that all but
the blanks in front of a tag that stands alone. -/
theorem keep_append_lastLine {afterLone beforeLone : Bool} {s : Text}
    (hb : beforeLone = true → Text.Blank (Text.lastLine (s.drop (lineEnd afterLone s)))) :
    keep afterLone beforeLone s ++
        (if beforeLone then Text.lastLine (s.drop (lineEnd afterLone s)) else []) =
      s.drop (lineEnd afterLone s) := by
  rw [keep]
  cases beforeLone with
  | false => simp
  | true => exact Text.dropEndWhile_append_lastLine (hb rfl)

/-- What a tag that stands alone takes behind it does not reach the next tag, and stops at the
start of a line. -/
theorem lineEnd_append {afterLone : Bool} {s rest : Text} {c : Char}
    (hc : Text.isAsciiSpace c = false)
    (ha : afterLone = true → (Text.blankLine? (s ++ c :: rest)).isSome) :
    lineEnd afterLone (s ++ c :: rest) = lineEnd afterLone s ∧
      lineEnd afterLone s ≤ s.length ∧
      Text.lastLine (s.drop (lineEnd afterLone s)) = Text.lastLine s := by
  cases afterLone with
  | false => exact ⟨rfl, by simp [lineEnd], by simp [lineEnd]⟩
  | true =>
    obtain ⟨k, hk⟩ := Option.isSome_iff_exists.mp (ha rfl)
    obtain ⟨hs, u, v, rfl, rfl⟩ := Text.blankLine?_append hc hk
    have hend : lineEnd true (u ++ '\n' :: v) = u.length + 1 := by simp [lineEnd, hs]
    have hdrop : (u ++ '\n' :: v).drop (u.length + 1) = v := by simp
    refine ⟨?_, by rw [hend]; simp, ?_⟩
    · rw [hend, lineEnd, if_pos rfl, hk]
      rfl
    · rw [hend, hdrop, Text.lastLine_append_newline]

lemma lineEnd_le_length (afterLone : Bool) (s : Text) : lineEnd afterLone s ≤ s.length := by
  cases afterLone with
  | false => exact Nat.zero_le _
  | true =>
    cases h : Text.blankLine? s with
    | none => simp [lineEnd, h]
    | some k =>
      obtain ⟨blanks, ending, rest, rfl, -, rfl, -⟩ := Text.blankLine?_eq_some_iff.mp h
      simp [lineEnd, h]

end Layout

/-- Between two tags, what the first one takes behind it, what is kept, and what the second one
takes in front of it are all the text. -/
theorem Site.keep_append_indent {before text raw rest : Text} {tag : Tag} {afterLone : Bool}
    (hraw : raw.Solid)
    (hb : before = [] ∨ ∃ u c, before = u ++ [c] ∧ Text.isAsciiSpace c = false)
    (ha : afterLone = true → (Text.blankLine? (text ++ (raw ++ rest))).isSome) :
    let site : Site := ⟨before ++ text, raw, tag, rest⟩
    let k := lineEnd afterLone (text ++ (raw ++ rest))
    k ≤ text.length ∧
      keep afterLone (decide site.Alone) text ++ site.indent = text.drop k := by
  obtain ⟨c, m, rfl, hc⟩ := hraw.first
  rw [List.cons_append] at ha ⊢
  obtain ⟨hk, hle, hlast⟩ := lineEnd_append hc ha
  intro site k
  have hlead (hs : site.Alone) : site.lead =
      Text.lastLine (text.drop (lineEnd afterLone text)) := by
    rw [hlast]
    exact Text.lastLine_append_of_blank hb hs.2.1
  have hindent : (if decide site.Alone then Text.lastLine (text.drop (lineEnd afterLone text))
      else []) = site.indent := by
    rw [Site.indent_eq]
    by_cases hs : site.Alone <;> simp [hs, hlead]
  refine ⟨hk.trans_le hle, ?_⟩
  rw [show k = lineEnd afterLone text from hk, ← hindent]
  apply keep_append_lastLine
  intro h
  have hs : site.Alone := of_decide_eq_true h
  exact hlead hs ▸ hs.2.1

/-- What is taken out for a tag begins behind what is kept of the text in front of it. -/
theorem Site.extent_eq (site : Site) {before text kept : Text} {k : Nat}
    (hbefore : site.before = before ++ text) (hle : k ≤ text.length)
    (hkept : kept ++ site.indent = text.drop k) :
    site.extent = ⟨before.length + k + kept.length,
      (site.before ++ site.raw).length + lineEnd (decide site.Alone) site.after⟩ := by
  have hlength := congrArg List.length hkept
  rw [List.length_append, List.length_drop] at hlength
  have hstart : site.before.length - site.indent.length = before.length + k + kept.length := by
    rw [hbefore, List.length_append]
    omega
  rw [Site.extent, hstart, List.length_append]

namespace Segment

/-- A source is by turns what is kept of it and what is taken out for its tags. -/
theorem exists_pieces {xs : List Segment} {last : Text} (hx : ∀ x ∈ xs, Text.Solid x.raw)
    (before : Text) (afterLone : Bool)
    (hb : before = [] ∨ ∃ u c, before = u ++ [c] ∧ Text.isAsciiSpace c = false)
    (ha : afterLone = true → (Text.blankLine? (sourceOf xs last)).isSome) :
    let placed := place (Lead.advance (some []) before) afterLone xs last
    let k := lineEnd afterLone (sourceOf xs last)
    ∃ pieces, (sourceOf xs last).drop k =
        Extent.join pieces ++ keep (Placed.afterLast afterLone placed) false last ∧
      pieces.map Prod.fst = placed.map Placed.kept ∧
      Extent.gaps (before.length + k) pieces = (sites before xs last).map Site.extent := by
  induction xs generalizing before afterLone with
  | nil =>
    exact ⟨[], rfl, rfl, rfl⟩
  | cons x xs ih =>
    let site : Site := ⟨before ++ x.text, x.raw, x.tag, sourceOf xs last⟩
    let lone := decide site.Alone
    let k := lineEnd afterLone (sourceOf (x :: xs) last)
    let kept := keep afterLone lone x.text
    obtain ⟨hle, hkept⟩ : k ≤ x.text.length ∧ kept ++ site.indent = x.text.drop k :=
      Site.keep_append_indent (hx x (by simp)) hb ha
    have hextent := Site.extent_eq site rfl hle hkept
    -- what the tag takes behind it belongs to the segments behind
    let k' := lineEnd lone (sourceOf xs last)
    let gone := site.indent ++ (x.raw ++ (sourceOf xs last).take k')
    have hk' : ((sourceOf xs last).take k').length = k' := by
      rw [List.length_take, Nat.min_eq_left (lineEnd_le_length _ _)]
    obtain ⟨t, c, ht, hc⟩ := (hx x (by simp)).last
    obtain ⟨pieces, hrest, hmap, hgaps⟩ := ih (fun y hy => hx y (by simp [hy]))
      (before ++ x.text ++ x.raw) lone (.inr ⟨before ++ x.text ++ t, c, by simp [ht], hc⟩)
      (fun h => (of_decide_eq_true h).2.2)
    have hplace := place_cons (rfl : site = _) afterLone
    refine ⟨(kept, gone) :: pieces, ?_, ?_, ?_⟩
    · calc (sourceOf (x :: xs) last).drop k
          = x.text.drop k ++ (x.raw ++ ((sourceOf xs last).take k' ++
            (sourceOf xs last).drop k')) := by
            rw [List.take_append_drop, sourceOf, List.drop_append_of_le_length hle]
        _ = _ := by
            rw [hplace, hrest, ← hkept]
            simp [Extent.join, Placed.afterLast, gone, lone]
    · rw [hplace, List.map_cons, List.map_cons, hmap, Placed.kept, Site.alone?_isSome]
    · have hstop : (before ++ x.text ++ x.raw).length + k' =
          before.length + k + kept.length + gone.length := by
        have hlength := congrArg List.length hkept
        simp only [List.length_append, List.length_drop] at hlength
        simp only [gone, List.length_append, hk']
        omega
      rw [Extent.gaps, sites, List.map_cons, ← hgaps, hextent, hstop]

end Segment

/-- What is left of a source when every tag is taken out, one that stands alone with its lines, are
the plain texts of its parts. -/
theorem Part.literals_flatten_eq_without {d : Delimiters} (hd : d.Valid) {source : Text}
    {parts : List Part} (h : Part.ofSource d source = .ok parts) :
    let sites := Site.ofSource d source
    (∀ x ∈ sites, x.before ++ (x.raw ++ x.after) = source) ∧
      (literals parts).flatten = Text.without (sites.map Site.extent) source ∧
      (sites.map Site.extent).Pairwise (fun r r' => r.stop ≤ r'.start) ∧
      [] ∉ literals parts ∧
      inclusions parts = sites.filterMap Site.inclusion? := by
  obtain ⟨xs, last, ps, d', hc, hn, hparts⟩ := (Part.ofSource_eq_ok_iff hd).mp h
  obtain ⟨pieces, hjoin, hmap, hgaps⟩ :=
    @Segment.exists_pieces xs last (hc.solid hd) [] false (.inl rfl) (by simp)
  have hsites : (Site.ofSource d source).map Site.extent = Extent.gaps 0 pieces := by
    rw [hc.ofSource_eq, ← hgaps]
    rfl
  have hliterals : literals parts =
      ((Segment.placed xs last).map Placed.kept ++ [Segment.keptLast xs last]).filter (· ≠ []) := by
    rw [hparts, literals_append, hn.literals_eq, Placed.literals_literal, List.filter_append]
  refine ⟨?_, ?_, ?_, ?_, ?_⟩
  · intro x hx
    rw [hc.ofSource_eq] at hx
    rw [Segment.source_of_mem_sites hx, hc.sourceOf_eq, List.nil_append]
  · have hsource : source = Extent.join pieces ++ Segment.keptLast xs last := by
      rw [← hc.sourceOf_eq]
      exact hjoin
    rw [hliterals, List.flatten_filter_ne_nil, hsites, Text.without, hsource,
      Text.withoutFrom_gaps, hmap]
    rw [List.flatten_append, List.flatten_singleton]
    rfl
  · rw [hsites]
    exact Extent.gaps_pairwise 0 pieces
  · rw [hliterals]
    simp
  · exact inclusions_ofSource hd h

/-- An inclusion that takes its line with it, in front of a value that leaves its own. -/
theorem Part.literals_flatten_eq_without_inclusion :
    let source : Text := [' ', '{', '{', '>', 'p', '}', '}', '\n', '-', '{', '{', 'y', '}', '}']
    Part.ofSource .braces source =
        .ok [.inclusion ['p'] [' '], .literal ['-'], .value ['y'] true] ∧
      Text.without ((Site.ofSource .braces source).map Site.extent) source = ['-'] ∧
      (Site.ofSource .braces source).filterMap Site.inclusion? = [(['p'], [' '])] := by
  have h : Part.ofSource .braces
      [' ', '{', '{', '>', 'p', '}', '}', '\n', '-', '{', '{', 'y', '}', '}'] =
      .ok [.inclusion ['p'] [' '], .literal ['-'], .value ['y'] true] := by
    decide +kernel
  obtain ⟨-, hleft, -, -, hinclusions⟩ :=
    Part.literals_flatten_eq_without Delimiters.braces_valid h
  exact ⟨h, hleft.symm, hinclusions.symm⟩

end Mustache
