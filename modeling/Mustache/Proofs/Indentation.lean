import Mustache.Proofs.IndentedSegment
import Mustache.Proofs.Site

/-! Indented templates. Blanks in front of every line of a source change neither its tags nor how
they nest nor which of them stand alone, and add up in front of its inclusions. -/
namespace Mustache

open Text Layout

variable {indent : Text}

namespace Layout

lemma Lead.advance_blank (hi : Blank indent) (lead : Lead) :
    lead.advance indent = lead.map (indent.reverse ++ ·) := by
  induction indent generalizing lead with
  | nil => cases lead <;> rfl
  | cons c s ih =>
    have hc : isBlank c = true := hi c (by simp)
    have hn : c ≠ '\n' := by rintro rfl; simp at hc
    have hs : Blank s := fun a ha => hi a (by simp [ha])
    rw [← List.singleton_append, Lead.advance_append, ih hs]
    cases lead <;> simp [Lead.advance, Lead.next, hn, hc]

/-- The line in front of a tag has the indent in front, and is blank if it was. -/
theorem Lead.advance_indentAfter (hi : Blank indent) (lead : Lead) (s : Text) :
    Lead.advance (lead.map (· ++ indent.reverse)) (indentAfter indent s) =
      (lead.advance s).map (· ++ indent.reverse) := by
  induction s generalizing lead with
  | nil => rfl
  | cons c s ih =>
    have hc : Lead.advance (lead.map (· ++ indent.reverse))
        (if c = '\n' then c :: indent else [c]) =
        (lead.next c).map (· ++ indent.reverse) := by
      by_cases hn : c = '\n'
      · rw [if_pos hn, ← List.singleton_append, Lead.advance_append, Lead.advance_blank hi]
        simp [Lead.advance, Lead.next, hn]
      · by_cases hb : isBlank c = true <;> cases lead <;> simp [Lead.advance, Lead.next, hn, hb]
    rw [indentAfter_cons, Lead.advance_append, hc, ih]
    rfl

/-- A line ends where it did. -/
theorem blankLine?_indentWithin (indent s : Text) :
    blankLine? (indentWithin indent s) = blankLine? s := by
  induction s with
  | nil => rfl
  | cons c s ih =>
    by_cases hn : c = '\n'
    · subst hn
      rw [indentWithin, blankLine?_cons_of_not_isBlank isBlank_newline,
        blankLine?_cons_of_not_isBlank isBlank_newline, if_pos rfl, if_pos rfl]
    · rw [indentWithin_cons_of_ne hn]
      cases hc : isBlank c with
      | true => rw [blankLine?_cons_of_isBlank hc, blankLine?_cons_of_isBlank hc, ih]
      | false =>
        rw [blankLine?_cons_of_not_isBlank hc, blankLine?_cons_of_not_isBlank hc]
        cases s <;> rfl

lemma standsAlone?_indentWithin (indent : Text) (lead : Lead) (tag : Tag) (rest : Text) :
    standsAlone? (lead.map (· ++ indent.reverse)) tag (indentWithin indent rest) =
      (standsAlone? lead tag rest).map (indent ++ ·) := by
  rw [standsAlone?, standsAlone?, blankLine?_indentWithin]
  split
  · cases lead <;> simp
  · rfl

end Layout

namespace Placed

/-- A placed segment of an indented source. -/
def indented (indent : Text) (x : Placed) : Placed :=
  ⟨x.toSegment.indented indent, x.afterLone, x.alone?.map (indent ++ ·)⟩

/-- Puts a text in front of the first segment. -/
def prefixed (s : Text) : List Placed → List Placed
  | [] => []
  | x :: xs => { x with text := s ++ x.text } :: xs

end Placed

namespace Segment

/-- The segments of an indented source stand alone where they did, with the indent in front. -/
theorem Cuts.place_indented (hi : Blank indent) {d : Delimiters} (hd : d.Valid) {s last : Text}
    {xs : List Segment} (h : Cuts d s xs last) (lead : Lead) (afterLone : Bool) :
    place (lead.map (· ++ indent.reverse)) afterLone (xs.map (indented indent))
        (Text.indentWithin indent last) =
      (place lead afterLone xs last).map (Placed.indented indent) := by
  induction h generalizing lead afterLone with
  | last => rfl
  | @tag d s text inside raw rest last tag xs hb ht hr ih =>
    have hd' := Token.valid_of_readTag ht hd
    rw [List.map_cons, place, place, (hr.indentWithin hi hd').sourceOf_eq, hr.sourceOf_eq]
    simp only [indented, Lead.advance_indentAfter hi, standsAlone?_indentWithin, Option.isSome_map,
      ih hd', List.map_cons]
    rfl

/-- A text in front of segments is in front of the first of them. -/
theorem place_prefixed (s : Text) (lead : Lead) (afterLone : Bool) (xs : List Segment)
    (last : Text) :
    place lead afterLone (prefixed s xs) (prefixedLast s last xs) =
      Placed.prefixed s (place (lead.advance s) afterLone xs last) := by
  cases xs with
  | nil => rfl
  | cons x xs =>
    rw [prefixed, place, place, Lead.advance_append]
    rfl

end Segment

namespace Part

mutual

/-- A part without what depends on its line, and with its source put through a function. -/
def outlinePart (f : Text → Text) : Part → List Part
  | .literal _ => []
  | .value path escaped => [.value path escaped]
  | .block inverted path source d children =>
    [.block inverted path (f source) d (outline f children)]
  | .inclusion name _ => [.inclusion name []]
  | .switch d => [.switch d]

/-- Parts without plain text and indents: variables, blocks, inclusions and delimiters, in their
order and as they nest. -/
def outline (f : Text → Text) : List Part → List Part
  | [] => []
  | part :: parts => outlinePart f part ++ outline f parts

end

lemma outline_append (f : Text → Text) (ps qs : List Part) :
    outline f (ps ++ qs) = outline f ps ++ outline f qs := by
  induction ps with
  | nil => rfl
  | cons p ps ih => simp [outline, ih]

@[simp] lemma outline_literal (f : Text → Text) (s : Text) :
    outline f (Placed.literal s) = [] := by
  unfold Placed.literal
  split <;> rfl

@[simp] lemma outline_block_cons (f : Text → Text) (inverted : Bool) (path source : Text)
    (d : Delimiters) (children ps : List Part) :
    outline f (.block inverted path source d children :: ps) =
      .block inverted path (f source) d (outline f children) :: outline f ps :=
  rfl

end Part

namespace Placed

open Mustache.Part

lemma exists_own?_of_tag_eq {x y : Placed} (h : y.tag = x.tag) {own : List Part}
    (hx : x.own? = some own) (f : Text → Text) :
    ∃ own', y.own? = some own' ∧ outline id own' = outline f own := by
  unfold own? at hx ⊢
  rw [h]
  split at hx <;> simp at hx <;> subst hx <;> simp_all [outline, outlinePart]

variable {f : Text → Text}

/-- Segments nest by their tags, wherever these stand alone: with the source put through a function
they nest as they did before. -/
theorem Nests.exists_of_map_eq (hf : ∀ s t, f (s ++ t) = f s ++ f t) {d d' : Delimiters}
    {xs ys : List Placed} {parts : List Part} (h : Nests d xs parts d')
    (hy : ys.map toSegment = xs.map fun x => x.toSegment.mapSource f) :
    ∃ parts', Nests d ys parts' d' ∧ outline id parts' = outline f parts := by
  induction h generalizing ys with
  | nil =>
    obtain rfl := List.map_eq_nil_iff.mp hy
    exact ⟨[], .nil, rfl⟩
  | @leaf d d' x xs own parts hx hr ih =>
    obtain ⟨x', ys, rfl, hxx, hys⟩ := List.map_eq_cons_iff.mp hy
    have htag : x'.tag = x.tag := by rw [hxx]; rfl
    obtain ⟨own', hown, ho⟩ := exists_own?_of_tag_eq htag hx f
    obtain ⟨parts', hn, hp⟩ := ih hys
    refine ⟨_, .leaf hown (htag ▸ hn), ?_⟩
    simp [outline_append, ho, hp]
  | @block d d₁ d₂ x y inner xs inverted path children parts hx hclose hi hr ih₁ ih₂ =>
    obtain ⟨x', ys, rfl, hxx, hys⟩ := List.map_eq_cons_iff.mp hy
    rw [List.map_append] at hys
    obtain ⟨inner', ys', rfl, hinner, hys'⟩ := List.map_eq_append_iff.mp hys
    obtain ⟨y', ys, rfl, hyy, hrest⟩ := List.map_eq_cons_iff.mp hys'
    obtain ⟨children', hc, ho⟩ := ih₁ hinner
    obtain ⟨parts', hn, hp⟩ := ih₂ hrest
    have hx' : x'.tag = .opening inverted path := by rw [hxx]; exact hx
    have hy' : y'.tag = .closing path := by rw [hyy]; exact hclose
    have hsource : Segment.sourceOf (inner'.map toSegment) y'.text =
        f (Segment.sourceOf (inner.map toSegment) y.text) := by
      rw [hinner, hyy, ← Segment.sourceOf_map hf, List.map_map]
      rfl
    refine ⟨_, .block hx' hy' hc hn, ?_⟩
    simp [outline_append, ho, hp, hsource]

/-- What stands in front of the first tag does not matter. -/
theorem Nests.exists_prefixed (s : Text) {d d' : Delimiters} {xs : List Placed}
    {parts : List Part} (h : Nests d xs parts d') :
    ∃ parts', Nests d (prefixed s xs) parts' d' ∧ outline id parts' = outline id parts := by
  cases xs with
  | nil => exact ⟨parts, h, rfl⟩
  | cons x xs =>
    obtain ⟨qs, rfl, hn⟩ := @Nests.exists_cons_of_eq _ _ x { x with text := s ++ x.text } _ _
      h rfl rfl
    refine ⟨_, hn, ?_⟩
    rw [outline_append, outline_append, outline_literal, outline_literal]

lemma prefixed_map_mark (s : Text) (xs : List Placed) :
    (prefixed s xs).map mark = xs.map mark := by
  cases xs <;> rfl

end Placed

namespace Segment

/-- An indented source is cut into the indented segments. -/
theorem Cuts.indentLines (hi : Blank indent) {d : Delimiters} (hd : d.Valid) {s last : Text}
    {xs : List Segment} (h : Cuts d s xs last) (hs : s ≠ []) :
    Cuts d (indentLines indent s) (Segment.prefixed indent (xs.map (indented indent)))
      (prefixedLast indent (Text.indentWithin indent last) (xs.map (indented indent))) := by
  rw [indentLines_eq, if_neg hs]
  exact (h.indentWithin hi hd).prefixed hi hd

/-- An indented source is cut at the same tags, which stand alone where they did, with the indent
in front. -/
theorem Cuts.exists_indentLines (hi : Blank indent) {d : Delimiters} (hd : d.Valid)
    {source last : Text} {xs : List Segment} (h : Cuts d source xs last) :
    ∃ ys last', Cuts d (Text.indentLines indent source) ys last' ∧
      placed ys last' = Placed.prefixed indent ((placed xs last).map (Placed.indented indent)) := by
  by_cases hs : source = []
  · subst hs
    cases h with
    | last hb => exact ⟨[], [], .last hb, rfl⟩
    | tag hb => simp [breakOn, hd.opening.1] at hb
  · refine ⟨_, _, h.indentLines hi hd hs, ?_⟩
    have hlead : Lead.advance (some []) indent = some indent.reverse := by
      simp [Lead.advance_blank hi]
    rw [placed, place_prefixed, hlead]
    exact congrArg _ (h.place_indented hi hd (some []) false)

end Segment

/-- An indented source compiles to parts with the same outline, and to tags that stand alone where
they did, with the indent in front. -/
theorem Part.exists_ofSource_indentLines (hi : Blank indent) {d : Delimiters} (hd : d.Valid)
    {source : Text} {parts : List Part} (h : ofSource d source = .ok parts) :
    ∃ parts', ofSource d (indentLines indent source) = .ok parts' ∧
      outline id parts' = outline (indentAfter indent) parts ∧
      (Site.ofSource d (indentLines indent source)).map Site.mark =
        (Site.ofSource d source).map fun x => (x.tag, x.alone?.map (indent ++ ·)) := by
  obtain ⟨xs, last, ps, d', hc, hn, rfl⟩ := (ofSource_eq_ok_iff hd).mp h
  obtain ⟨ys, last', hcut, hplaced⟩ := hc.exists_indentLines hi hd
  have hsegments : ((Segment.placed xs last).map (Placed.indented indent)).map Placed.toSegment =
      (Segment.placed xs last).map fun x => x.toSegment.mapSource (indentAfter indent) := by
    rw [List.map_map]
    rfl
  obtain ⟨ps', hn', ho'⟩ := hn.exists_of_map_eq (indentAfter_append indent) hsegments
  obtain ⟨ps'', hn'', ho''⟩ := hn'.exists_prefixed indent
  refine ⟨_, (ofSource_eq_ok_iff hd).mpr ⟨ys, last', ps'', d', hcut, hplaced ▸ hn'', rfl⟩, ?_, ?_⟩
  · rw [outline_append, outline_append, ho'', ho', outline_literal, outline_literal]
  · have hmarks (zs : List Segment) (last : Text) :
        (Segment.placed zs last).map Placed.mark = (Segment.sites [] zs last).map Site.mark :=
      Segment.place_map_mark [] false zs last
    have hmap := congrArg (List.map fun m : Tag × Option Text => (m.1, m.2.map (indent ++ ·)))
      (hmarks xs last)
    rw [List.map_map, List.map_map] at hmap
    rw [hcut.ofSource_eq, hc.ofSource_eq, ← hmarks, hplaced, Placed.prefixed_map_mark, List.map_map]
    exact hmap

namespace Template

lemma compile_eq_ok_iff {source : Text} {t : Template} :
    compile source = .ok t ↔ t.source = source ∧ Part.ofSource .braces source = .ok t.parts := by
  rw [compile, bind_eq_ok_iff]
  constructor
  · rintro ⟨parts, hp, h⟩
    obtain rfl := by simpa using h
    exact ⟨rfl, hp⟩
  · rintro ⟨rfl, hp⟩
    exact ⟨t.parts, hp, rfl⟩

/-- A template that compiles can be indented. The result has the same outline, up to the indent in
the sources of its blocks; the same tags stand alone, and their inclusions are indented that much
more; and indenting it further is indenting the template by both together. -/
theorem indented_of_compile {source : Text} {t : Template} (h : compile source = .ok t)
    (hi : Blank indent) :
    ∃ u, t.indented indent = .ok u ∧
      Part.outline id u.parts = Part.outline (indentAfter indent) t.parts ∧
      (Site.ofSource .braces u.source).map (fun x => (x.tag, decide x.Alone)) =
        (Site.ofSource .braces t.source).map (fun x => (x.tag, decide x.Alone)) ∧
      Part.inclusions t.parts = (Site.ofSource .braces t.source).filterMap Site.inclusion? ∧
      Part.inclusions u.parts = (Site.ofSource .braces t.source).filterMap (fun x =>
        x.inclusion?.map fun (name, old) => (name, if x.Alone then indent ++ old else [])) ∧
      ∀ j, u.indented j = t.indented (j ++ indent) := by
  obtain ⟨rfl, hp⟩ := compile_eq_ok_iff.mp h
  obtain ⟨parts, hparts, houtline, hmarks⟩ :=
    Part.exists_ofSource_indentLines hi Delimiters.braces_valid hp
  refine ⟨⟨indentLines indent t.source, parts⟩, compile_eq_ok_iff.mpr ⟨rfl, hparts⟩, houtline, ?_,
    Part.inclusions_ofSource Delimiters.braces_valid hp, ?_, ?_⟩
  · have := congrArg (List.map fun m : Tag × Option Text => (m.1, m.2.isSome)) hmarks
    simpa [Function.comp_def, Site.mark] using this
  · have := congrArg (List.filterMap fun m => m.1.inclusion? m.2) hmarks
    rw [List.filterMap_map, List.filterMap_map] at this
    rw [Part.inclusions_ofSource Delimiters.braces_valid hparts]
    refine Eq.trans this (List.filterMap_congr fun x _ => ?_)
    cases htag : x.tag with
    | inclusion name =>
      by_cases hx : x.Alone <;>
        simp [Tag.inclusion?, Site.inclusion?, Site.indent, Site.alone?, htag, hx]
    | _ => simp [Tag.inclusion?, Site.inclusion?, htag]
  · intro j
    exact congrArg compile (indentLines_indentLines hi j t.source)

/-- An inclusion behind a blank, indented by a tab and then by a blank. -/
theorem indented_of_compile_inclusion :
    let t : Template := ⟨[' ', '{', '{', '>', 'p', '}', '}', '\n'], [.inclusion ['p'] [' ']]⟩
    compile t.source = .ok t ∧ Blank ['\t'] ∧
      ∃ u, t.indented ['\t'] = .ok u ∧ Part.inclusions u.parts = [(['p'], ['\t', ' '])] ∧
        u.indented [' '] = t.indented [' ', '\t'] := by
  intro t
  have h : compile t.source = .ok t := by decide +kernel
  have hi : Blank ['\t'] := by decide
  obtain ⟨u, hu, -, -, -, hinclusions, hmore⟩ := indented_of_compile h hi
  refine ⟨h, hi, u, hu, hinclusions.trans ?_, hmore [' ']⟩
  decide +kernel

end Template
end Mustache
