import Mustache.Proofs.Collect
import Mustache.Proofs.Unescaped

/-! Templates that escape every value, and what they become when values are not escaped: the same
parts up to that, also when both are indented. -/
namespace Mustache

open Text Layout

/-- A tag other than of an unescaped value or of delimiters. -/
def Tag.Escapes : Tag → Prop
  | .value _ escaped => escaped = true
  | .switch _ => False
  | _ => True

namespace Text

lemma Blank.unmarked {s : Text} (h : Blank s) : Unmarked s := by
  intro c hc
  have hblank : c = ' ' ∨ c = '\t' := by simpa [isBlank] using h c hc
  rcases hblank with rfl | rfl <;> decide

lemma Unmarked.indentAfter {indent s : Text} (hi : Unmarked indent) (hs : Unmarked s) :
    Unmarked (indentAfter indent s) := by
  intro c hc
  by_cases hci : c ∈ indent
  · exact hi c hci
  · exact hs c ((mem_indentAfter_iff hci).mp hc)

lemma Unmarked.indentWithin {indent s : Text} (hi : Unmarked indent) (hs : Unmarked s) :
    Unmarked (indentWithin indent s) := by
  induction s with
  | nil => exact unmarked_nil
  | cons c s ih =>
    obtain ⟨hc, hrest⟩ := List.forall_mem_cons.mp hs
    refine List.forall_mem_cons.mpr ⟨hc, unmarked_append.mpr ⟨?_, ih hrest⟩⟩
    split
    · exact hi
    · exact unmarked_nil

end Text

namespace Layout

lemma dropWhile_isBlank_unmarked (s : Text) :
    Unmarked (s.dropWhile isBlank) ↔ Unmarked s := by
  have hblank : Unmarked (s.takeWhile isBlank) :=
    Blank.unmarked fun c hc => List.mem_takeWhile_imp hc
  have happend := @unmarked_append (s.takeWhile isBlank) (s.dropWhile isBlank)
  rw [List.takeWhile_append_dropWhile] at happend
  rw [happend]
  exact (and_iff_right hblank).symm

lemma drop_lineEnd_unmarked (afterLone : Bool) (s : Text) :
    Unmarked (s.drop (lineEnd afterLone s)) ↔ Unmarked s := by
  unfold lineEnd
  split
  · cases hk : blankLine? s with
    | none => rfl
    | some k =>
      obtain ⟨blanks, ending, rest, rfl, hblank, rfl, hending⟩ := blankLine?_eq_some_iff.mp hk
      have hend : Unmarked ending := by
        rcases hending with rfl | rfl | ⟨rfl, -⟩ <;> decide
      rw [Option.getD_some, ← List.append_assoc, ← List.length_append, List.drop_left,
        unmarked_append, unmarked_append]
      exact (and_iff_right ⟨hblank.unmarked, hend⟩).symm
  · rfl

/-- What the layout takes away is no markup. -/
theorem keep_unmarked (afterLone beforeLone : Bool) (s : Text) :
    Unmarked (keep afterLone beforeLone s) ↔ Unmarked s := by
  have hreverse (s : Text) : Unmarked s.reverse ↔ Unmarked s := by simp [Unmarked]
  have hend (s : Text) : Unmarked (dropEndWhile isBlank s) ↔ Unmarked s := by
    rw [dropEndWhile, hreverse, dropWhile_isBlank_unmarked, hreverse]
  unfold keep
  cases afterLone <;> cases beforeLone <;> simp [hend, drop_lineEnd_unmarked]

end Layout

namespace Part

/-- A part that is no markup and lets none through. -/
def Escapes : Part → Prop
  | .literal text => Unmarked text
  | .value _ escaped => escaped = true
  | .switch _ => False
  | _ => True

instance : DecidablePred Escapes
  | .literal text => inferInstanceAs (Decidable (Unmarked text))
  | .value _ escaped => inferInstanceAs (Decidable (escaped = true))
  | .switch _ => inferInstanceAs (Decidable False)
  | .block .. => inferInstanceAs (Decidable True)
  | .inclusion .. => inferInstanceAs (Decidable True)

/-- The parts of a tree, on all levels. -/
def everywhere : List Part → List Part :=
  collect fun part => [part]

/-- Parts whose values are all escaped, and the same parts with values that are not. -/
inductive Unescapes : List Part → List Part → Prop
  | nil : Unescapes [] []
  | literal {ps qs : List Part} {text : Text} (ht : Unmarked text) (h : Unescapes ps qs) :
    Unescapes (.literal text :: ps) (.literal text :: qs)
  | value {ps qs : List Part} (path : Text) (h : Unescapes ps qs) :
    Unescapes (.value path true :: ps) (.value path false :: qs)
  | block {ps qs children children' : List Part} (inverted : Bool) (path source source' : Text)
    (d d' : Delimiters) (hc : Unescapes children children') (h : Unescapes ps qs) :
    Unescapes (.block inverted path source d children :: ps)
      (.block inverted path source' d' children' :: qs)
  | inclusion {ps qs : List Part} (name indent : Text) (h : Unescapes ps qs) :
    Unescapes (.inclusion name indent :: ps) (.inclusion name indent :: qs)

lemma Unescapes.append {ps qs ps' qs' : List Part} (h : Unescapes ps qs)
    (h' : Unescapes ps' qs') : Unescapes (ps ++ ps') (qs ++ qs') := by
  induction h with
  | nil => exact h'
  | literal ht _ ih => exact .literal ht ih
  | value path _ ih => exact .value path ih
  | block inverted path source source' d d' hc _ _ ih => exact .block inverted path _ _ _ _ hc ih
  | inclusion name indent _ ih => exact .inclusion name indent ih

end Part

/-- A segment with nothing in it that is markup or lets markup through. -/
structure Segment.Escapes (x : Segment) : Prop where
  text : Unmarked x.text
  tag : x.tag.Escapes

namespace Placed

open Mustache.Part

lemma literal_unescapes {s : Text} (h : Unmarked s) : Unescapes (literal s) (literal s) := by
  unfold literal
  split
  · exact .nil
  · exact .literal h .nil

lemma unescaped_of_tag_ne {x : Placed} (h : ∀ path, x.tag ≠ .value path true) :
    x.unescaped = x := by
  rw [unescaped, Segment.unescaped_of_tag_ne h]

lemma exists_own?_unescaped {x : Placed} {own : List Part} (hx : x.own? = some own)
    (he : x.tag.Escapes) : ∃ own', x.unescaped.own? = some own' ∧ Unescapes own own' := by
  cases htag : x.tag with
  | value path escaped =>
    obtain rfl : escaped = true := by simpa [htag, Tag.Escapes] using he
    obtain rfl : own = [.value path true] := by simpa [own?, htag, eq_comm] using hx
    refine ⟨[.value path false], ?_, .value path .nil⟩
    rw [unescaped, Segment.unescaped_of_tag_eq htag]
    rfl
  | inclusion name =>
    rw [unescaped_of_tag_ne (by simp [htag])]
    obtain rfl : own = [.inclusion name (x.alone?.getD [])] := by
      simpa [own?, htag, eq_comm] using hx
    exact ⟨_, hx, .inclusion name _ .nil⟩
  | comment =>
    rw [unescaped_of_tag_ne (by simp [htag])]
    obtain rfl : own = [] := by simpa [own?, htag, eq_comm] using hx
    exact ⟨_, hx, .nil⟩
  | switch d => simp [htag, Tag.Escapes] at he
  | opening inverted path => simp [own?, htag] at hx
  | closing name => simp [own?, htag] at hx

lemma unescaped_delimitersAfter (x : Placed) (d : Delimiters) :
    x.unescaped.tag.delimitersAfter d = x.tag.delimitersAfter d := by
  by_cases hvalue : ∃ path, x.tag = .value path true
  · obtain ⟨path, hpath⟩ := hvalue
    rw [unescaped, Segment.unescaped_of_tag_eq hpath, hpath]
    rfl
  · rw [unescaped_of_tag_ne (not_exists.mp hvalue)]

@[simp] lemma unescaped_kept (x : Placed) : x.unescaped.kept = x.kept := by
  simp [unescaped, kept]

/-- Unescaped segments nest to unescaped parts. -/
theorem Nests.exists_unescapes {d d' : Delimiters} {xs : List Placed} {ps : List Part}
    (h : Nests d xs ps d') (hx : ∀ x ∈ xs, x.toSegment.Escapes) :
    ∃ qs, Nests d (xs.map unescaped) qs d' ∧ Unescapes ps qs := by
  induction h with
  | nil => exact ⟨[], .nil, .nil⟩
  | @leaf d d' x xs own parts hown hr ih =>
    obtain ⟨hfirst, hrest⟩ := List.forall_mem_cons.mp hx
    obtain ⟨own', hown', ho⟩ := exists_own?_unescaped hown hfirst.tag
    obtain ⟨qs, hn, hq⟩ := ih hrest
    rw [← unescaped_delimitersAfter x d] at hn
    refine ⟨_, .leaf hown' hn, ?_⟩
    rw [unescaped_kept]
    exact ((literal_unescapes ((keep_unmarked _ _ _).mpr hfirst.text)).append ho).append hq
  | @block d d₁ d₂ x y inner xs inverted path children parts hopen hclose hi hr ih₁ ih₂ =>
    obtain ⟨hfirst, hrest⟩ := List.forall_mem_cons.mp hx
    obtain ⟨hinner, hrest⟩ := List.forall_mem_append.mp hrest
    obtain ⟨hlast, hrest⟩ := List.forall_mem_cons.mp hrest
    obtain ⟨children', hn, hc⟩ := ih₁ hinner
    obtain ⟨qs, hn', hq⟩ := ih₂ hrest
    rw [List.map_cons, List.map_append, List.map_cons, unescaped_of_tag_ne (by simp [hopen]),
      unescaped_of_tag_ne (by simp [hclose])]
    refine ⟨_, .block hopen hclose hn hn', ?_⟩
    refine (literal_unescapes ((keep_unmarked _ _ _).mpr hfirst.text)).append ?_
    refine .block _ _ _ _ _ _ (hc.append ?_) hq
    exact literal_unescapes ((keep_unmarked _ _ _).mpr hlast.text)

lemma unmarked_of_literal {s : Text} (h : ∀ p ∈ everywhere (literal s), p.Escapes) :
    Unmarked s := by
  unfold literal at h
  split at h
  · rename_i hs
    rw [hs]
    exact unmarked_nil
  · exact h (.literal s) (by simp [everywhere, collect, collectPart])

lemma escapes_of_own? {x : Placed} {own : List Part} (hx : x.own? = some own)
    (h : ∀ p ∈ everywhere own, p.Escapes) : x.tag.Escapes := by
  cases htag : x.tag with
  | value path escaped =>
    obtain rfl : own = [.value path escaped] := by simpa [own?, htag, eq_comm] using hx
    exact h (.value path escaped) (by simp [everywhere, collect, collectPart])
  | switch d =>
    obtain rfl : own = [.switch d] := by simpa [own?, htag, eq_comm] using hx
    exact h (.switch d) (by simp [everywhere, collect, collectPart])
  | _ => exact trivial

/-- Segments are free of markup if the parts are that they nest to. -/
theorem Nests.escapes {d d' : Delimiters} {xs : List Placed} {ps : List Part}
    (h : Nests d xs ps d') (hp : ∀ p ∈ everywhere ps, p.Escapes) :
    ∀ x ∈ xs, x.toSegment.Escapes := by
  induction h with
  | nil => simp
  | @leaf d d' x xs own parts hown hr ih =>
    simp only [everywhere, collect_append, List.forall_mem_append] at hp
    obtain ⟨⟨hkept, ho⟩, hrest⟩ := hp
    refine List.forall_mem_cons.mpr ⟨⟨?_, escapes_of_own? hown ho⟩, ih hrest⟩
    exact (keep_unmarked _ _ _).mp (unmarked_of_literal hkept)
  | @block d d₁ d₂ x y inner xs inverted path children parts hopen hclose hi hr ih₁ ih₂ =>
    simp only [everywhere, collect_append, collect, collectPart, List.forall_mem_append] at hp
    obtain ⟨hkept, ⟨-, hchildren, hlast⟩, hrest⟩ := hp
    refine List.forall_mem_cons.mpr ⟨⟨?_, by simp [hopen, Tag.Escapes]⟩, ?_⟩
    · exact (keep_unmarked _ _ _).mp (unmarked_of_literal hkept)
    · refine List.forall_mem_append.mpr ⟨ih₁ hchildren, ?_⟩
      refine List.forall_mem_cons.mpr ⟨⟨?_, ?_⟩, ih₂ hrest⟩
      · exact (keep_unmarked _ _ _).mp (unmarked_of_literal hlast)
      · simp [hclose, Tag.Escapes]

@[simp] lemma afterLast_map_unescaped (afterLone : Bool) (xs : List Placed) :
    afterLast afterLone (xs.map unescaped) = afterLast afterLone xs := by
  induction xs generalizing afterLone with
  | nil => rfl
  | cons x xs ih => exact ih x.alone?.isSome

end Placed

/-- A source is cut in one way only. -/
theorem Segment.Cuts.unique {d : Delimiters} {s last last' : Text} {xs ys : List Segment}
    (h : Cuts d s xs last) (h' : Cuts d s ys last') : xs = ys ∧ last = last' := by
  induction h generalizing ys with
  | last hb =>
    cases h' with
    | last => exact ⟨rfl, rfl⟩
    | tag hb' => simp [hb] at hb'
  | tag hb ht hr ih =>
    cases h' with
    | last hb' => simp [hb] at hb'
    | tag hb' ht' hr' =>
      obtain ⟨rfl, rfl⟩ := by simpa using hb.symm.trans hb'
      obtain ⟨rfl, rfl, rfl⟩ := by simpa using ht.symm.trans ht'
      obtain ⟨rfl, rfl⟩ := ih hr'
      exact ⟨rfl, rfl⟩

/-- A source that is cut into segments free of markup. -/
def Text.Escapes (s : Text) : Prop :=
  ∃ xs last, Segment.Cuts .braces s xs last ∧ (∀ x ∈ xs, x.Escapes) ∧ Unmarked last

lemma Tag.Escapes.ne_switch {tag : Tag} (h : tag.Escapes) (d : Delimiters) : tag ≠ .switch d := by
  rintro rfl
  exact h

namespace Text

/-- A source is free of markup if its parts are. -/
theorem escapes_of_ofSource {s : Text} {ps : List Part} (h : Part.ofSource .braces s = .ok ps)
    (hp : ∀ p ∈ Part.everywhere ps, p.Escapes) : s.Escapes := by
  obtain ⟨xs, last, ps, d, hc, hn, rfl⟩ :=
    (Part.ofSource_eq_ok_iff Delimiters.braces_valid).mp h
  simp only [Part.everywhere, Part.collect_append, List.forall_mem_append] at hp
  refine ⟨xs, last, hc, fun x hx => ?_, ?_⟩
  · rw [← Segment.place_map_toSegment (some []) false xs last] at hx
    obtain ⟨y, hy, rfl⟩ := List.mem_map.mp hx
    exact hn.escapes hp.1 y hy
  · exact (keep_unmarked _ _ _).mp (Placed.unmarked_of_literal hp.2)

/-- With its values unescaped such a source compiles as before, to unescaped parts. -/
theorem Escapes.exists_unescapes {s : Text} (h : s.Escapes) {ps : List Part}
    (hp : Part.ofSource .braces s = .ok ps) :
    ∃ qs, Part.ofSource .braces (s.respelt Tag.unescaping) = .ok qs ∧ Part.Unescapes ps qs := by
  obtain ⟨xs, last, hc, hx, hlast⟩ := h
  obtain ⟨ys, last', ps, d, hc', hn, rfl⟩ :=
    (Part.ofSource_eq_ok_iff Delimiters.braces_valid).mp hp
  obtain ⟨rfl, rfl⟩ := hc.unique hc'
  have hswitch : ∀ x ∈ xs, ∀ d, x.tag ≠ .switch d := fun x hm => (hx x hm).tag.ne_switch
  have hplaced : Segment.placed (xs.map Segment.unescaped) last =
      (Segment.placed xs last).map Placed.unescaped :=
    Segment.place_unescaped (hc.regular hswitch) (some []) false last
  obtain ⟨qs, hn', hq⟩ := hn.exists_unescapes fun x hm => by
    apply hx
    rw [← Segment.place_map_toSegment (some []) false xs last]
    exact List.mem_map_of_mem hm
  have hcuts : Segment.Cuts .braces (s.respelt Tag.unescaping) (xs.map Segment.unescaped) last := by
    rw [hc.respelt_eq]
    exact hc.unescaped hswitch
  refine ⟨_, (Part.ofSource_eq_ok_iff Delimiters.braces_valid).mpr
    ⟨_, last, qs, d, hcuts, hplaced ▸ hn', rfl⟩, ?_⟩
  rw [Segment.keptLast, Segment.keptLast, hplaced, Placed.afterLast_map_unescaped]
  exact hq.append (Placed.literal_unescapes ((keep_unmarked _ _ _).mpr hlast))

lemma Escapes.indentLines_respelt {s : Text} (h : s.Escapes) {indent : Text} (hi : Blank indent) :
    indentLines indent (s.respelt Tag.unescaping) =
      (indentLines indent s).respelt Tag.unescaping := by
  obtain ⟨xs, last, hc, hx, -⟩ := h
  exact hc.indentLines_respelt hi fun x hm => (hx x hm).tag.ne_switch

/-- Blanks in front of lines bring in no markup. -/
theorem Escapes.indentLines {s : Text} (h : s.Escapes) {indent : Text} (hi : Blank indent) :
    (indentLines indent s).Escapes := by
  obtain ⟨xs, last, hc, hx, hlast⟩ := h
  by_cases hs : s = []
  · rw [indentLines_eq, if_pos hs, ← hs]
    exact ⟨xs, last, hc, hx, hlast⟩
  · refine ⟨_, _, hc.indentLines hi Delimiters.braces_valid hs, ?_⟩
    have hlast' := hi.unmarked.indentWithin hlast
    have hindented : ∀ x ∈ xs.map (Segment.indented indent), x.Escapes := by
      intro x hm
      obtain ⟨y, hy, rfl⟩ := List.mem_map.mp hm
      exact ⟨hi.unmarked.indentAfter (hx y hy).text, (hx y hy).tag⟩
    cases hxs : xs.map (Segment.indented indent) with
    | nil => exact ⟨by simp [Segment.prefixed], unmarked_append.mpr ⟨hi.unmarked, hlast'⟩⟩
    | cons x ys =>
      rw [hxs] at hindented
      obtain ⟨hfirst, hrest⟩ := List.forall_mem_cons.mp hindented
      refine ⟨List.forall_mem_cons.mpr ⟨⟨?_, hfirst.tag⟩, hrest⟩, hlast'⟩
      exact unmarked_append.mpr ⟨hi.unmarked, hfirst.text⟩

end Text

/-- A template that lets no markup through: it is as its source compiles, has no markup in its
texts, escapes every value, and keeps the first delimiters. -/
structure Template.Escapes (t : Template) : Prop where
  compiled : t.Compiled
  parts : ∀ p ∈ Part.everywhere t.parts, p.Escapes

instance (t : Template) : Decidable t.Escapes :=
  decidable_of_iff (t.Compiled ∧ ∀ p ∈ Part.everywhere t.parts, p.Escapes)
    ⟨fun h => ⟨h.1, h.2⟩, fun h => ⟨h.compiled, h.parts⟩⟩

namespace Template

variable {t : Template}

lemma Escapes.source (h : t.Escapes) : t.source.Escapes :=
  escapes_of_ofSource h.compiled.ofSource h.parts

/-- One template is the other one with its values unescaped. -/
def Unescapes (t t' : Template) : Prop :=
  compile (t.source.respelt Tag.unescaping) = .ok t'

lemma Escapes.exists_unescapes (h : t.Escapes) : ∃ t', t.Unescapes t' := by
  obtain ⟨qs, hq, -⟩ := h.source.exists_unescapes h.compiled.ofSource
  exact ⟨⟨_, qs⟩, compile_eq_ok_iff.mpr ⟨rfl, hq⟩⟩

lemma Unescapes.parts {t' : Template} (h : t.Unescapes t') (ht : t.Escapes) :
    Part.Unescapes t.parts t'.parts := by
  obtain ⟨qs, hq, hu⟩ := ht.source.exists_unescapes ht.compiled.ofSource
  obtain ⟨-, hparts⟩ := compile_eq_ok_iff.mp h
  obtain rfl := Except.ok.inj (hq.symm.trans hparts)
  exact hu

/-- Both can be indented, and then the one is still the other with its values unescaped. -/
theorem Unescapes.exists_indented {t' : Template} (h : t.Unescapes t') (ht : t.Escapes)
    {indent : Text} (hi : Blank indent) :
    ∃ u u', t.indented indent = .ok u ∧ t'.indented indent = .ok u' ∧ u.Compiled ∧
      Part.Unescapes u.parts u'.parts := by
  obtain ⟨ps, hp, -⟩ :=
    Part.exists_ofSource_indentLines hi Delimiters.braces_valid ht.compiled.ofSource
  obtain ⟨qs, hq, hu⟩ := (ht.source.indentLines hi).exists_unescapes hp
  obtain ⟨hsource, -⟩ := compile_eq_ok_iff.mp h
  have hcompile : t.indented indent = .ok ⟨indentLines indent t.source, ps⟩ :=
    compile_eq_ok_iff.mpr ⟨rfl, hp⟩
  refine ⟨_, ⟨indentLines indent t'.source, qs⟩, hcompile, compile_eq_ok_iff.mpr ⟨rfl, ?_⟩,
    hcompile, hu⟩
  rw [hsource, ht.source.indentLines_respelt hi]
  exact hq

end Template
end Mustache
