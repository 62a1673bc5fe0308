import Mustache.Proofs.Entities
import Mustache.Proofs.Inclusion
import Mustache.Proofs.Margin
import Mustache.Proofs.Spelling

/-! Sources with their escaped values written as unescaped ones. Such a source is cut at the same
tags as before, these stand alone where they did, and it can be indented before or after. -/
namespace Mustache

open Text Layout

lemma Tag.delimitersAfter_of_ne {tag : Tag} (h : ∀ d, tag ≠ .switch d) (d : Delimiters) :
    tag.delimitersAfter d = d := by
  cases tag with
  | switch d' => exact absurd rfl (h d')
  | _ => rfl

namespace Segment

/-- A segment with the tag of an escaped value written as that of an unescaped one. -/
def unescaped (x : Segment) : Segment :=
  match x.tag with
  | .value path true => ⟨x.text, Tag.unescaping path, .value path false⟩
  | _ => x

lemma unescaped_of_tag_eq {x : Segment} {path : Text} (h : x.tag = .value path true) :
    x.unescaped = ⟨x.text, Tag.unescaping path, .value path false⟩ := by
  rw [unescaped, h]

lemma unescaped_of_tag_ne {x : Segment} (h : ∀ path, x.tag ≠ .value path true) :
    x.unescaped = x := by
  unfold unescaped
  split
  · rename_i path htag
    exact absurd htag (h path)
  · rfl

@[simp] lemma unescaped_text (x : Segment) : x.unescaped.text = x.text := by
  unfold unescaped
  split <;> rfl

lemma unescaped_tag_ne {x : Segment} (h : ∀ d, x.tag ≠ .switch d) :
    ∀ d, x.unescaped.tag ≠ .switch d := by
  unfold unescaped
  split
  · simp
  · exact h

lemma tokens_map_respelt (p : Position) (xs : List Segment) (last : Text) :
    ((tokens p xs last).map (Token.respelt Tag.unescaping)).flatten =
      sourceOf (xs.map unescaped) last := by
  have htext (p : Position) (s : Text) :
      ((textToken p s).map (Token.respelt Tag.unescaping)).flatten = s := by
    unfold textToken
    split <;> simp_all [Token.respelt]
  induction xs generalizing p with
  | nil => exact htext p last
  | cons x xs ih =>
    have hraw (q : Position) :
        Token.respelt Tag.unescaping ⟨q, x.raw, some x.tag⟩ = x.unescaped.raw := by
      unfold Token.respelt unescaped
      split <;> simp_all
    simp [tokens, ih, htext, hraw]

/-- The tag of such a segment is read as it is, whatever follows. -/
theorem exists_readTag_unescaped {text inside raw rest : Text} {tag : Tag}
    (h : Token.readTag .braces inside = .ok ⟨raw, some tag, rest⟩) (more : Text) :
    ∃ u, (unescaped ⟨text, raw, tag⟩).raw = Delimiters.braces.opening ++ u ∧
      Token.readTag .braces (u ++ more) =
        .ok ⟨(unescaped ⟨text, raw, tag⟩).raw, some (unescaped ⟨text, raw, tag⟩).tag, more⟩ := by
  by_cases hvalue : ∃ path, tag = .value path true
  · obtain ⟨path, rfl⟩ := hvalue
    rw [unescaped_of_tag_eq rfl]
    exact Token.readTag_unescaping (Token.isPath_of_readTag h) more
  · rw [unescaped_of_tag_ne (not_exists.mp hvalue)]
    obtain ⟨u, hraw, rfl⟩ := Token.exists_of_readTag h
    have hread : Token.readTag .braces (u ++ rest) = .ok ⟨raw, some tag, [] ++ rest⟩ := h
    have halone := Token.readTag_of_append hread
    exact ⟨u, hraw, Token.readTag_append halone more⟩

/-- A tag of a source that keeps its first delimiters. -/
structure Regular (x : Segment) : Prop where
  framed : ∃ inside, x.raw = ['{', '{'] ++ inside ++ ['}', '}']
  isPath : ∀ path, x.tag = .value path true → Tag.IsPath path

namespace Cuts

variable {s last : Text} {xs : List Segment}

lemma cons {d : Delimiters} {x : Segment} {inside rest : Text}
    (hb : Text.breakOn d.opening s = some (x.text, inside))
    (ht : Token.readTag d inside = .ok ⟨x.raw, some x.tag, rest⟩)
    (hr : Cuts (x.tag.delimitersAfter d) rest xs last) : Cuts d s (x :: xs) last :=
  .tag hb ht hr

lemma respelt_eq (h : Cuts .braces s xs last) :
    Text.respelt Tag.unescaping s = sourceOf (xs.map unescaped) last := by
  rw [Text.respelt, Tokens.ofText, Tokens.scan_of_cuts h]
  exact tokens_map_respelt .start xs last

lemma regular (h : Cuts .braces s xs last) (hx : ∀ x ∈ xs, ∀ d, x.tag ≠ .switch d) :
    ∀ x ∈ xs, Regular x := by
  generalize hd : Delimiters.braces = d at h
  induction h with
  | last => simp
  | tag hb ht hr ih =>
    subst hd
    obtain ⟨hfirst, hrest⟩ := List.forall_mem_cons.mp hx
    refine List.forall_mem_cons.mpr ⟨⟨Token.exists_raw_eq_of_readTag ht, ?_⟩, ih hrest ?_⟩
    · rintro path rfl
      exact Token.isPath_of_readTag ht
    · exact (Tag.delimitersAfter_of_ne hfirst _).symm

/-- A source is cut at the same tags when its values are unescaped. -/
theorem unescaped (h : Cuts .braces s xs last) (hx : ∀ x ∈ xs, ∀ d, x.tag ≠ .switch d) :
    Cuts .braces (sourceOf (xs.map Segment.unescaped) last) (xs.map Segment.unescaped) last := by
  generalize hd : Delimiters.braces = d at h ⊢
  induction h with
  | last hb => exact .last hb
  | @tag d s text inside raw rest last tag xs hb ht hr ih =>
    subst hd
    obtain ⟨hfirst, hrest⟩ := List.forall_mem_cons.mp hx
    have hsame := Tag.delimitersAfter_of_ne hfirst .braces
    have hcut := ih hrest hsame.symm
    rw [hsame] at hcut
    rw [List.map_cons]
    obtain ⟨u, hraw, hread⟩ :=
      @exists_readTag_unescaped text _ _ _ _ ht (sourceOf (xs.map Segment.unescaped) last)
    refine .cons ?_ hread ?_
    -- the text in front is free of opening delimiters, whatever the tag behind it becomes
    · rw [sourceOf, hraw, unescaped_text, List.append_assoc, ← List.append_assoc]
      exact Text.breakOn_congr_after hb _
    · rw [Tag.delimitersAfter_of_ne (unescaped_tag_ne hfirst)]
      exact hcut

end Cuts

variable {x : Segment}

lemma Regular.unescaped_framed (h : Regular x) :
    ∃ inside, x.unescaped.raw = ['{', '{'] ++ inside ++ ['}', '}'] := by
  by_cases hvalue : ∃ path, x.tag = .value path true
  · obtain ⟨path, hpath⟩ := hvalue
    rw [unescaped_of_tag_eq hpath]
    exact ⟨'&' :: (path ++ Tag.gap path), rfl⟩
  · rw [unescaped_of_tag_ne (not_exists.mp hvalue)]
    exact h.framed

/-- Between its braces a tag hides the line in front of it, however it is written. -/
theorem Regular.advance_unescaped (h : Regular x) (lead : Lead) :
    lead.advance x.unescaped.raw = lead.advance x.raw := by
  have hnone : ∀ raw inside : Text, raw = ['{', '{'] ++ inside ++ ['}', '}'] →
      lead.advance raw = none := by
    rintro raw inside rfl
    rw [show ['{', '{'] ++ inside ++ ['}', '}'] = ('{' :: '{' :: inside ++ ['}']) ++ ['}'] by simp]
    exact Lead.advance_append_of_notMem_margins (by decide) lead _
  obtain ⟨inside, hraw⟩ := h.framed
  obtain ⟨inside', hraw'⟩ := h.unescaped_framed
  rw [hnone _ _ hraw, hnone _ _ hraw']

/-- The line behind a tag ends where it did. -/
theorem blankLine?_sourceOf_unescaped {xs : List Segment} (h : ∀ x ∈ xs, Regular x)
    (last : Text) :
    Text.blankLine? (sourceOf (xs.map unescaped) last) = Text.blankLine? (sourceOf xs last) := by
  cases xs with
  | nil => rfl
  | cons x xs =>
    have hbrace : '{' ∉ margins := by decide
    obtain ⟨inside, hraw⟩ := (h x List.mem_cons_self).framed
    obtain ⟨inside', hraw'⟩ := (h x List.mem_cons_self).unescaped_framed
    rw [List.map_cons, sourceOf, sourceOf, hraw, hraw', unescaped_text]
    simp only [List.cons_append, blankLine?_append_of_notMem_margins hbrace]

lemma standsAlone?_unescaped (x : Segment) (lead : Lead) (rest : Text) :
    standsAlone? lead x.unescaped.tag rest = standsAlone? lead x.tag rest := by
  unfold unescaped
  split
  · rename_i htag
    simp [htag, standsAlone?, Tag.mayStandAlone]
  · rfl

/-- A source is indented in the same way before its values are unescaped and afterwards. -/
theorem Regular.unescaped_indented (h : Regular x) (indent : Text) :
    (x.indented indent).unescaped = x.unescaped.indented indent := by
  by_cases hvalue : ∃ path, x.tag = .value path true
  · obtain ⟨path, hpath⟩ := hvalue
    have hnew : '\n' ∉ Tag.unescaping path := by
      have hname := Tag.newline_notMem_of_checkName (h.isPath path hpath).name
      have hgap : '\n' ∉ Tag.gap path := by
        unfold Tag.gap
        split <;> simp
      simp [Tag.unescaping, hname, hgap]
    rw [unescaped_of_tag_eq hpath, @unescaped_of_tag_eq (x.indented indent) path hpath, indented,
      indented, indentAfter_of_notMem indent hnew]
  · rw [unescaped_of_tag_ne (not_exists.mp hvalue),
      @unescaped_of_tag_ne (x.indented indent) (not_exists.mp hvalue)]

end Segment

namespace Placed

/-- A placed segment with the tag of an escaped value written as that of an unescaped one. -/
def unescaped (x : Placed) : Placed :=
  ⟨x.toSegment.unescaped, x.afterLone, x.alone?⟩

end Placed

namespace Segment

/-- The tags stand alone where they did. -/
theorem place_unescaped {xs : List Segment} (h : ∀ x ∈ xs, Regular x) (lead : Lead)
    (afterLone : Bool) (last : Text) :
    place lead afterLone (xs.map unescaped) last =
      (place lead afterLone xs last).map Placed.unescaped := by
  induction xs generalizing lead afterLone with
  | nil => rfl
  | cons x xs ih =>
    obtain ⟨hx, hxs⟩ := List.forall_mem_cons.mp h
    have halone : standsAlone? (lead.advance x.text) x.unescaped.tag
        (sourceOf (xs.map unescaped) last) =
          standsAlone? (lead.advance x.text) x.tag (sourceOf xs last) := by
      rw [standsAlone?_unescaped, standsAlone?, standsAlone?, blankLine?_sourceOf_unescaped hxs]
    rw [List.map_cons, place, place, List.map_cons, ih hxs, hx.advance_unescaped, unescaped_text]
    simp only [halone]
    rfl

lemma prefixed_map_unescaped (s : Text) (xs : List Segment) :
    (prefixed s xs).map unescaped = prefixed s (xs.map unescaped) := by
  cases xs with
  | nil => rfl
  | cons x xs =>
    rw [prefixed, List.map_cons, List.map_cons, prefixed]
    congr 1
    unfold unescaped
    split <;> simp_all

lemma prefixedLast_map (s last : Text) (f : Segment → Segment) (xs : List Segment) :
    prefixedLast s last (xs.map f) = prefixedLast s last xs := by
  cases xs <;> rfl

lemma sourceOf_unescaped_ne_nil {xs : List Segment} (h : ∀ x ∈ xs, Regular x) {last : Text}
    (hs : sourceOf xs last ≠ []) : sourceOf (xs.map unescaped) last ≠ [] := by
  cases xs with
  | nil => exact hs
  | cons x xs =>
    obtain ⟨inside, hraw⟩ := (h x List.mem_cons_self).unescaped_framed
    simp [hraw]

/-- Indenting a source and unescaping its values can be done in either order. -/
theorem Cuts.indentLines_respelt {indent : Text} (hi : Blank indent) {s last : Text}
    {xs : List Segment} (h : Cuts .braces s xs last) (hx : ∀ x ∈ xs, ∀ d, x.tag ≠ .switch d) :
    Text.indentLines indent (s.respelt Tag.unescaping) =
      (Text.indentLines indent s).respelt Tag.unescaping := by
  by_cases hs : s = []
  · simp [hs, Text.respelt, Tokens.ofText, Text.indentLines, Text.lines]
  · have hregular := h.regular hx
    have hne : sourceOf (xs.map Segment.unescaped) last ≠ [] :=
      sourceOf_unescaped_ne_nil hregular (h.sourceOf_eq.symm ▸ hs)
    have hfirst := (h.unescaped hx).indentLines hi Delimiters.braces_valid hne
    have hsame : (xs.map (indented indent)).map Segment.unescaped =
        (xs.map Segment.unescaped).map (indented indent) := by
      rw [List.map_map, List.map_map]
      exact List.map_congr_left fun x hm => (hregular x hm).unescaped_indented indent
    rw [(h.indentLines hi Delimiters.braces_valid hs).respelt_eq, h.respelt_eq,
      ← hfirst.sourceOf_eq, prefixed_map_unescaped, hsame]
    simp only [prefixedLast_map]

end Segment
end Mustache
