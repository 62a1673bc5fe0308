import Mustache.Proofs.Inclusion
import Mustache.Proofs.Margin
import Mustache.Proofs.Padding

/-! Well-formed part trees: names, delimiters and indents are such as tags can have, and the source
of each block lies in the text that the tree was compiled from, inside the source of the block
around it. Whatever compiles, compiles to a well-formed tree. -/
namespace Mustache

open Text

instance : DecidablePred Tag.IsName := fun name =>
  inferInstanceAs (Decidable (_ ∨ (∀ w ∈ Tag.segments name, w ≠ []) ∧
    ∀ c ∈ name, isSpace c = false))

instance (d : Delimiters) : Decidable d.Valid :=
  decidable_of_iff (Delimiters.IsMark d.opening ∧ Delimiters.IsMark d.closing)
    ⟨fun h => ⟨h.1, h.2⟩, fun h => ⟨h.opening, h.closing⟩⟩

/-- What a tag can say. -/
def Tag.Formed : Tag → Prop
  | value path _ | opening _ path => IsName path
  | closing name | inclusion name => IsName name
  | comment => True
  | switch d => d.Valid

namespace Part

mutual

/-- A part of a text whose names, delimiters and indent are such as tags can have, and whose source
stands in the text. -/
def FormedPart (text : Text) : Part → Prop
  | literal _ => True
  | value path _ => Tag.IsName path
  | block _ path source d children =>
    Tag.IsName path ∧ d.Valid ∧ source <:+: text ∧ Formed source children
  | inclusion name indent => Tag.IsName name ∧ Blank indent
  | switch d => d.Valid

/-- Parts of a text that are well formed on all levels, each block within the source of the one
around it. -/
def Formed (text : Text) : List Part → Prop
  | [] => True
  | part :: parts => FormedPart text part ∧ Formed text parts

end

mutual

def decidableFormedPart (text : Text) : (part : Part) → Decidable (FormedPart text part)
  | literal _ => inferInstanceAs (Decidable True)
  | value path _ => inferInstanceAs (Decidable (Tag.IsName path))
  | block _ path source d children =>
    have := decidableFormed source children
    inferInstanceAs (Decidable
      (Tag.IsName path ∧ d.Valid ∧ source <:+: text ∧ Formed source children))
  | inclusion name indent => inferInstanceAs (Decidable (Tag.IsName name ∧ Blank indent))
  | switch d => inferInstanceAs (Decidable d.Valid)

def decidableFormed (text : Text) : (parts : List Part) → Decidable (Formed text parts)
  | [] => inferInstanceAs (Decidable True)
  | part :: parts =>
    have := decidableFormedPart text part
    have := decidableFormed text parts
    inferInstanceAs (Decidable (FormedPart text part ∧ Formed text parts))

end

instance (text : Text) (parts : List Part) : Decidable (Formed text parts) :=
  decidableFormed text parts

mutual

lemma FormedPart.admitted {text : Text} : {part : Part} → FormedPart text part →
    Admitted Tag.IsName Delimiters.Valid (fun _ => True) [part]
  | .literal _, _ => admitted_of_eq_nil rfl rfl rfl
  | .value _ _, h => admitted_value.mpr h
  | .block _ _ _ _ _, ⟨hpath, hd, _, hchildren⟩ =>
    admitted_block.mpr ⟨hpath, hd, hchildren.admitted⟩
  | .inclusion _ _, _ => admitted_inclusion.mpr trivial
  | .switch _, _ => admitted_of_eq_nil rfl rfl rfl

/-- The names and delimiters of a well-formed tree are such as tags can have. -/
theorem Formed.admitted {text : Text} : {parts : List Part} → Formed text parts →
    Admitted Tag.IsName Delimiters.Valid (fun _ => True) parts
  | [], _ => admitted_of_eq_nil rfl rfl rfl
  | _ :: _, ⟨hpart, hparts⟩ => admitted_cons.mpr ⟨hpart.admitted, hparts.admitted⟩

end

variable {text : Text}

@[simp] lemma formed_append {ps qs : List Part} :
    Formed text (ps ++ qs) ↔ Formed text ps ∧ Formed text qs := by
  induction ps with
  | nil => simp [Formed]
  | cons p ps ih => simp [Formed, ih, and_assoc]

@[simp] lemma formed_literal (s : Text) : Formed text (Placed.literal s) := by
  unfold Placed.literal
  split <;> simp [Formed, FormedPart]

end Part

namespace Tag

lemma formed_of_named? {c : Char} {tag : Text → Tag} (h : named? c = some tag) {name : Text}
    (hn : IsName name) : (tag name).Formed := by
  unfold named? at h
  split at h <;> cases h <;> exact hn

/-- Whatever is read as a tag can be said by one. -/
theorem formed_of_ofText {s : Text} {tag : Tag} (h : ofText s = .ok tag) : tag.Formed := by
  cases s with
  | nil => cases h
  | cons c s =>
    rw [ofText_cons] at h
    split at h
    · obtain rfl := Except.ok.inj h
      trivial
    · split at h
      · obtain ⟨d, hd, rfl⟩ := map_eq_ok_iff.mp h
        exact Delimiters.valid_of_ofText hd
      · cases hn : named? c with
        | some f =>
          simp only [hn] at h
          obtain ⟨name, hname, rfl⟩ := map_eq_ok_iff.mp h
          obtain ⟨rfl, -⟩ := of_checkName_eq_ok hname
          exact formed_of_named? hn (isName_of_checkName hname)
        | none =>
          simp only [hn] at h
          obtain ⟨name, hname, rfl⟩ := map_eq_ok_iff.mp h
          obtain ⟨rfl, -⟩ := of_checkName_eq_ok hname
          exact isName_of_checkName hname

lemma Formed.delimitersAfter {tag : Tag} (h : tag.Formed) {d : Delimiters} (hd : d.Valid) :
    (tag.delimitersAfter d).Valid := by
  cases tag with
  | switch d' => exact h
  | _ => exact hd

end Tag

lemma Segment.Cuts.formed {d : Delimiters} {s last : Text} {xs : List Segment}
    (h : Cuts d s xs last) : ∀ x ∈ xs, x.tag.Formed := by
  induction h with
  | last => simp
  | tag hb ht hr ih =>
    refine List.forall_mem_cons.mpr ⟨?_, ih⟩
    obtain ⟨_, _, tag, -, htag, hr⟩ := Token.readTag_eq_ok_iff.mp ht
    obtain ⟨-, rfl, -⟩ := by simpa using hr
    exact Tag.formed_of_ofText htag

/-- A segment in its place whose tag can be said by one, and which is indented by blanks. -/
def Placed.Formed (x : Placed) : Prop :=
  x.tag.Formed ∧ Blank (x.alone?.getD [])

/-- In their places segments have the tags of their source and the indents of its sites. -/
theorem Segment.placed_formed {d : Delimiters} {s last : Text} {xs : List Segment}
    (h : Cuts d s xs last) : ∀ x ∈ placed xs last, x.Formed := by
  intro x hx
  constructor
  · have hsegment : x.toSegment ∈ xs := by
      rw [← Segment.place_map_toSegment (some []) false xs last]
      exact List.mem_map_of_mem hx
    exact h.formed x.toSegment hsegment
  · have hmark : x.mark ∈ (sites [] xs last).map Site.mark := by
      rw [← place_map_mark [] false xs last]
      exact List.mem_map_of_mem hx
    obtain ⟨site, -, hsite⟩ := List.mem_map.mp hmark
    have halone : site.alone? = x.alone? := congrArg Prod.snd hsite
    rw [← halone]
    exact site.blank_indent

namespace Placed

lemma Formed.own {x : Placed} (hx : x.Formed) {own : List Part} (h : x.own? = some own)
    (text : Text) : Part.Formed text own := by
  obtain ⟨htag, hblank⟩ := hx
  unfold own? at h
  split at h <;> cases h <;> simp_all [Part.Formed, Part.FormedPart, Tag.Formed]

/-- Segments that nest leave well-formed parts in every text in which they stand. -/
theorem Nests.formed {d d' : Delimiters} {xs : List Placed} {parts : List Part}
    (h : Nests d xs parts d') (hd : d.Valid) (hx : ∀ x ∈ xs, x.Formed) :
    d'.Valid ∧
      ∀ text, Segment.sourceOf (xs.map toSegment) [] <:+: text → Part.Formed text parts := by
  induction h with
  | nil => exact ⟨hd, fun _ _ => trivial⟩
  | @leaf d d' x xs own parts hown hr ih =>
    obtain ⟨hfirst, hrest⟩ := List.forall_mem_cons.mp hx
    obtain ⟨hd', hformed⟩ := ih (hfirst.1.delimitersAfter hd) hrest
    refine ⟨hd', fun text ht => ?_⟩
    have hbehind : Segment.sourceOf (xs.map toSegment) [] <:+:
        Segment.sourceOf ((x :: xs).map toSegment) [] :=
      ⟨x.text ++ x.raw, [], by simp⟩
    simp [hfirst.own hown, hformed text (hbehind.trans ht)]
  | @block d d₁ d₂ x y inner xs inverted path children parts hopen hclose hi hr ih₁ ih₂ =>
    obtain ⟨hfirst, hx⟩ := List.forall_mem_cons.mp hx
    obtain ⟨hinner, hx⟩ := List.forall_mem_append.mp hx
    obtain ⟨-, hrest⟩ := List.forall_mem_cons.mp hx
    obtain ⟨hd₁, hchildren⟩ := ih₁ hd hinner
    obtain ⟨hd₂, hparts⟩ := ih₂ hd₁ hrest
    have hpath : Tag.IsName path := by
      have htag := hfirst.1
      rwa [hopen] at htag
    refine ⟨hd₂, fun text ht => ?_⟩
    let body := Segment.sourceOf (inner.map toSegment) y.text
    let behind := Segment.sourceOf (xs.map toSegment) []
    have hbody : body = Segment.sourceOf (inner.map toSegment) [] ++ y.text :=
      Segment.sourceOf_eq_append _ _
    have hsource : Segment.sourceOf ((x :: (inner ++ y :: xs)).map toSegment) [] =
        x.text ++ x.raw ++ body ++ (y.raw ++ behind) := by
      rw [hbody, List.map_cons, List.map_append, List.map_cons, Segment.sourceOf_cons,
        Segment.sourceOf_append, Segment.sourceOf_cons]
      simp [behind]
    have hblock : body <:+: text := (hsource ▸ List.infix_append ..).trans ht
    have hafter : behind <:+: text := by
      refine List.IsInfix.trans ⟨x.text ++ x.raw ++ body ++ y.raw, [], ?_⟩ ht
      rw [hsource]
      simp
    have hinside : Segment.sourceOf (inner.map toSegment) [] <:+: body :=
      ⟨[], y.text, hbody.symm⟩
    rw [Part.formed_append]
    refine ⟨Part.formed_literal _, ⟨hpath, hd, hblock, ?_⟩, hparts text hafter⟩
    rw [Part.formed_append]
    exact ⟨hchildren _ hinside, Part.formed_literal _⟩

end Placed

/-- Whatever compiles with valid delimiters, compiles to a well-formed tree. -/
theorem Part.formed_of_ofSource {d : Delimiters} (hd : d.Valid) {source : Text}
    {parts : List Part} (h : ofSource d source = .ok parts) : Formed source parts := by
  obtain ⟨xs, last, ps, d', hcuts, hnests, rfl⟩ := (ofSource_eq_ok_iff hd).mp h
  obtain ⟨-, hformed⟩ := hnests.formed hd (Segment.placed_formed hcuts)
  rw [formed_append]
  refine ⟨hformed source ⟨[], last, ?_⟩, formed_literal _⟩
  rw [Segment.placed, Segment.place_map_toSegment, List.nil_append,
    ← Segment.sourceOf_eq_append, hcuts.sourceOf_eq]

namespace Template

/-- A template whose parts are well formed for its source. -/
def Formed (t : Template) : Prop := Part.Formed t.source t.parts

instance (t : Template) : Decidable t.Formed :=
  inferInstanceAs (Decidable (Part.Formed _ _))

lemma Compiled.formed {t : Template} (h : t.Compiled) : t.Formed :=
  Part.formed_of_ofSource Delimiters.braces_valid h.ofSource

end Template
end Mustache
