import Mustache.Proofs.Collect
import Mustache.Proofs.Extent
import Mustache.Proofs.Line

/-! Sites: the tags of a source where they stand in it, and which of them stand alone. What the
layout finds out token by token is read off the source itself. -/
namespace Mustache

open Layout

/-- A tag where it stands in its source: the text before it, and the text after it. -/
structure Site where
  before : Text
  raw : Text
  tag : Tag
  after : Text
  deriving DecidableEq, Repr

namespace Site

/-- What stands in front of the tag on the line that it begins on. -/
def lead (x : Site) : Text := Text.lastLine x.before

/-- Whether nothing but blanks stands in front of the tag on the line that it begins on, and behind
it on the line that it ends on. -/
def Alone (x : Site) : Prop :=
  x.tag.mayStandAlone = true ∧ Text.Blank x.lead ∧ (Text.blankLine? x.after).isSome = true

instance (x : Site) : Decidable x.Alone :=
  inferInstanceAs (Decidable (_ ∧ _ ∧ _))

/-- The blanks in front of a tag that stands alone. -/
def alone? (x : Site) : Option Text := if x.Alone then some x.lead else none

/-- What goes in front of the tag: those blanks, or nothing. -/
def indent (x : Site) : Text := x.alone?.getD []

/-- What is taken out of the source for the tag: its whole lines if it stands alone, otherwise the
tag itself. -/
def extent (x : Site) : Extent :=
  ⟨x.before.length - x.indent.length,
    x.before.length + x.raw.length + lineEnd (decide x.Alone) x.after⟩

/-- The inclusion that the tag asks for, with its indent. -/
def inclusion? (x : Site) : Option (Text × Text) :=
  match x.tag with
  | .inclusion name => some (name, x.indent)
  | _ => none

/-- The tags among tokens, given the text in front of these. -/
def ofTokens (before : Text) : List Token → List Site
  | [] => []
  | ⟨_, raw, none⟩ :: ts => ofTokens (before ++ raw) ts
  | ⟨_, raw, some tag⟩ :: ts =>
    ⟨before, raw, tag, (ts.map Token.raw).flatten⟩ :: ofTokens (before ++ raw) ts

/-- The tags of a source. -/
def ofSource (d : Delimiters) (source : Text) : List Site :=
  ofTokens [] (Tokens.ofText d source).tokens

@[simp] lemma alone?_isSome (x : Site) : x.alone?.isSome = decide x.Alone := by
  unfold alone?
  split <;> simp_all

lemma indent_eq (x : Site) : x.indent = if x.Alone then x.lead else [] := by
  unfold indent alone?
  split <;> rfl

/-- Which tags stand alone is seen from the blanks in front and from the text behind. -/
theorem standsAlone?_eq (x : Site) :
    standsAlone? (Lead.advance (some []) x.before) x.tag x.after = x.alone? := by
  rw [standsAlone?, Lead.advance_start]
  change _ = if _ ∧ Text.Blank (Text.lastLine x.before) ∧ _ then some (Text.lastLine x.before)
    else none
  by_cases hb : Text.Blank (Text.lastLine x.before) <;> simp [hb]

/-- The tag, and the blanks in front of it if it stands alone. -/
def mark (x : Site) : Tag × Option Text := (x.tag, x.alone?)

end Site

namespace Segment

/-- The sites of the tags of segments, given the text in front of these. -/
def sites (before : Text) : List Segment → Text → List Site
  | [], _ => []
  | x :: xs, last =>
    ⟨before ++ x.text, x.raw, x.tag, sourceOf xs last⟩ ::
      sites (before ++ x.text ++ x.raw) xs last

@[simp] lemma textToken_map_raw (p : Position) (s : Text) :
    ((textToken p s).map Token.raw).flatten = s := by
  unfold textToken
  split <;> simp_all

lemma tokens_map_raw (p : Position) (xs : List Segment) (last : Text) :
    ((tokens p xs last).map Token.raw).flatten = sourceOf xs last := by
  induction xs generalizing p with
  | nil => exact textToken_map_raw p last
  | cons x xs ih => simp [tokens, sourceOf, ih]

lemma ofTokens_textToken_append (before s : Text) (p : Position) (ts : List Token) :
    Site.ofTokens before (textToken p s ++ ts) = Site.ofTokens (before ++ s) ts := by
  unfold textToken
  split
  · simp_all
  · rfl

/-- The tags among the tokens of a source are those of its segments. -/
theorem ofTokens_tokens (before : Text) (p : Position) (xs : List Segment) (last : Text) :
    Site.ofTokens before (tokens p xs last) = sites before xs last := by
  induction xs generalizing before p with
  | nil =>
    have := ofTokens_textToken_append before last p []
    simpa [tokens, sites, Site.ofTokens] using this
  | cons x xs ih =>
    rw [tokens, ofTokens_textToken_append, Site.ofTokens, ih, tokens_map_raw, sites]

lemma Cuts.ofSource_eq {d : Delimiters} {source last : Text} {xs : List Segment}
    (h : Cuts d source xs last) : Site.ofSource d source = sites [] xs last := by
  rw [Site.ofSource, Tokens.ofText, Tokens.scan_of_cuts h, ofTokens_tokens]

/-- Nothing of the source is lost around a tag. -/
theorem source_of_mem_sites {before last : Text} {xs : List Segment} {x : Site}
    (h : x ∈ sites before xs last) :
    x.before ++ (x.raw ++ x.after) = before ++ sourceOf xs last := by
  induction xs generalizing before with
  | nil => simp [sites] at h
  | cons y xs ih =>
    rcases List.mem_cons.mp h with rfl | h
    · simp [sourceOf]
    · rw [ih h]
      simp [sourceOf]

/-- A segment is placed by the site of its tag. -/
theorem place_cons {before : Text} {x : Segment} {xs : List Segment} {last : Text} {site : Site}
    (h : site = ⟨before ++ x.text, x.raw, x.tag, sourceOf xs last⟩) (afterLone : Bool) :
    place (Lead.advance (some []) before) afterLone (x :: xs) last =
      ⟨x, afterLone, site.alone?⟩ ::
        place (Lead.advance (some []) (before ++ x.text ++ x.raw)) (decide site.Alone) xs last := by
  subst h
  rw [place, ← Lead.advance_append, ← Lead.advance_append, ← Site.standsAlone?_eq,
    ← Site.alone?_isSome, ← Site.standsAlone?_eq]

/-- The segments of a source are placed by the sites of their tags. -/
theorem place_map_mark (before : Text) (afterLone : Bool) (xs : List Segment) (last : Text) :
    (place (Lead.advance (some []) before) afterLone xs last).map Placed.mark =
      (sites before xs last).map Site.mark := by
  induction xs generalizing before afterLone with
  | nil => rfl
  | cons x xs ih =>
    rw [place_cons rfl, sites, List.map_cons, List.map_cons, ih]
    rfl

/-- The inclusions of placed segments are those of their sites. -/
theorem place_filterMap_inclusion? (before : Text) (afterLone : Bool) (xs : List Segment)
    (last : Text) :
    (place (Lead.advance (some []) before) afterLone xs last).filterMap Placed.inclusion? =
      (sites before xs last).filterMap Site.inclusion? := by
  have h := congrArg (List.filterMap fun m => m.1.inclusion? m.2)
    (place_map_mark before afterLone xs last)
  rwa [List.filterMap_map, List.filterMap_map] at h

end Segment

/-- The inclusions of a part tree are those that the tags of its source ask for. -/
theorem Part.inclusions_ofSource {d : Delimiters} (hd : d.Valid) {source : Text}
    {parts : List Part} (h : ofSource d source = .ok parts) :
    inclusions parts = (Site.ofSource d source).filterMap Site.inclusion? := by
  obtain ⟨xs, last, ps, d', hc, hn, rfl⟩ := (ofSource_eq_ok_iff hd).mp h
  rw [inclusions_append, hn.inclusions_eq, Placed.inclusions_literal, List.append_nil,
    hc.ofSource_eq]
  exact Segment.place_filterMap_inclusion? [] false xs last

end Mustache
