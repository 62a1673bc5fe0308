import Mustache.Proofs.Block
import Mustache.Proofs.Elision
import Mustache.Proofs.Indentation
import Mustache.Proofs.Margin
import Mustache.Render

/-! Bodies of blocks: the source that a block keeps, read again with the delimiters that it keeps,
gives the block its parts again. -/
namespace Mustache

open Data

namespace Segment

/-- The source between two tags is cut at the tags between them. -/
theorem Reads.cuts_between {d : Delimiters} {s last : Text} {x y : Segment}
    {inner rest : List Segment}
    (h : Reads d s (x :: (inner ++ y :: rest)) last) (hd : (x.tag.delimitersAfter d).Valid) :
    Cuts (x.tag.delimitersAfter d) (sourceOf inner y.text) inner y.text := by
  cases h with
  | tag hb ht hr =>
    obtain ⟨hinner, hbehind⟩ := hr.split
    have hvalid := hinner.valid hd
    refine cuts_iff_reads.mpr ⟨hinner.of_append, ?_⟩
    cases hbehind with
    | tag hb' _ _ => exact Text.breakOn_before_eq_none hvalid.opening.1 hb'

lemma sites_append (before : Text) (xs ys : List Segment) (last : Text) :
    sites before (xs ++ ys) last =
      sites before xs (sourceOf ys last) ++ sites (before ++ sourceOf xs []) ys last := by
  induction xs generalizing before with
  | nil => simp [sites]
  | cons x xs ih =>
    rw [List.cons_append, sites, sites, ih, sourceOf_append_eq_sourceOf]
    simp

end Segment

namespace Site

/-- Where the tag itself stands. -/
def span (x : Site) : Extent :=
  ⟨x.before.length, x.before.length + x.raw.length⟩

lemma span_holds_iff (x : Site) (n : Nat) :
    x.span.holds n = true ↔ x.before.length ≤ n ∧ n < x.before.length + x.raw.length := by
  rw [Extent.holds, Bool.and_eq_true, decide_eq_true_iff, decide_eq_true_iff]
  rfl

/-- Whether a text that stands at a place of a source begins and ends outside all tags, and with
characters that are no margin. -/
structure Firm (sites : List Site) (n : Nat) (s : Text) : Prop where
  first : ∃ c t, s = c :: t ∧ c ∉ Text.margins ∧ ∀ x ∈ sites, x.span.holds n = false
  last : ∃ t c, s = t ++ [c] ∧ c ∉ Text.margins ∧ ∀ x ∈ sites, x.span.holds (n + t.length) = false

end Site

namespace Placed

open Segment

/-- Where the tag at a spot stands in a source, given the text behind the last tag. -/
def Spot.site (last : Text) (s : Spot) : Site :=
  ⟨sourceOf (s.before.map toSegment) s.here.text, s.here.raw, s.here.tag,
    sourceOf (s.behind.map toSegment) last⟩

lemma sites_eq_map_spots (before xs : List Placed) (last : Text) :
    sites (sourceOf (before.map toSegment) []) (xs.map toSegment) last =
      (spots before xs).map (Spot.site last) := by
  induction xs generalizing before with
  | nil => rfl
  | cons x xs ih =>
    have hnext : sourceOf (before.map toSegment) [] ++ x.text ++ x.raw =
        sourceOf ((before ++ [x]).map toSegment) [] := by
      simp [sourceOf_append]
    rw [List.map_cons, sites, hnext, ih, spots, List.map_cons, Spot.site, ← sourceOf_eq_append]

section

variable {d : Delimiters} {source last : Text} {xs : List Segment} {before inner rest : List Placed}
  {x y : Placed}

lemma map_toSegment_of_placed {ps : List Placed} (h : placed xs last = ps) :
    xs = ps.map toSegment := by
  rw [← h]
  exact (place_map_toSegment (some []) false xs last).symm

/-- Each placed segment of a source has its site there. -/
theorem site_mem_ofSource (hc : Cuts d source xs last)
    (h : placed xs last = before ++ x :: rest) :
    Spot.site last ⟨before, x, rest⟩ ∈ Site.ofSource d source := by
  rw [hc.ofSource_eq, map_toSegment_of_placed h, List.map_append, sites_append, List.map_cons,
    sites, List.nil_append]
  refine List.mem_append_right _ ?_
  rw [Spot.site, sourceOf_eq_append (before.map toSegment) x.text]
  exact List.mem_cons_self

/-- A place that is in no tag lies in front of each tag or behind it. -/
theorem lt_or_le_of_holds_eq_false (hd : d.Valid) (hc : Cuts d source xs last)
    (h : placed xs last = before ++ x :: rest) {n : Nat}
    (hn : ∀ x ∈ Site.ofSource d source, x.span.holds n = false) :
    0 < x.raw.length ∧ (n < (sourceOf (before.map toSegment) x.text).length ∨
      (sourceOf (before.map toSegment) x.text).length + x.raw.length ≤ n) := by
  constructor
  · have hx : x.toSegment ∈ xs := by
      rw [map_toSegment_of_placed h]
      simp
    obtain ⟨c, t, ht, -⟩ := (hc.solid hd _ hx).first
    simp [ht]
  · have hout : ¬ (Spot.site last ⟨before, x, rest⟩).span.holds n = true := by
      simp [hn _ (site_mem_ofSource hc h)]
    rw [Site.span_holds_iff] at hout
    change ¬ ((sourceOf (before.map toSegment) x.text).length ≤ n ∧
      n < (sourceOf (before.map toSegment) x.text).length + x.raw.length) at hout
    omega

/-- The first text of a body that begins outside all tags begins with the same character. -/
theorem exists_first_of_firm (hd : d.Valid) (hc : Cuts d source xs last)
    (h : placed xs last = before ++ x :: (inner ++ y :: rest))
    (hf : Site.Firm (Site.ofSource d source)
      (sourceOf (before.map toSegment) x.text ++ x.raw).length
      (sourceOf (inner.map toSegment) y.text)) :
    ∃ z following c t, inner ++ y :: rest = z :: following ∧ z.text = c :: t ∧
      c ∉ Text.margins := by
  obtain ⟨c, t, hs, hm, hout⟩ := hf.first
  cases inner with
  | nil => exact ⟨y, rest, c, t, rfl, hs, hm⟩
  | cons z inner =>
    refine ⟨z, inner ++ y :: rest, ?_⟩
    cases hz : z.text with
    | nil =>
      -- otherwise the tag behind it would begin where the body begins
      have hspot : placed xs last = (before ++ [x]) ++ z :: (inner ++ y :: rest) := by simp [h]
      obtain ⟨hpos, hside⟩ := lt_or_le_of_holds_eq_false hd hc hspot hout
      have hbefore : sourceOf ((before ++ [x]).map toSegment) z.text =
          sourceOf (before.map toSegment) x.text ++ x.raw := by
        rw [hz, List.map_append, sourceOf_append, sourceOf_eq_append (before.map toSegment) x.text]
        simp
      rw [hbefore] at hside
      omega
    | cons c' t' =>
      rw [List.map_cons, sourceOf_cons, hz, List.cons_append] at hs
      obtain ⟨rfl, -⟩ := List.cons.inj hs
      exact ⟨c', t', rfl, rfl, hm⟩

/-- The last text of a body that ends outside all tags ends with the same character. -/
theorem exists_last_of_firm (hd : d.Valid) (hc : Cuts d source xs last)
    (h : placed xs last = before ++ x :: (inner ++ y :: rest))
    (hf : Site.Firm (Site.ofSource d source)
      (sourceOf (before.map toSegment) x.text ++ x.raw).length
      (sourceOf (inner.map toSegment) y.text)) :
    ∃ t c, y.text = t ++ [c] ∧ c ∉ Text.margins := by
  obtain ⟨t, c, hs, hm, hout⟩ := hf.last
  cases inner using List.reverseRecOn with
  | nil => exact ⟨t, c, hs, hm⟩
  | append_singleton inner w _ =>
    cases hy : y.text using List.reverseRecOn with
    | nil =>
      -- otherwise the tag in front of it would end where the body ends
      have hspot : placed xs last = (before ++ x :: inner) ++ w :: (y :: rest) := by simp [h]
      obtain ⟨hpos, hside⟩ := lt_or_le_of_holds_eq_false hd hc hspot hout
      have hbefore : sourceOf ((before ++ x :: inner).map toSegment) w.text =
          sourceOf (before.map toSegment) x.text ++ x.raw ++
            sourceOf (inner.map toSegment) w.text := by
        rw [List.map_append, sourceOf_append, sourceOf_eq_append (before.map toSegment) x.text,
          List.map_cons, sourceOf_cons, sourceOf_eq_append (inner.map toSegment) w.text]
        simp
      have hbody : sourceOf (inner.map toSegment) w.text ++ w.raw = t ++ [c] := by
        rw [← hs, hy, List.map_append, sourceOf_append,
          sourceOf_eq_append (inner.map toSegment) w.text]
        simp
      have hlength := congrArg List.length hbody
      rw [hbefore] at hside
      simp only [List.length_append, List.length_singleton] at hside hlength
      omega
    | append_singleton t' c' _ =>
      rw [hy, sourceOf_eq_append, ← List.append_assoc] at hs
      obtain ⟨-, hcc⟩ := List.append_inj' hs rfl
      obtain rfl := List.cons.inj hcc |>.1
      exact ⟨t', c', rfl, hm⟩

/-- The body between two tags is cut at the tags in it, with the delimiters that the first of the
two is written with. -/
theorem cuts_body (hd : d.Valid) (hc : Cuts d source xs last)
    (h : placed xs last = before ++ x :: (inner ++ y :: rest)) {inverted : Bool} {path : Text}
    (hx : x.tag = .opening inverted path) :
    (d.after (before.map (·.tag))).Valid ∧
      Cuts (d.after (before.map (·.tag))) (sourceOf (inner.map toSegment) y.text)
        (inner.map toSegment) y.text ∧
      ∃ inside, x.raw =
        (d.after (before.map (·.tag))).opening ++ inside ++
          (d.after (before.map (·.tag))).closing := by
  have hreads := (cuts_iff_reads.mp hc).1
  rw [map_toSegment_of_placed h, List.map_append] at hreads
  obtain ⟨hbefore, hbehind⟩ := hreads.split
  have hvalid := hbefore.valid hd
  rw [map_toSegment_map_tag] at hvalid hbehind
  have hsame : x.tag.delimitersAfter (d.after (before.map (·.tag))) =
      d.after (before.map (·.tag)) := by
    rw [hx]
    rfl
  rw [List.map_cons, List.map_append, List.map_cons] at hbehind
  refine ⟨hvalid, ?_, hbehind.exists_raw_eq⟩
  have hcuts := hbehind.cuts_between (by rwa [hsame])
  rwa [hsame] at hcuts

end

end Placed

/-- Where a block of a source comes from: the tag that opens it, written with the delimiters in
force there, and a tag that closes it, with the body between them. -/
structure Block.IsAt (d : Delimiters) (sites : List Site) (b : Block) (x : Site) : Prop where
  opening : x.tag = .opening b.inverted b.path
  raw : ∃ inside, x.raw = b.delimiters.opening ++ inside ++ b.delimiters.closing
  body : ∃ before inner y behind, sites = before ++ x :: (inner ++ y :: behind) ∧
    b.delimiters = d.after (before.map Site.tag) ∧
    y.tag = .closing b.path ∧ y.before = x.before ++ x.raw ++ b.source

namespace Placed.Spot.Encloses

open Segment Mustache.Part

variable {d : Delimiters} {source last : Text} {xs : List Segment} {b : Block} {s : Spot}

lemma isAt (hd : d.Valid) (hc : Cuts d source xs last)
    (h : placed xs last = s.before ++ s.here :: s.behind) (he : Encloses d b s) :
    b.IsAt d (Site.ofSource d source) (s.site last) := by
  obtain ⟨inner, y, rest, children, d', hbehind, hy, hsource, -, -⟩ := he.body
  rw [hbehind] at h
  obtain ⟨-, -, hraw⟩ := cuts_body hd hc h he.opening
  rw [← he.delimiters] at hraw
  refine ⟨he.opening, hraw, ?_⟩
  rw [hc.ofSource_eq, map_toSegment_of_placed h, List.map_append, List.map_cons, List.map_append,
    List.map_cons, sites_append, sites, sites_append, sites]
  refine ⟨_, _, _, _, congrArg₂ _ rfl (congrArg₂ _ ?_ rfl), ?_, hy, ?_⟩
  · rw [Spot.site, sourceOf_eq_append (s.before.map toSegment) s.here.text,
      hbehind]
    simp
  · rw [sites_map_tag, map_toSegment_map_tag]
    exact he.delimiters
  · rw [hsource, sourceOf_eq_append (inner.map toSegment) y.text, Spot.site,
      sourceOf_eq_append (s.before.map toSegment) s.here.text]
    simp

/-- Read on its own, the body of a block nests as it does in its source. -/
theorem exists_ofSource (hd : d.Valid) (hc : Cuts d source xs last)
    (h : placed xs last = s.before ++ s.here :: s.behind) (he : Encloses d b s) :
    ∃ body, ofSource b.delimiters b.source = .ok body ∧
      outline id body = outline id b.children := by
  obtain ⟨inner, y, rest, children, d', hbehind, -, hsource, hn, hchildren⟩ := he.body
  rw [hbehind] at h
  obtain ⟨hvalid, hcuts, -⟩ := cuts_body hd hc h he.opening
  rw [← he.delimiters] at hvalid
  rw [← he.delimiters, ← hsource] at hcuts
  have hsegments : (placed (inner.map toSegment) y.text).map toSegment =
      inner.map fun x => x.toSegment.mapSource id :=
    place_map_toSegment (some []) false _ _
  obtain ⟨parts, hparts, houtline⟩ := hn.exists_of_map_eq (fun _ _ => rfl) hsegments
  refine ⟨_, (ofSource_eq_ok_iff hvalid).mpr ⟨_, _, parts, d', hcuts, hparts, rfl⟩, ?_⟩
  rw [hchildren, outline_append, outline_append, houtline, outline_literal, outline_literal]

/-- If the body of a block begins and ends with plain text and no margin, it even gives the same
parts. -/
theorem ofSource_of_firm (hd : d.Valid) (hc : Cuts d source xs last)
    (h : placed xs last = s.before ++ s.here :: s.behind) (he : Encloses d b s)
    (hf : Site.Firm (Site.ofSource d source) ((s.site last).before ++ (s.site last).raw).length
      b.source) : ofSource b.delimiters b.source = .ok b.children := by
  obtain ⟨inner, y, rest, children, d', hbehind, -, hsource, hn, hchildren⟩ := he.body
  rw [hbehind] at h
  obtain ⟨hvalid, hcuts, -⟩ := cuts_body hd hc h he.opening
  rw [← he.delimiters] at hvalid
  rw [← he.delimiters, ← hsource] at hcuts
  rw [hsource] at hf
  obtain ⟨z, following, c, t, hz, hfirst, hm⟩ := exists_first_of_firm hd hc h hf
  obtain ⟨t', c', hlast, hm'⟩ := exists_last_of_firm hd hc h hf
  obtain ⟨hinner, hkept⟩ := place_between h hz hfirst hm hlast hm'
  rw [hinner] at hn
  refine (ofSource_eq_ok_iff hvalid).mpr ⟨_, _, children, d', hcuts, hn, ?_⟩
  rw [hchildren, hkept]

end Placed.Spot.Encloses

/-- Over a lambda that returns its text, a section whose body compiles to its own parts renders
these against the same stack. -/
theorem renderParts_of_identity {ν : Type} [DecidableEq ν] {b : Block} (hi : b.inverted = false)
    (hb : Part.ofSource b.delimiters b.source = .ok b.children) (env : Setting ν) (depth : Nat)
    (opened : List (Text × ν)) {s : Stack ν} {node : ν} {l : Lambda}
    (hn : s.resolve? env.context b.path = some node) (hl : env.context.lambda? node = some l)
    (ht : l.takesText = true) (ha : ∀ earlier text, l.answer earlier text = .ok text) :
    renderParts env (depth + 1) opened s [b.part] =
      (do modify fun p => { p with calls := ⟨node, l.label, some b.source⟩ :: p.calls }
          renderParts env depth opened s b.children) := by
  have hcall : Run.call env node l b.source =
      (do modify fun p => { p with calls := ⟨node, l.label, some b.source⟩ :: p.calls }
          pure b.source) := by
    simp only [Run.call, ht, Lambda.argument, ha, ↓reduceIte]
    rfl
  have hoccurrence : s.occurrence env.context b.path = .call node l := by
    simp [Stack.occurrence, hn, hl]
  rw [renderParts_succ, Block.part, hi]
  simp only [walk, walkPart, hoccurrence, Beyond.below, Renderer.below, Setting.renderer, hcall,
    bind_assoc, pure_bind, hb, Run.compiled, List.append_nil, bind_pure]

/-- The blocks of a source belong to its opening tags, one by one. Each keeps the delimiters that
its tag is written with, and its source read with these gives parts with the same outline. They are
the same parts if the body begins and ends with plain text and no margin, and over a lambda that
returns its text a section then renders its own parts. -/
theorem Part.forall₂_blocks_ofSource {d : Delimiters} (hd : d.Valid) {source : Text}
    {parts : List Part} (h : ofSource d source = .ok parts) :
    let sites := Site.ofSource d source
    List.Forall₂ (fun b x => b.IsAt d sites x ∧
        (∃ body, ofSource b.delimiters b.source = .ok body ∧
          outline id body = outline id b.children) ∧
        (Site.Firm sites (x.before ++ x.raw).length b.source →
          ofSource b.delimiters b.source = .ok b.children ∧
          (b.inverted = false → ∀ (ν : Type) [DecidableEq ν] (env : Setting ν) (depth : Nat)
            (opened : List (Text × ν)) (s : Stack ν) (node : ν) (l : Lambda),
            s.resolve? env.context b.path = some node → env.context.lambda? node = some l →
            l.takesText = true → (∀ earlier text, l.answer earlier text = .ok text) →
            renderParts env (depth + 1) opened s [b.part] =
              (do modify fun p => { p with calls := ⟨node, l.label, some b.source⟩ :: p.calls }
                  renderParts env depth opened s b.children))))
      (blocks parts) (sites.filter (·.tag.isOpening)) := by
  intro sites
  obtain ⟨xs, last, ps, d', hc, hn, rfl⟩ := (ofSource_eq_ok_iff hd).mp h
  have hplaced : (Segment.placed xs last).map Placed.toSegment = xs :=
    Segment.place_map_toSegment (some []) false xs last
  have hsites : sites.filter (·.tag.isOpening) =
      ((Placed.spots [] (Segment.placed xs last)).filter Placed.Spot.opens).map
        (Placed.Spot.site last) := by
    have hspots := Placed.sites_eq_map_spots [] (Segment.placed xs last) last
    rw [hplaced] at hspots
    rw [show sites = _ from hc.ofSource_eq.trans hspots, List.filter_map]
    rfl
  have henclosed := @Placed.Nests.forall₂_encloses d d d' _ ps hn [] rfl
  rw [blocks_append, Placed.blocks_literal, List.append_nil, hsites, List.forall₂_map_right_iff]
  have hmem : List.Forall₂ (fun s b => (s ∈ Placed.spots [] (Segment.placed xs last)) ∧
      s.Encloses d b)
      ((Placed.spots [] (Segment.placed xs last)).filter Placed.Spot.opens) (blocks ps) :=
    (List.forall₂_and_left _ _).mpr ⟨fun s hs => (List.mem_filter.mp hs).1, henclosed.flip⟩
  refine hmem.flip.imp fun b s ⟨hs, he⟩ => ?_
  have hs := Placed.eq_append_of_mem_spots hs
  refine ⟨he.isAt hd hc hs, he.exists_ofSource hd hc hs, fun hf => ?_⟩
  have hown := he.ofSource_of_firm hd hc hs hf
  exact ⟨hown, fun hi ν _ env depth opened s node l hn hl ht ha =>
    renderParts_of_identity hi hown env depth opened hn hl ht ha⟩

/-- A section between other delimiters than its template begins with, over the identity. -/
theorem Part.forall₂_blocks_ofSource_switched :
    let source : Text := ['{', '{', '=', '<', ' ', '>', '=', '}', '}', '<', '#', 'a', '>', '-',
      '<', 'x', '>', '-', '<', '/', 'a', '>']
    let b : Block := ⟨false, ['a'], ['-', '<', 'x', '>', '-'], ⟨['<'], ['>']⟩,
      [.literal ['-'], .value ['x'] true, .literal ['-']]⟩
    let identity : Lambda := .ofBehaviour [] true .identity
    let env : Setting Bool := ⟨⟨fun _ _ => some true, fun _ => none, fun _ => [], fun _ => false,
      fun _ => false, fun node => if node then some identity else none⟩, none, []⟩
    ofSource .braces source = .ok [.switch b.delimiters, b.part] ∧
      ofSource b.delimiters b.source = .ok b.children ∧
      renderParts env 2 [] (Stack.ofRoot false) [b.part] =
        (do modify fun p => { p with calls := ⟨true, [], some b.source⟩ :: p.calls }
            renderParts env 1 [] (Stack.ofRoot false) b.children) := by
  intro source b identity env
  have h : ofSource .braces source = .ok [.switch b.delimiters, b.part] := by decide +kernel
  let x : Site := ⟨source.take 9, ['<', '#', 'a', '>'], .opening false ['a'], source.drop 13⟩
  have hsites : (Site.ofSource .braces source).filter (·.tag.isOpening) = [x] := by decide +kernel
  have hblocks := forall₂_blocks_ofSource Delimiters.braces_valid h
  dsimp only at hblocks
  rw [show blocks [.switch b.delimiters, b.part] = [b] from rfl, hsites] at hblocks
  obtain ⟨⟨-, -, hown⟩, -⟩ := List.forall₂_cons.mp hblocks
  have hfirm : Site.Firm (Site.ofSource .braces source) (x.before ++ x.raw).length b.source :=
    ⟨⟨'-', ['<', 'x', '>', '-'], rfl, by decide, by decide +kernel⟩,
      ⟨['-', '<', 'x', '>'], '-', rfl, by decide, by decide +kernel⟩⟩
  obtain ⟨hbody, hrender⟩ := hown hfirm
  exact ⟨h, hbody, hrender rfl Bool env 1 [] (Stack.ofRoot false) true identity rfl rfl rfl
    fun _ _ => rfl⟩

end Mustache
