import Mustache.Proofs.Placed

/-! Nesting, said once for all sources: which lists of placed segments nest, and to which parts.
Main statement: a source compiles exactly when it can be cut into segments that nest. -/
namespace Mustache

namespace Placed

/-- Plain text as a part, if there is any. -/
def literal (s : Text) : List Part :=
  if s = [] then [] else [.literal s]

/-- What a tag leaves that neither opens nor closes a block. -/
def own? (x : Placed) : Option (List Part) :=
  match x.tag with
  | .value path escaped => some [.value path escaped]
  | .inclusion name => some [.inclusion name (x.alone?.getD [])]
  | .comment => some []
  | .switch d => some [.switch d]
  | .opening _ _ | .closing _ => none

/-- The parts that placed segments nest to, and the delimiters in force behind them. -/
inductive Nests : Delimiters → List Placed → List Part → Delimiters → Prop
  | nil {d : Delimiters} : Nests d [] [] d
  | leaf {d d' : Delimiters} {x : Placed} {xs : List Placed} {own parts : List Part}
      (hx : x.own? = some own) (hr : Nests (x.tag.delimitersAfter d) xs parts d') :
      Nests d (x :: xs) (literal x.kept ++ own ++ parts) d'
  | block {d d₁ d₂ : Delimiters} {x y : Placed} {inner xs : List Placed} {inverted : Bool}
      {path : Text} {children parts : List Part}
      (hx : x.tag = .opening inverted path) (hy : y.tag = .closing path)
      (hi : Nests d inner children d₁) (hr : Nests d₁ xs parts d₂) :
      Nests d (x :: (inner ++ y :: xs))
        (literal x.kept ++
          .block inverted path (Segment.sourceOf (inner.map toSegment) y.text) d
            (children ++ literal y.kept) :: parts) d₂

lemma Nests.append {d d₁ d₂ : Delimiters} {xs ys : List Placed} {ps qs : List Part}
    (hx : Nests d xs ps d₁) (hy : Nests d₁ ys qs d₂) : Nests d (xs ++ ys) (ps ++ qs) d₂ := by
  induction hx with
  | nil => exact hy
  | leaf h hr ih => simpa using Nests.leaf h (ih hy)
  | block hopen hclose hi hr _ ih =>
    have := Nests.block hopen hclose hi (ih hy)
    simpa using this

/-- Of the text in front of the first tag, segments that nest leave what is kept of it. -/
theorem Nests.exists_cons_of_eq {d d' : Delimiters} {x y : Placed} {xs : List Placed}
    {ps : List Part} (h : Nests d (x :: xs) ps d') (htag : y.tag = x.tag)
    (halone : y.alone? = x.alone?) :
    ∃ qs, ps = literal x.kept ++ qs ∧ Nests d (y :: xs) (literal y.kept ++ qs) d' := by
  cases h with
  | @leaf _ _ _ _ own parts hx hr =>
    have hy : y.own? = some own := by
      rw [← hx, own?, own?, htag, halone]
    refine ⟨own ++ parts, List.append_assoc .., ?_⟩
    rw [← List.append_assoc]
    exact .leaf hy (htag ▸ hr)
  | block hx hclose hi hr => exact ⟨_, rfl, .block (htag.trans hx) hclose hi hr⟩

end Placed

namespace Nesting

open Placed

/-- The source on the innermost level. -/
def text (n : Nesting) : Text := n.source.reverse.flatten

/-- How far nesting has come behind some segments: on each level the parts so far are those that
its segments nest to. -/
inductive Reached (d : Delimiters) : List Placed → Nesting → Prop
  | root {xs : List Placed} {n : Nesting} (hn : n.blocks = [])
      (h : Nests d xs n.parts.reverse n.delimiters) : Reached d xs n
  | inside {before inner : List Placed} {x : Placed} {n outer : Nesting} {b : OpenBlock}
      (hn : n.blocks = b :: outer.blocks) (hb : Reached d before outer)
      (hd : b.delimiters = outer.delimiters) (hx : x.tag = .opening b.inverted b.path)
      (hp : b.parts = (literal x.kept).reverse ++ outer.parts)
      (ho : b.source.reverse.flatten = outer.text ++ (x.text ++ x.raw))
      (hi : Nests b.delimiters inner n.parts.reverse n.delimiters)
      (hs : n.text = Segment.sourceOf (inner.map toSegment) []) : Reached d (before ++ x :: inner) n

/-- Segments that nest by themselves add their parts to the innermost level. -/
theorem Reached.extend {d d' : Delimiters} {xs ys : List Placed} {qs : List Part}
    {n : Nesting} (h : Reached d xs n) (hy : Nests n.delimiters ys qs d') (source : List Text)
    (hs : source.reverse.flatten = n.text ++ Segment.sourceOf (ys.map toSegment) []) :
    Reached d (xs ++ ys) ⟨d', qs.reverse ++ n.parts, source, n.blocks⟩ := by
  cases h with
  | root hn h =>
    refine .root hn ?_
    simpa using h.append hy
  | inside hn hb hd hx hp ho hi hsrc =>
    rw [List.append_assoc, List.cons_append]
    refine .inside hn hb hd hx hp ho ?_ ?_
    · simpa using hi.append hy
    · rw [text, hs, hsrc, List.map_append, ← Segment.sourceOf_append]

/-- Plain text adds what is kept of it. -/
theorem foldlM_textItem (n : Nesting) (afterLone beforeLone : Bool) (s : Text) :
    ∃ source, (textItem s (Layout.keep afterLone beforeLone s)).foldlM step n =
        .ok ⟨n.delimiters, (literal (Layout.keep afterLone beforeLone s)).reverse ++ n.parts,
          source, n.blocks⟩ ∧
      source.reverse.flatten = n.text ++ s := by
  unfold textItem literal
  split
  · rename_i hs
    subst hs
    exact ⟨n.source, by simp, by simp [text]⟩
  · refine ⟨s :: n.source, ?_, by simp [text]⟩
    by_cases hk : Layout.keep afterLone beforeLone s = []
    · simp [step, hk, skip]
    · simp [step, hk, add]

/-- A tag that neither opens nor closes a block adds its own parts. -/
theorem step_of_own? (n : Nesting) {x : Placed} {own : List Part} (h : x.own? = some own)
    (p : Position) :
    step n (.tag p x.raw x.tag x.alone?) =
      .ok ⟨x.tag.delimitersAfter n.delimiters, own.reverse ++ n.parts, x.raw :: n.source,
        n.blocks⟩ := by
  unfold own? at h
  split at h <;> simp_all [step, add, skip, Tag.delimitersAfter] <;> subst h <;> rfl

lemma own?_eq_none_iff {x : Placed} :
    x.own? = none ↔ (∃ inverted path, x.tag = .opening inverted path) ∨
      ∃ name, x.tag = .closing name := by
  unfold own?
  split <;> simp_all

/-- Closing a block that was reached nests it into the level around it. -/
theorem Reached.leave {d : Delimiters} {xs : List Placed} {n m : Nesting} {y : Placed}
    {name : Text} {source : List Text} {p : Position} (h : Reached d xs n)
    (hy : y.tag = .closing name) (hs : source.reverse.flatten = n.text ++ y.text)
    (hm : Nesting.leave ⟨n.delimiters, (literal y.kept).reverse ++ n.parts, source, n.blocks⟩ name p
      y.raw = .ok m) : Reached d (xs ++ [y]) m := by
  cases h with
  | root hn h => simp [Nesting.leave, hn] at hm
  | @inside before inner x n outer b hn hb hd hx hp ho hi hsrc =>
    simp only [Nesting.leave, hn] at hm
    split at hm
    · rename_i hpath
      subst hpath
      obtain rfl := by simpa using hm
      have hsource : source.reverse.flatten = Segment.sourceOf (inner.map toSegment) y.text := by
        rw [hs, hsrc, ← Segment.sourceOf_eq_append]
      have hblock := Nests.block hx hy hi .nil
      rw [hd] at hblock
      have := hb.extend hblock (y.raw :: source.reverse.flatten :: b.source) (by
        simp [ho, hsource, Segment.sourceOf_append,
          Segment.sourceOf_eq_append (inner.map toSegment) y.text])
      simpa [hp, hsource, hd] using this
    · simp at hm

/-- One more segment. -/
theorem Reached.step {d : Delimiters} {xs : List Placed} {n m : Nesting} {x : Placed}
    {p : Position} (h : Reached d xs n) (hm : (items p [x]).foldlM step n = .ok m) :
    Reached d (xs ++ [x]) m := by
  obtain ⟨source, ht, hs⟩ := foldlM_textItem n x.afterLone x.alone?.isSome x.text
  obtain ⟨n', hn', hstep⟩ := foldlM_append_eq_ok_iff.mp hm
  obtain rfl := Except.ok.inj (ht.symm.trans hn')
  simp only [items, List.foldlM_cons, List.foldlM_nil, bind_pure] at hstep
  cases hown : x.own? with
  | some own =>
    rw [step_of_own? _ hown] at hstep
    obtain rfl := Except.ok.inj hstep
    have := h.extend (.leaf hown .nil) (x.raw :: source) (by simp [hs])
    simpa [Placed.kept] using this
  | none =>
    rcases own?_eq_none_iff.mp hown with ⟨inverted, path, hx⟩ | ⟨name, hx⟩
    · rw [hx] at hstep
      obtain rfl := Except.ok.inj hstep
      exact @Reached.inside d xs [] x _ n _ rfl h rfl hx rfl (by simp [hs]) .nil rfl
    · rw [hx] at hstep
      exact h.leave hx hs hstep

/-- A whole run of nesting. -/
theorem Reached.run {d : Delimiters} {xs ys : List Placed} {n m : Nesting} {p : Position}
    (h : Reached d xs n) (hm : (items p ys).foldlM Nesting.step n = .ok m) :
    Reached d (xs ++ ys) m := by
  induction ys generalizing xs n p with
  | nil =>
    obtain rfl := Except.ok.inj hm
    simpa using h
  | cons y ys ih =>
    rw [show y :: ys = [y] ++ ys from rfl, items_append] at hm
    obtain ⟨n', hy, hys⟩ := foldlM_append_eq_ok_iff.mp hm
    simpa using ih (h.step hy) hys

/-- Segments that nest are taken in one after the other without a fault. -/
theorem foldlM_items_of_nests {d d' : Delimiters} {xs : List Placed} {parts : List Part}
    (h : Nests d xs parts d') (p : Position) (n : Nesting) (hn : n.delimiters = d) :
    ∃ source, (items p xs).foldlM step n = .ok ⟨d', parts.reverse ++ n.parts, source, n.blocks⟩ ∧
      source.reverse.flatten = n.text ++ Segment.sourceOf (xs.map toSegment) [] := by
  induction h generalizing p n with
  | nil => exact ⟨n.source, by simp [items, ← hn], by simp [text]⟩
  | @leaf d d' x xs own parts hx hr ih =>
    obtain ⟨s₁, ht, hs₁⟩ := foldlM_textItem n x.afterLone x.alone?.isSome x.text
    obtain ⟨s₂, hf, hs₂⟩ := ih ((p.advance x.text).advance x.raw)
      ⟨x.tag.delimitersAfter n.delimiters, own.reverse ++ ((literal x.kept).reverse ++ n.parts),
        x.raw :: s₁, n.blocks⟩ (by rw [hn])
    refine ⟨s₂, ?_, ?_⟩
    · rw [items, List.foldlM_append, Placed.kept, ht, ok_bind, List.foldlM_cons,
        step_of_own? _ hx, ok_bind]
      simpa [Placed.kept] using hf
    · simp [hs₂, text, hs₁]
  | @block d d₁ d₂ x y inner xs inverted path children parts hx hy hi hr ih₁ ih₂ =>
    -- the block is opened, its children are taken in, and it is closed around them
    obtain ⟨s₁, ht₁, hs₁⟩ := foldlM_textItem n x.afterLone x.alone?.isSome x.text
    let outer : OpenBlock := ⟨inverted, path, p.advance x.text, n.delimiters,
      (literal x.kept).reverse ++ n.parts, x.raw :: s₁⟩
    obtain ⟨s₂, hf₂, hs₂⟩ := ih₁ ((p.advance x.text).advance x.raw)
      ⟨n.delimiters, [], [], outer :: n.blocks⟩ hn
    obtain ⟨s₃, ht₃, hs₃⟩ := foldlM_textItem ⟨d₁, children.reverse ++ [], s₂, outer :: n.blocks⟩
      y.afterLone y.alone?.isSome y.text
    have hsource : s₃.reverse.flatten = Segment.sourceOf (inner.map toSegment) y.text := by
      rw [hs₃, Segment.sourceOf_eq_append]
      simp [text, hs₂]
    let q := positionAfter ((p.advance x.text).advance x.raw) inner
    obtain ⟨s₄, hf₄, hs₄⟩ := ih₂ ((q.advance y.text).advance y.raw)
      ⟨d₁, .block inverted path (Segment.sourceOf (inner.map toSegment) y.text) n.delimiters
          (children ++ literal y.kept) :: outer.parts,
        y.raw :: Segment.sourceOf (inner.map toSegment) y.text :: outer.source, n.blocks⟩ rfl
    refine ⟨s₄, ?_, ?_⟩
    · refine foldlM_append_eq_ok_iff.mpr ⟨_, ht₁, ?_⟩
      rw [List.foldlM_cons, hx]
      change (items _ (inner ++ y :: xs)).foldlM step ⟨n.delimiters, [], [], outer :: n.blocks⟩ = _
      rw [items_append]
      refine foldlM_append_eq_ok_iff.mpr ⟨_, hf₂, foldlM_append_eq_ok_iff.mpr ⟨_, ht₃, ?_⟩⟩
      rw [List.foldlM_cons, hy]
      simpa [step, leave, outer, q, hn, hsource, Placed.kept] using hf₄
    · simp [hs₄, text, outer, hs₁, Segment.sourceOf_append,
          Segment.sourceOf_eq_append (inner.map toSegment) y.text]

/-- The items of a source nest exactly as its segments do. -/
theorem ofItems_eq_ok_iff {d : Delimiters} {p : Position} {xs : List Placed} {last : Text}
    {afterLone : Bool} {parts : List Part} :
    ofItems d (items p xs ++ textItem last (Layout.keep afterLone false last)) = .ok parts ↔
      ∃ ps d', Nests d xs ps d' ∧ parts = ps ++ literal (Layout.keep afterLone false last) := by
  rw [ofItems, bind_eq_ok_iff]
  constructor
  · rintro ⟨n, hn, hf⟩
    obtain ⟨m, hm, hlast⟩ := foldlM_append_eq_ok_iff.mp hn
    obtain ⟨source, ht, -⟩ := foldlM_textItem m afterLone false last
    obtain rfl := Except.ok.inj (ht.symm.trans hlast)
    have hr : Reached d xs m := by
      simpa using (@Reached.root d [] (start d) rfl .nil).run hm
    cases hr with
    | root hb h =>
      refine ⟨_, _, h, ?_⟩
      simpa [finish, hb, eq_comm] using hf
    | inside hb => simp [finish, hb] at hf
  · rintro ⟨ps, d', h, rfl⟩
    obtain ⟨source, hf, -⟩ := foldlM_items_of_nests h p (start d) rfl
    obtain ⟨source', ht, -⟩ := foldlM_textItem
      ⟨d', ps.reverse ++ (start d).parts, source, (start d).blocks⟩ afterLone false last
    exact ⟨_, foldlM_append_eq_ok_iff.mpr ⟨_, hf, ht⟩, by simp [finish, start]⟩

end Nesting

namespace Segment

/-- The segments of a whole source in their places. -/
def placed (xs : List Segment) (last : Text) : List Placed :=
  place (some []) false xs last

/-- What is kept of the text behind the last tag of a source. -/
def keptLast (xs : List Segment) (last : Text) : Text :=
  Layout.keep (Placed.afterLast false (placed xs last)) false last

end Segment

/-- A source compiles exactly when it can be cut into segments that nest. -/
theorem Part.ofSource_eq_ok_iff {d : Delimiters} (hd : d.Valid) {source : Text}
    {parts : List Part} :
    Part.ofSource d source = .ok parts ↔
      ∃ xs last ps d', Segment.Cuts d source xs last ∧
        Placed.Nests d (Segment.placed xs last) ps d' ∧
        parts = ps ++ Placed.literal (Segment.keptLast xs last) := by
  have key {xs : List Segment} {last : Text} (h : Segment.Cuts d source xs last) :
      Part.ofSource d source = .ok parts ↔
        ∃ ps d', Placed.Nests d (Segment.placed xs last) ps d' ∧
          parts = ps ++ Placed.literal (Segment.keptLast xs last) := by
    rw [Part.ofSource, Tokens.ofText, Tokens.scan_of_cuts h]
    simp only
    rw [Layout.ofTokens, ← h.sourceOf_eq, Layout.place_tokens]
    exact Nesting.ofItems_eq_ok_iff
  constructor
  · intro h
    have hscan : (Tokens.scan d .start source).fault? = none := by
      unfold Part.ofSource at h
      split at h
      · simp_all [Tokens.ofText]
      · simp at h
    obtain ⟨xs, last, hc⟩ := Tokens.exists_cuts_of_scan hd hscan
    obtain ⟨ps, d', hn, hp⟩ := (key hc).mp h
    exact ⟨xs, last, ps, d', hc, hn, hp⟩
  · rintro ⟨xs, last, ps, d', hc, hn, hp⟩
    exact (key hc).mpr ⟨ps, d', hn, hp⟩

end Mustache
