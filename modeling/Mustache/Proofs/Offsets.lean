import Mustache.Proofs.Around

/-! Parsing by offsets: plain texts, indents and the sources of blocks are slices that are cut out
of a source, each of which may fail. None does, and the parts are those of the source. -/
namespace Mustache

open Text Layout

/-- A block whose closing tag is still to come, by the offsets where its tag starts and stops, with
the parts before it on its own level, the newest first. -/
structure OpenStretch where
  inverted : Bool
  path : Text
  start : Nat
  stop : Nat
  delimiters : Delimiters
  parts : List Part
  deriving Repr

/-- How far a source is nested: the delimiters in force, the parts of the innermost level, the
newest first, and the open blocks, the innermost first. -/
structure Levels where
  delimiters : Delimiters
  parts : List Part
  blocks : List OpenStretch
  deriving Repr

namespace Levels

def start (d : Delimiters) : Levels := ⟨d, [], []⟩

def add (m : Levels) (part : Part) : Levels :=
  { m with parts := part :: m.parts }

/-- Closes the innermost block, whose source is cut out between its tags. -/
def leave? (source : Text) (m : Levels) (name : Text) (start : Nat) :
    Option (Except SyntaxError Levels) :=
  match m.blocks with
  | [] => do return .error (.unbalancedSection name (← Position.at? source start))
  | b :: blocks =>
    if b.path = name then do
      let inner ← source.slice? b.stop start
      return .ok ⟨m.delimiters,
        .block b.inverted b.path inner b.delimiters m.parts.reverse :: b.parts, blocks⟩
    else do return .error (.unbalancedSection name (← Position.at? source start))

/-- Takes in a tag, given the line that it stands alone on. The indent of an inclusion is cut out of
that line. -/
def tag? (source : Text) (m : Levels) (t : Stretch) (line? : Option (Nat × Nat)) :
    Tag → Option (Except SyntaxError Levels)
  | .value path escaped => some (.ok (m.add (.value path escaped)))
  | .opening inverted path => some (.ok ⟨m.delimiters, [],
      ⟨inverted, path, t.start, t.stop, m.delimiters, m.parts⟩ :: m.blocks⟩)
  | .closing name => m.leave? source name t.start
  | .inclusion name => do
    let indent ← line?.elim (some []) fun line => source.slice? line.1 t.start
    return .ok (m.add (.inclusion name indent))
  | .comment => some (.ok m)
  | .switch d => some (.ok ({ m with delimiters := d }.add (.switch d)))

/-- Where plain text ends that stops in front of some stretches: where the line of the first one
starts, if that stands alone. -/
def textStop (stop : Nat) (ts : List (Stretch × Option (Nat × Nat))) : Nat :=
  (ts.head?.bind Prod.snd).elim stop Prod.fst

/-- Takes in stretches, given their lines. Plain text is cut out from behind the line of the tag
before it, or that tag, up to the line of the tag behind it. -/
def follow? (source : Text) : Nat → Levels → List (Stretch × Option (Nat × Nat)) →
    Option (Except SyntaxError Levels)
  | _, m, [] => some (.ok m)
  | behind, m, (t, line?) :: ts =>
    match t.tag? with
    | none =>
      let start := max t.start behind
      let stop := textStop t.stop ts
      if start < stop then do
        let text ← source.slice? start stop
        follow? source behind (m.add (.literal text)) ts
      else follow? source behind m ts
    | some tag => do
      match ← m.tag? source t line? tag with
      | .error e => return .error e
      | .ok m => follow? source (line?.elim t.stop Prod.snd) m ts

/-- The parts of a source that ends here. -/
def finish? (source : Text) (m : Levels) : Option (Except SyntaxError (List Part)) :=
  match m.blocks with
  | [] => some (.ok m.parts.reverse)
  | b :: _ => do return .error (.unclosedSection b.path (← Position.at? source b.start))

end Levels

/-- The parts of a source, given what is read of it by offsets. -/
def Part.sliced? (d : Delimiters) (source : Text) (items : List (Except SyntaxError Stretch)) :
    Option (Except SyntaxError (List Part)) :=
  match items.mapM id with
  | .error e => some (.error e)
  | .ok ts => do
    let ts ← ts.mapM fun t => do return (t, ← t.line? source)
    match ← (Levels.start d).follow? source 0 ts with
    | .error e => return .error e
    | .ok m => m.finish? source

namespace Levels

/-- Open blocks by offsets, and by the texts that stand before them on their levels: behind a text,
of which the end stands on the innermost level. -/
inductive Spans : Text → Text → List OpenStretch → List OpenBlock → Prop
  | root {before text : Text} : Spans before text [] []
  | inside {before raw text : Text} {b : OpenBlock} {blocks : List OpenStretch}
      {blocks' : List OpenBlock} (hstart : b.start = Position.start.advance before)
      (h : Spans (before ++ raw) b.source.reverse.flatten blocks blocks') :
      Spans (before ++ raw ++ text) text
        (⟨b.inverted, b.path, utf8Length before, utf8Length (before ++ raw),
          b.delimiters, b.parts⟩ ::
          blocks) (b :: blocks')

/-- Nesting by offsets, and by texts, behind the same text. -/
structure Fits (before : Text) (m : Levels) (n : Nesting) : Prop where
  delimiters : m.delimiters = n.delimiters
  parts : m.parts = n.parts
  blocks : Spans before n.text m.blocks n.blocks

/-- Both ways of nesting come to the same: to the same error, or to levels that fit. -/
inductive Agree (before : Text) :
    Option (Except SyntaxError Levels) → Except SyntaxError Nesting → Prop
  | ok {m : Levels} {n : Nesting} (h : Fits before m n) : Agree before (some (.ok m)) (.ok n)
  | error {e : SyntaxError} : Agree before (some (.error e)) (.error e)

lemma Spans.add {before text : Text} {blocks : List OpenStretch} {blocks' : List OpenBlock}
    (h : Spans before text blocks blocks') (raw : Text) :
    Spans (before ++ raw) (text ++ raw) blocks blocks' := by
  cases h with
  | root => exact .root
  | inside hstart h =>
    rw [List.append_assoc]
    exact .inside hstart h

variable {before raw after : Text} {m : Levels} {n : Nesting}

lemma Fits.skip (h : Fits before m n) (raw : Text) : Fits (before ++ raw) m (n.skip raw) := by
  refine ⟨h.delimiters, h.parts, ?_⟩
  have hspans := h.blocks.add raw
  rwa [Nesting.text, Nesting.skip, List.reverse_cons, List.flatten_append, List.flatten_singleton]

lemma Fits.add (h : Fits before m n) (part : Part) (raw : Text) :
    Fits (before ++ raw) (m.add part) (n.add part raw) :=
  ⟨h.delimiters, congrArg (part :: ·) h.parts, (h.skip raw).blocks⟩

/-- Closing a block cuts out its source, which ends where the closing tag starts. -/
theorem Fits.leave {source : Text} (hs : source = before ++ (raw ++ after)) (h : Fits before m n)
    (name : Text) : Agree (before ++ raw) (m.leave? source name (utf8Length before))
      (n.leave name (Position.start.advance before) raw) := by
  have hposition : Position.at? source (utf8Length before) =
      some (Position.start.advance before) := hs ▸ Position.at?_append ..
  have htext : n.source.reverse.flatten = n.text := rfl
  obtain ⟨hd, hp, hspans⟩ := h
  rw [leave?, Nesting.leave, hposition]
  generalize m.blocks = blocks, n.blocks = blocks' at hspans
  generalize n.text = text at hspans htext
  cases hspans with
  | root => exact .error
  | @inside outer tag _ b blocks blocks' hstart hspans =>
    have hinner : source.slice? (utf8Length (outer ++ tag)) (utf8Length (outer ++ tag ++ text)) =
        some text :=
      slice?_of_eq (outer ++ tag) text (raw ++ after) (by rw [hs, List.append_assoc]) rfl
        (utf8Length_append _ _)
    dsimp only
    split
    · rw [hinner]
      refine .ok ⟨hd, ?_, ?_⟩
      · rw [htext, hp]
      · have hspans' := (hspans.add text).add raw
        simpa [Nesting.text, htext] using hspans'
    · exact .error

/-- One more tag is taken in alike, given the line that is found around it. -/
theorem Fits.tag {x : Site} {source : Text} (hs : source = x.before ++ (x.raw ++ x.after))
    (h : Fits x.before m n) : Agree (x.before ++ x.raw) (m.tag? source x.stretch x.line? x.tag)
      (n.step (.tag (Position.start.advance x.before) x.raw x.tag x.alone?)) := by
  cases htag : x.tag with
  | value path escaped => exact .ok (h.add _ _)
  | opening inverted path =>
    refine .ok ⟨h.delimiters, rfl, ?_⟩
    let block : OpenBlock := ⟨inverted, path, Position.start.advance x.before, n.delimiters,
      n.parts, x.raw :: n.source⟩
    have hspans := @Spans.inside x.before x.raw [] block m.blocks n.blocks rfl (h.skip x.raw).blocks
    rw [List.append_nil] at hspans
    simpa [Site.stretch, block, Nesting.enter, Nesting.text, h.delimiters, h.parts] using hspans
  | closing name => exact h.leave hs name
  | inclusion name =>
    have hindent := Site.slice?_indent hs
    rw [tag?, Site.stretch, hindent]
    exact .ok (h.add _ _)
  | comment => exact .ok (h.skip _)
  | switch d => exact .ok ⟨rfl, congrArg (Part.switch d :: ·) h.parts, (h.skip _).blocks⟩

/-- Tokens by their offsets, each with the line that it stands alone on. -/
def lined (source : Text) (ts : List Token) : List (Stretch × Option (Nat × Nat)) :=
  ts.map fun t => (t.stretch, (t.stretch.line? source).join)

/-- What is kept of plain text is cut out from behind what the tag before it takes up to what the
tag behind it takes. -/
theorem Fits.text {source text rest kept gone : Text} {k : Nat}
    {ts : List (Stretch × Option (Nat × Nat))} (hs : source = before ++ (text ++ rest))
    (h : Fits before m n) (hk : utf8Length (text.take k) = k) (hkept : kept ++ gone = text.drop k)
    (hstop : textStop (utf8Length (before ++ text)) ts =
      utf8Length (before ++ text) - utf8Length gone) :
    ∃ m' n', (Placed.textItem text kept).foldlM Nesting.step n = .ok n' ∧
      Fits (before ++ text) m' n' ∧
      follow? source (utf8Length before + k) m
          (lined source (Segment.textToken (Position.start.advance before) text) ++ ts) =
        follow? source (utf8Length before + k) m' ts := by
  by_cases htext : text = []
  · subst htext
    refine ⟨m, n, rfl, ?_, rfl⟩
    rwa [List.append_nil]
  · have hsplit : text = text.take k ++ (kept ++ gone) := by rw [hkept, List.take_append_drop]
    have hlength : utf8Length text = k + (utf8Length kept + utf8Length gone) := by
      rw [← utf8Length_append kept, ← hk, ← utf8Length_append, ← hsplit]
    have hslice : source.slice? (utf8Length before + k)
        (utf8Length (before ++ text) - utf8Length gone) = some kept := by
      apply slice?_of_eq (before ++ text.take k) kept (gone ++ rest)
      · rw [hs, List.append_assoc, ← List.append_assoc kept, ← List.append_assoc (text.take k),
          ← hsplit]
      · rw [utf8Length_append, hk]
      · rw [utf8Length_append, utf8Length_append, hk]
        omega
    rw [Segment.textToken, if_neg htext, Placed.textItem, if_neg htext, lined, List.map_singleton,
      Token.stretch_advance, List.singleton_append, follow?, hstop,
      Nat.max_eq_right (Nat.le_add_right (utf8Length before) k)]
    by_cases hne : kept = []
    · subst hne
      refine ⟨m, n.skip text, rfl, h.skip text, ?_⟩
      rw [if_neg]
      rw [utf8Length_append]
      rw [utf8Length_nil] at hlength
      omega
    · have hpos := utf8Length_pos hne
      refine ⟨m.add (.literal kept), n.add (.literal kept) text, ?_, h.add _ text, ?_⟩
      · simp [Nesting.step, hne]
      · rw [if_pos, hslice]
        · rfl
        · rw [utf8Length_append]
          omega

lemma follow?_tag (source : Text) (behind : Nat) (m : Levels) (x : Site)
    (line? : Option (Nat × Nat)) (ts : List (Stretch × Option (Nat × Nat))) :
    follow? source behind m ((x.stretch, line?) :: ts) =
      (m.tag? source x.stretch line? x.tag).bind fun
        | .error e => some (.error e)
        | .ok m => follow? source (line?.elim (utf8Length (x.before ++ x.raw)) Prod.snd) m ts :=
  rfl

/-- What follows on levels that fit agrees, and an error is passed on by both. -/
theorem Agree.bind {whole : Text} {r : Option (Except SyntaxError Levels)}
    {r' : Except SyntaxError Nesting} {f : Levels → Option (Except SyntaxError Levels)}
    {f' : Nesting → Except SyntaxError Nesting} (h : Agree before r r')
    (hf : ∀ m n, Fits before m n → Agree whole (f m) (f' n)) :
    Agree whole (r.bind fun
      | .error e => some (.error e)
      | .ok m => f m) (r' >>= f') := by
  cases h with
  | ok h => exact hf _ _ h
  | error => exact .error

lemma lined_cons (source : Text) (t : Token) (ts : List Token) :
    lined source (t :: ts) = (t.stretch, (t.stretch.line? source).join) :: lined source ts := rfl

lemma lined_append (source : Text) (ts us : List Token) :
    lined source (ts ++ us) = lined source ts ++ lined source us :=
  List.map_append

/-- Tokens that cut a source into segments are taken in alike, from behind what the tag in front of
them takes with its line. -/
theorem follow?_agree {source last : Text} {xs : List Segment} (hx : ∀ x ∈ xs, Text.Solid x.raw)
    {afterLone : Bool} (hs : source = before ++ Segment.sourceOf xs last)
    (hb : before = [] ∨ ∃ u c, before = u ++ [c] ∧ Text.isAsciiSpace c = false)
    (ha : afterLone = true → (blankLine? (Segment.sourceOf xs last)).isSome)
    (h : Fits before m n) {p : Position} (hp : Position.start.advance before = p) :
    Agree source
      (follow? source (utf8Length before + lineEnd afterLone (Segment.sourceOf xs last)) m
        (lined source (Segment.tokens p xs last)))
      ((Layout.place (Lead.advance (some []) before) afterLone (Segment.sourceOf xs last)
        (Segment.tokens p xs last)).foldlM Nesting.step n) := by
  subst hp
  induction xs generalizing before afterLone m n with
  | nil =>
    have hs' : source = before ++ (last ++ []) := by rwa [List.append_nil]
    have hkept : keep afterLone false last ++ [] = last.drop (lineEnd afterLone last) :=
      List.append_nil _
    have hstop : textStop (utf8Length (before ++ last)) [] =
        utf8Length (before ++ last) - utf8Length [] := rfl
    obtain ⟨m', n', hn, hfits, hm⟩ := h.text hs' (utf8Length_take_lineEnd ha) hkept hstop
    rw [List.append_nil] at hm
    rw [Segment.sourceOf, Segment.tokens, hm, Layout.place_textToken, hn, hs]
    exact .ok hfits
  | cons x xs ih =>
    let site : Site := ⟨before ++ x.text, x.raw, x.tag, Segment.sourceOf xs last⟩
    have hsolid := hx x List.mem_cons_self
    obtain ⟨hle, hkept⟩ := @Site.keep_append_indent before x.text x.raw (Segment.sourceOf xs last)
      x.tag afterLone hsolid hb ha
    have hk := utf8Length_take_lineEnd ha
    rw [Segment.sourceOf, List.take_append_of_le_length hle] at hk
    have hsite : source = site.before ++ (site.raw ++ site.after) := by
      rw [hs, Segment.sourceOf, ← List.append_assoc]
    have hposition : (Position.start.advance before).advance x.text =
        Position.start.advance site.before := (Position.advance_append ..).symm
    have hstretch : Token.stretch ⟨Position.start.advance site.before, x.raw, some x.tag⟩ =
        site.stretch := Token.stretch_advance ..
    have hlined (ts : List Token) : lined source (⟨Position.start.advance site.before, x.raw,
        some x.tag⟩ :: ts) = (site.stretch, site.line?) :: lined source ts := by
      rw [lined_cons, hstretch, Site.line?_stretch hsite, Option.join_some]
    have halone : standsAlone? ((Lead.advance (some []) before).advance x.text) x.tag
        (Segment.sourceOf xs last) = site.alone? := by
      rw [← Lead.advance_append]
      exact site.standsAlone?_eq
    rw [Segment.sourceOf, Segment.tokens, hposition, lined_append, hlined,
      Layout.place_textToken_append]
    dsimp only
    rw [halone, site.alone?_isSome]
    have hstop : textStop (utf8Length (before ++ x.text)) ((site.stretch, site.line?) ::
        lined source (Segment.tokens ((Position.start.advance site.before).advance x.raw)
          xs last)) =
          utf8Length (before ++ x.text) - utf8Length site.indent :=
      site.line?_start
    obtain ⟨m', n', hn, hfits, hm⟩ := h.text hs hk hkept hstop
    rw [hm, List.foldlM_append, hn, ok_bind, List.foldlM_cons]
    rw [follow?_tag, site.line?_stop]
    refine (Fits.tag hsite hfits).bind fun m'' n'' hfits' => ?_
    have hlead : (Lead.advance (some []) before).advance x.text =
        Lead.advance (some []) site.before := (Lead.advance_append ..).symm
    rw [← Position.advance_append, hlead, ← Lead.advance_append]
    obtain ⟨u, c, hraw, hc⟩ := hsolid.last
    refine ih (fun y hy => hx y (List.mem_cons_of_mem x hy)) ?_ (.inr ⟨site.before ++ u, c, ?_, hc⟩)
      ?_ hfits'
    · exact hsite.trans (List.append_assoc ..).symm
    · exact (congrArg (site.before ++ ·) hraw).trans (List.append_assoc ..).symm
    · intro hlone
      have halone : site.Alone := of_decide_eq_true hlone
      exact halone.2.2

/-- What is left open is told alike. -/
theorem Fits.finish {source : Text} (h : Fits source m n) : m.finish? source = some n.finish := by
  obtain ⟨-, hp, hspans⟩ := h
  rw [finish?, Nesting.finish, hp]
  generalize m.blocks = blocks, n.blocks = blocks', n.text = text at hspans
  cases hspans with
  | root => rfl
  | @inside outer tag _ b blocks blocks' hstart hspans =>
    have hposition : Position.at? (outer ++ tag ++ text) (utf8Length outer) = some b.start := by
      rw [hstart, List.append_assoc]
      exact Position.at?_append ..
    simp only [hposition]
    rfl

/-- Tokens around which the line is found are paired with it. -/
theorem mapM_line? {source : Text} {ts : List Token}
    (h : ∀ t ∈ ts, (t.stretch.line? source).isSome) :
    ((ts.map Token.stretch).mapM fun t => do return (t, ← t.line? source)) =
      some (lined source ts) := by
  induction ts with
  | nil => rfl
  | cons t ts ih =>
    obtain ⟨line?, hline⟩ := Option.isSome_iff_exists.mp (h t List.mem_cons_self)
    rw [List.map_cons, List.mapM_cons, ih fun u hu => h u (List.mem_cons_of_mem t hu), lined_cons,
      hline]
    rfl

end Levels

namespace Tokens

variable {d : Delimiters} {source : Text}

lemma mapM_items (ts : Tokens) : ts.items.mapM id =
    match ts with
    | ⟨tokens, none⟩ => .ok (tokens.map Token.stretch)
    | ⟨_, some (p, fault)⟩ => .error (.malformedTag p fault) := by
  obtain ⟨tokens, fault?⟩ := ts
  induction tokens with
  | nil => cases fault? <;> rfl
  | cons t ts ih =>
    rw [items_cons, List.mapM_cons, ih]
    cases fault? <;> rfl

/-- Around every tag of a source the line is found. -/
theorem line?_isSome {t : Token} (ht : t ∈ (ofText d source).tokens) :
    (t.stretch.line? source).isSome := by
  obtain ⟨before, after, h⟩ := List.append_of_mem ht
  obtain ⟨rest, hs, hstart, -⟩ := exists_read_of_scan h
  obtain ⟨p, raw, _ | tag⟩ := t
  · rfl
  · obtain rfl : p = Position.start.advance (Token.sourceOf before) := hstart
    have hline := @Site.line?_stretch ⟨Token.sourceOf before, raw, tag, rest⟩ source hs
    rw [Token.stretch_advance]
    exact Option.isSome_of_eq_some hline

end Tokens

/-- Cut out of a source by offsets, the parts are those of the source, and so are the errors. No
slice fails. -/
theorem Part.sliced?_eq {d : Delimiters} (hd : d.Valid) (source : Text) :
    sliced? d source (Tokens.ofText d source).items = some (ofSource d source) := by
  have hlines := Levels.mapM_line? fun t => @Tokens.line?_isSome d source t
  rw [sliced?, Tokens.mapM_items, ofSource]
  cases hts : Tokens.ofText d source with
  | mk tokens fault? =>
    cases fault? with
    | some fault => rfl
    | none =>
      obtain ⟨xs, last, hcuts⟩ := Tokens.exists_cuts_of_scan hd (congrArg Tokens.fault? hts)
      have hsource := hcuts.sourceOf_eq
      obtain rfl : Segment.tokens .start xs last = tokens := by
        have hscan := Tokens.scan_of_cuts hcuts .start
        exact congrArg Tokens.tokens (hscan.symm.trans hts)
      have hfits : Levels.Fits [] (.start d) (Nesting.start d) := ⟨rfl, rfl, .root⟩
      have hagree := @Levels.follow?_agree [] _ _ source last xs (hcuts.solid hd) false hsource.symm
        (.inl rfl) (by simp) hfits .start rfl
      rw [hsource] at hagree
      change Levels.Agree source ((Levels.start d).follow? source 0 _)
        ((Layout.ofTokens source _).foldlM Nesting.step (Nesting.start d)) at hagree
      rw [hts] at hlines
      dsimp only at hlines ⊢
      rw [hlines, Nesting.ofItems, Option.bind_eq_bind, Option.bind_some]
      generalize Levels.follow? source 0 _ _ = r, List.foldlM Nesting.step _ _ = r' at hagree
      cases hagree with
      | ok h => exact h.finish
      | error => rfl

namespace Tokens

variable {d : Delimiters} {source : Text}

/-- Every token is a slice of its source, and of a tag the delimiters in force begin and end it. -/
theorem slice?_of_ofText (hd : d.Valid) {before after : List Token} {t : Token}
    (h : (ofText d source).tokens = before ++ t :: after) :
    let e := d.after (before.filterMap Token.tag?)
    source.slice? t.span.1 t.span.2 = some t.raw ∧
      (t.tag? = none → ¬ e.opening <:+: t.raw ∧ ∀ u ∈ after.head?, u.tag?.isSome) ∧
      (t.tag?.isSome → ∃ inside, t.raw = e.opening ++ inside ++ e.closing) := by
  obtain ⟨rest, hs, hstart, hread⟩ := exists_read_of_scan h
  refine ⟨?_, ?_, ?_⟩
  · rw [Token.span, hstart, Position.advance_start_offset]
    exact slice?_of_eq _ t.raw rest hs rfl rfl
  · intro htag
    rw [htag] at hread
    refine ⟨breakOn_eq_none_iff.mp (Token.of_read_text (valid_after_of_scan hd h) hread).1, ?_⟩
    intro u hu
    obtain ⟨after', rfl⟩ := List.head?_eq_some_iff.mp hu
    exact tag?_isSome_of_scan hd htag h
  · intro htag
    obtain ⟨tag, htag⟩ := Option.isSome_iff_exists.mp htag
    rw [htag] at hread
    obtain ⟨inside, -, htagread⟩ := Token.exists_readTag_of_read hread
    exact Token.exists_raw_eq_of_readTag htagread

/-- Reading takes a source apart without gap or overlap. There are no more tokens than bytes, with
the tag that cannot be read counted in; they begin with the source and end with it, or where that
tag begins; each is a slice from one boundary of characters to another; plain text holds no opening
delimiter and stands next to tags, and a tag stands between the delimiters in force. A cursor yields
those tokens and nothing but the fault behind them, the parts are cut out by their offsets, and none
of the slices that this takes is out of range or within a character. -/
theorem ofText_tiles (hd : d.Valid) (source : Text) :
    let ts := ofText d source
    ts.tokens.length + ts.fault?.toList.length ≤ utf8Length source ∧
      Tiles 0 (ts.tokens.map Token.span) (ts.stop (utf8Length source)) ∧
      (∀ before t after, ts.tokens = before ++ t :: after →
        let e := d.after (before.filterMap Token.tag?)
        source.slice? t.span.1 t.span.2 = some t.raw ∧
          (t.tag? = none → ¬ e.opening <:+: t.raw ∧ ∀ u ∈ after.head?, u.tag?.isSome) ∧
          (t.tag?.isSome → ∃ inside, t.raw = e.opening ++ inside ++ e.closing)) ∧
      Cursor.Yields source ⟨d, 0⟩ ts.items ∧
      Part.sliced? d source ts.items = some (Part.ofSource d source) := by
  refine ⟨length_scan_le d .start source, ?_, ?_, ?_, Part.sliced?_eq hd source⟩
  · have htiles := tiles_scan d .start source
    rwa [show Position.start.offset = 0 from rfl, Nat.zero_add] at htiles
  · intro before t after h
    exact slice?_of_ofText hd h
  · exact @Cursor.yields_scan d source [] source rfl

/-- An inclusion that stands alone behind a character of two bytes, on a line that ends with a
return and a newline, and a section. -/
theorem ofText_tiles_lines :
    let source : Text := ['é', '\r', '\n', ' ', '{', '{', '>', 'p', '}', '}', '\r', '\n', '{', '{',
      '#', 'a', '}', '}', 'x', '{', '{', '/', 'a', '}', '}']
    let items : List (Except SyntaxError Stretch) := [.ok ⟨0, 5, none⟩,
      .ok ⟨5, 11, some (.inclusion ['p'])⟩, .ok ⟨11, 13, none⟩,
      .ok ⟨13, 19, some (.opening false ['a'])⟩, .ok ⟨19, 20, none⟩, .ok ⟨20, 26, some (.closing ['a'])⟩]
    Delimiters.Valid .braces ∧
      Tiles 0 [(0, 5), (5, 11), (11, 13), (13, 19), (19, 20), (20, 26)] (utf8Length source) ∧
      Cursor.Yields source ⟨.braces, 0⟩ items ∧
      Part.sliced? .braces source items = some (.ok [.literal ['é', '\r', '\n'],
        .inclusion ['p'] [' '], .block false ['a'] ['x'] .braces [.literal ['x']]]) := by
  intro source items
  obtain ⟨-, htiles, -, hyields, hsliced⟩ := ofText_tiles Delimiters.braces_valid source
  have hitems : (ofText .braces source).items = items := by decide +kernel
  have hspans : (ofText .braces source).tokens.map Token.span =
      [(0, 5), (5, 11), (11, 13), (13, 19), (19, 20), (20, 26)] := by decide +kernel
  have hstop : (ofText .braces source).stop (utf8Length source) = utf8Length source := by
    decide +kernel
  have hparts : Part.ofSource .braces source = .ok [.literal ['é', '\r', '\n'],
      .inclusion ['p'] [' '], .block false ['a'] ['x'] .braces [.literal ['x']]] := by
    decide +kernel
  rw [hspans, hstop] at htiles
  rw [hitems] at hyields hsliced
  rw [hparts] at hsliced
  exact ⟨Delimiters.braces_valid, htiles, hyields, hsliced⟩

end Tokens

end Mustache
