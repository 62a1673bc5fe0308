import Mustache.Proofs.Tiling

/-! Reading by offsets: a cursor moves over the bytes of a source and cuts slices out of it, each of
which may fail. It never fails, and what it yields are the tokens of the source. -/
namespace Mustache

open Text

/-- The offset of the first place where a pattern stands. -/
def Text.find? (pattern s : Text) : Option Nat :=
  (breakOn pattern s).map fun (before, _) => utf8Length before

/-- Reads the text between two delimiters: what stands behind a mark of one byte is cut out. -/
def Tag.sliced? (text : Text) : Option (Except TagFault Tag) :=
  match text.head? with
  | none => some (.error .missingName)
  | some c =>
    if c = '!' then some (.ok comment)
    else if c = '=' then do
      let rest ← text.slice? 1 (utf8Length text)
      return switch <$> Delimiters.ofText (rest.dropWhile isSpace)
    else match named? c with
      | some tag => do
        let rest ← text.slice? 1 (utf8Length text)
        return tag <$> checkName (rest.dropWhile isSpace)
      | none => some ((value · true) <$> checkName text)

lemma Tag.utf8Size_of_named? {c : Char} {tag : Text → Tag} (h : named? c = some tag) :
    c.utf8Size = 1 := by
  unfold named? at h
  split at h <;> first | rfl | simp at h

/-- Every mark takes one byte, so that nothing is cut within a character. -/
theorem Tag.sliced?_eq (text : Text) : sliced? text = some (ofText text) := by
  cases text with
  | nil => rfl
  | cons c s =>
    have hrest (hc : c.utf8Size = 1) : slice? (c :: s) 1 (utf8Length (c :: s)) = some s :=
      slice?_of_eq [c] s [] (by simp) (by simp [hc]) (by simp)
    rw [sliced?, ofText_cons]
    simp only [List.head?_cons]
    split
    · rfl
    · split
      · rename_i hc
        rw [hrest (by rw [hc]; rfl)]
        rfl
      · cases htag : named? c with
        | some tag =>
          simp only [hrest (utf8Size_of_named? htag)]
          rfl
        | none => rfl

/-- A stretch of a source by the offsets where it starts and stops: plain text, or a tag. -/
structure Stretch where
  start : Nat
  stop : Nat
  tag? : Option Tag
  deriving DecidableEq, Repr

def Token.stretch (t : Token) : Stretch :=
  ⟨t.start.offset, t.start.offset + utf8Length t.raw, t.tag?⟩

lemma Token.stretch_advance (before raw : Text) (tag? : Option Tag) :
    stretch ⟨.advance .start before, raw, tag?⟩ =
      ⟨utf8Length before, utf8Length (before ++ raw), tag?⟩ := by
  rw [stretch, Position.advance_start_offset, utf8Length_append]

/-- How far a source is read: the delimiters in force, and the offset where they are. -/
structure Cursor where
  delimiters : Delimiters
  offset : Nat
  deriving DecidableEq, Repr

namespace Cursor

/-- Moves over a tag, whose opening delimiter stands at the cursor. -/
def readTag? (source : Text) (c : Cursor) : Option (Except TagFault (Stretch × Cursor)) := do
  let behind := c.offset + utf8Length c.delimiters.opening
  let rest ← source.slice? behind (utf8Length source)
  if rest = [] then return .error .missingClose
  else
    let terminator := Token.terminator c.delimiters rest
    match find? terminator rest with
    | none => return .error .missingClose
    | some length =>
      let inside ← source.slice? behind (behind + length)
      let stop := behind + length + utf8Length terminator
      match ← Tag.sliced? (trim inside) with
      | .error fault => return .error fault
      | .ok tag => return .ok (⟨c.offset, stop, some tag⟩, ⟨tag.delimitersAfter c.delimiters, stop⟩)

/-- Moves over the next stretch, to the end of the source if it cannot be read. There is none behind
the end. -/
def next? (source : Text) (c : Cursor) :
    Option (Option (Except SyntaxError Stretch) × Cursor) :=
  if utf8Length source ≤ c.offset then some (none, c)
  else do
    let tail ← source.slice? c.offset (utf8Length source)
    if c.delimiters.opening <+: tail then
      match ← readTag? source c with
      | .error fault =>
        let p ← Position.at? source c.offset
        return (some (.error (.malformedTag p fault)), ⟨c.delimiters, utf8Length source⟩)
      | .ok (t, c) => return (some (.ok t), c)
    else
      let stop := (find? c.delimiters.opening tail).elim (utf8Length source) (c.offset + ·)
      return (some (.ok ⟨c.offset, stop, none⟩), ⟨c.delimiters, stop⟩)

/-- What is yielded from a cursor on, until there is nothing more. -/
inductive Yields (source : Text) : Cursor → List (Except SyntaxError Stretch) → Prop
  | stop {c c' : Cursor} (h : next? source c = some (none, c')) : Yields source c []
  | item {c c' : Cursor} {x : Except SyntaxError Stretch} {xs : List (Except SyntaxError Stretch)}
      (h : next? source c = some (some x, c')) (hr : Yields source c' xs) :
        Yields source c (x :: xs)

variable {d : Delimiters} {source before inside s : Text}

/-- Behind an opening delimiter the cursor moves over the tag that is read there. -/
theorem readTag?_eq (hs : source = before ++ (d.opening ++ inside)) :
    readTag? source ⟨d, utf8Length before⟩ = some ((Token.readTag d inside).map fun r =>
      (⟨utf8Length before, utf8Length (before ++ r.raw), r.tag?⟩,
        ⟨r.tag?.elim d (Tag.delimitersAfter d), utf8Length (before ++ r.raw)⟩)) := by
  have hbehind : utf8Length before + utf8Length d.opening = utf8Length (before ++ d.opening) :=
    (utf8Length_append _ _).symm
  have hrest : source.slice? (utf8Length (before ++ d.opening)) (utf8Length source) =
      some inside := by
    rw [hs, ← List.append_assoc]
    exact slice?_rest _ _
  simp only [readTag?, hbehind, hrest, Option.bind_eq_bind, Option.bind_some]
  unfold Token.readTag find?
  split
  · rfl
  · cases hb : breakOn (Token.terminator d inside) inside with
    | none => rfl
    | some cut =>
      obtain ⟨text, rest⟩ := cut
      have htext : source.slice? (utf8Length (before ++ d.opening))
          (utf8Length (before ++ d.opening) + utf8Length text) = some text := by
        refine slice?_of_eq (before ++ d.opening) text (Token.terminator d inside ++ rest)
          ?_ rfl rfl
        rw [hs, ← List.append_assoc text, ← eq_append_of_breakOn hb, List.append_assoc]
      simp only [Option.map_some, htext, Option.bind_some, Tag.sliced?_eq]
      cases Tag.ofText (trim text) with
      | error fault => rfl
      | ok tag => simp [Except.map, Nat.add_assoc]

/-- One step moves the cursor over the token that is read where it stands. -/
theorem next?_eq (hs : source = before ++ s) (hne : s ≠ []) :
    next? source ⟨d, utf8Length before⟩ = some (match Token.read d s with
      | .error fault => (some (.error (.malformedTag (Position.start.advance before) fault)),
          ⟨d, utf8Length source⟩)
      | .ok r => (some (.ok ⟨utf8Length before, utf8Length (before ++ r.raw), r.tag?⟩),
          ⟨r.tag?.elim d (Tag.delimitersAfter d), utf8Length (before ++ r.raw)⟩)) := by
  have hlt : ¬ utf8Length source ≤ utf8Length before := by
    have := utf8Length_pos hne
    rw [hs, utf8Length_append]
    omega
  have htail : source.slice? (utf8Length before) (utf8Length source) = some s := by
    rw [hs]
    exact slice?_rest before s
  have hposition : Position.at? source (utf8Length before) =
      some (Position.start.advance before) := by
    rw [hs]
    exact Position.at?_append before s
  simp only [next?, if_neg hlt, htail, Option.bind_eq_bind, Option.bind_some, Token.read]
  cases hp : dropPrefix? d.opening s with
  | some inside =>
    obtain rfl := dropPrefix?_eq_some_iff.mp hp
    rw [if_pos (List.prefix_append _ _), readTag?_eq hs]
    cases hr : Token.readTag d inside with
    | error fault => simp [Except.map, hposition, hr]
    | ok r => simp [Except.map, hr]
  | none =>
    have hnot : ¬ d.opening <+: s := by
      rintro ⟨inside, rfl⟩
      simp at hp
    rw [if_neg hnot, find?, Text.before]
    cases hb : breakOn d.opening s with
    | none => simp [hs]
    | some cut => simp

end Cursor

namespace Tokens

/-- Tokens as a cursor yields them, with the fault that ends them. -/
def items (ts : Tokens) : List (Except SyntaxError Stretch) :=
  ts.tokens.map (fun t => .ok t.stretch) ++
    ts.fault?.toList.map fun (p, fault) => .error (.malformedTag p fault)

@[simp] lemma items_cons (t : Token) (ts : List Token) (fault? : Option (Position × TagFault)) :
    items ⟨t :: ts, fault?⟩ = .ok t.stretch :: items ⟨ts, fault?⟩ := rfl

end Tokens

/-- Reading by offsets yields the tokens of what is left of a source, and no slice fails. -/
theorem Cursor.yields_scan {d : Delimiters} {source before s : Text} (hs : source = before ++ s) :
    Yields source ⟨d, utf8Length before⟩ (Tokens.scan d (.advance .start before) s).items := by
  generalize hp : Position.start.advance before = p
  fun_induction Tokens.scan d p s generalizing before with
  | case1 d p => exact .stop (by rw [next?, if_pos (by simp [hs])])
  | case2 d p s hne fault hr =>
    obtain rfl := hp
    have hstep := @next?_eq d source before s hs hne
    rw [hr] at hstep
    exact .item hstep (.stop (by rw [next?, if_pos (Nat.le_refl _)]))
  | case3 d p s hne r hr after =>
    rename_i ih
    obtain rfl := hp
    have hstep := @next?_eq d source before s hs hne
    rw [hr] at hstep
    rw [Tokens.items_cons, Token.stretch_advance]
    refine .item hstep (ih ?_ (Position.advance_append _ before r.raw))
    rw [hs, Token.eq_append_of_read hr, List.append_assoc]

end Mustache
