import Mustache.Proofs.IndentedSegment
import Mustache.Proofs.Spelling

/-! Wordings: the ways that a tag can be written between its delimiters. Each is read as what it
says, if nothing in it is taken for its end. -/
namespace Mustache

open Text

/-- What a tag with a name begins with, unless it is an escaped value. -/
inductive Sigil where
  | ampersand
  | brace
  | hash
  | caret
  | slash
  | angle
  deriving DecidableEq, Repr

namespace Sigil

def char : Sigil → Char
  | ampersand => '&'
  | brace => '{'
  | hash => '#'
  | caret => '^'
  | slash => '/'
  | angle => '>'

def tag (name : Text) : Sigil → Tag
  | ampersand | brace => .value name false
  | hash => .opening false name
  | caret => .opening true name
  | slash => .closing name
  | angle => .inclusion name

lemma named?_char (x : Sigil) : Tag.named? x.char = some (x.tag ·) := by
  cases x <;> rfl

lemma isSpace_char (x : Sigil) : isSpace x.char = false := by
  cases x <;> decide

end Sigil

/-- A name that a tag can have: a dot, or segments that are not empty, without white space. -/
def Tag.IsName (name : Text) : Prop :=
  name = ['.'] ∨ (∀ w ∈ segments name, w ≠ []) ∧ ∀ c ∈ name, isSpace c = false

/-- A tag as it is written: what it says, with the white space around its name, or around and
between its delimiters. -/
inductive Wording where
  | escaped (lead name trail : Text)
  | named (sigil : Sigil) (lead name trail : Text)
  | comment (text : Text)
  | switch (lead gap trail : Text) (d : Delimiters)
  deriving DecidableEq, Repr

namespace Wording

/-- What a wording says. -/
def tag : Wording → Tag
  | escaped _ name _ => .value name true
  | named sigil _ name _ => sigil.tag name
  | comment _ => .comment
  | switch _ _ _ d => .switch d

def inside : Wording → Text
  | escaped lead name trail => lead ++ name ++ trail
  | named sigil lead name trail => sigil.char :: (lead ++ name ++ trail)
  | comment text => '!' :: text
  | switch lead gap trail d => '=' :: (lead ++ (d.opening ++ gap ++ d.closing) ++ trail)

/-- What stands in front of the closing delimiter. -/
def ending : Wording → Text
  | named .brace _ _ _ => ['}']
  | switch _ _ _ _ => ['=']
  | _ => []

/-- What the tag ends with under some delimiters. -/
def terminator (w : Wording) (d : Delimiters) : Text :=
  w.ending ++ d.closing

def print (w : Wording) (d : Delimiters) : Text :=
  d.opening ++ w.inside ++ w.terminator d

/-- A tag with white space between its opening delimiter and all else. -/
def printBehind (before : Text) (w : Wording) (d : Delimiters) : Text :=
  d.opening ++ (before ++ w.inside) ++ w.terminator d

/-- White space stands where it may, names are names, an escaped one does not begin like another
tag, and delimiters are marks that white space neither begins nor ends. -/
def Proper : Wording → Prop
  | escaped lead name trail =>
    (∀ c ∈ lead, isSpace c = true) ∧ (∀ c ∈ trail, isSpace c = true) ∧ Tag.IsName name ∧
      ∀ c ∈ name.head?, c ∉ ['#', '^', '/', '>', '!', '=', '&', '{']
  | named _ lead name trail =>
    (∀ c ∈ lead, isSpace c = true) ∧ (∀ c ∈ trail, isSpace c = true) ∧ Tag.IsName name
  | comment _ => True
  | switch lead gap trail d =>
    (∀ c ∈ lead, isSpace c = true) ∧ (∀ c ∈ trail, isSpace c = true) ∧
      gap ≠ [] ∧ (∀ c ∈ gap, isAsciiSpace c = true) ∧ d.Valid ∧
      (∀ c ∈ d.opening.head?, isSpace c = false) ∧ ∀ c ∈ d.closing.getLast?, isSpace c = false

end Wording

namespace Text

/-- A word and white space behind it are cut off together. -/
theorem splitWhere_append_cons {p : Char → Bool} {s : Text} (hs : ∀ c ∈ s, p c = false) {c : Char}
    (hc : p c = true) (t : Text) : splitWhere p (s ++ c :: t) = s :: splitWhere p t := by
  induction s with
  | nil => rw [List.nil_append, splitWhere, if_pos hc]
  | cons a s ih =>
    have ha : ¬ p a = true := by simp [hs a List.mem_cons_self]
    rw [List.cons_append, splitWhere, if_neg ha, ih fun b hb => hs b (List.mem_cons_of_mem a hb)]

lemma splitWhere_of_not {p : Char → Bool} {s : Text} (hs : ∀ c ∈ s, p c = false) :
    splitWhere p s = [s] := by
  induction s with
  | nil => rfl
  | cons a s ih =>
    have ha : ¬ p a = true := by simp [hs a List.mem_cons_self]
    rw [splitWhere, if_neg ha, ih fun b hb => hs b (List.mem_cons_of_mem a hb)]

/-- Two words with white space between them. -/
theorem words_append_append {s gap t : Text} (hs : s ≠ []) (hs' : ∀ c ∈ s, isAsciiSpace c = false)
    (hg : gap ≠ []) (hg' : ∀ c ∈ gap, isAsciiSpace c = true) (ht : t ≠ [])
    (ht' : ∀ c ∈ t, isAsciiSpace c = false) : words (s ++ gap ++ t) = [s, t] := by
  obtain ⟨c, gap, rfl⟩ := List.exists_cons_of_ne_nil hg
  obtain ⟨hc, hgap⟩ := List.forall_mem_cons.mp hg'
  rw [words, wordsBy, List.append_assoc, List.cons_append, splitWhere_append_cons hs' hc,
    splitWhere_append_of_pos hgap, splitWhere_of_not ht']
  simp [hs, ht]

/-- Behind a first character white space is left where it is, up to that at the end. -/
theorem trim_cons_spaced {c : Char} (hc : isSpace c = false) (lead : Text) {s trail : Text}
    (hs : s ≠ []) (hlast : ∀ a ∈ s.getLast?, isSpace a = false)
    (ht : ∀ a ∈ trail, isSpace a = true) : trim (c :: (lead ++ s ++ trail)) = c :: (lead ++ s) := by
  have hhead : ∀ a ∈ (c :: (lead ++ s)).head?, isSpace a = false := by
    rintro a ⟨⟩
    exact hc
  have hend : ∀ a ∈ (c :: (lead ++ s)).getLast?, isSpace a = false := by
    intro a ha
    rw [← List.cons_append, List.getLast?_append_of_ne_nil _ hs] at ha
    exact hlast a ha
  exact trim_spaced (u := []) (by simp) hhead hend ht

lemma dropWhile_spaced {lead s : Text} (hl : ∀ c ∈ lead, isSpace c = true)
    (hhead : ∀ c ∈ s.head?, isSpace c = false) : (lead ++ s).dropWhile isSpace = s := by
  rw [List.dropWhile_append_of_pos hl]
  cases s with
  | nil => rfl
  | cons c s => exact List.dropWhile_cons_of_neg (by simp [hhead c rfl])

end Text

namespace Tag

lemma IsName.checkName {name : Text} (h : IsName name) : checkName name = .ok name := by
  unfold Tag.checkName
  rcases h with rfl | ⟨hw, hc⟩
  · rfl
  · have hne : name ≠ [] := by
      rintro rfl
      exact hw [] (by simp [segments, splitWhere]) rfl
    have hfine : ((segments name).any List.isEmpty || name.any isSpace) = false := by
      simp only [Bool.or_eq_false_iff, List.any_eq_false, List.isEmpty_iff, Bool.not_eq_true]
      exact ⟨hw, hc⟩
    rw [if_neg hne, hfine]
    split <;> rfl

lemma IsName.ne_nil {name : Text} (h : IsName name) : name ≠ [] :=
  (of_checkName_eq_ok h.checkName).2.1

lemma IsName.isSpace {name : Text} (h : IsName name) : ∀ c ∈ name, isSpace c = false :=
  (of_checkName_eq_ok h.checkName).2.2

lemma IsName.isSpace_head {name : Text} (h : IsName name) :
    ∀ c ∈ name.head?, Text.isSpace c = false :=
  fun c hc => h.isSpace c (List.mem_of_mem_head? hc)

lemma IsName.isSpace_last {name : Text} (h : IsName name) :
    ∀ c ∈ name.getLast?, Text.isSpace c = false :=
  fun c hc => h.isSpace c (List.mem_of_mem_getLast? hc)

/-- White space around a name is left out. -/
theorem IsName.trim_spaced {lead name trail : Text} (h : IsName name)
    (hl : ∀ c ∈ lead, Text.isSpace c = true) (ht : ∀ c ∈ trail, Text.isSpace c = true) :
    trim (lead ++ name ++ trail) = name :=
  Text.trim_spaced hl h.isSpace_head h.isSpace_last ht

end Tag

namespace Wording

variable {w : Wording} {before : Text} {d : Delimiters}

/-- The first character tells what a tag ends with. -/
theorem terminator_cons (d : Delimiters) (c : Char) (s : Text) :
    Token.terminator d (c :: s) =
      if c = '{' then '}' :: d.closing else if c = '=' then '=' :: d.closing else d.closing := by
  unfold Token.terminator
  split <;> simp_all

lemma terminator_inside (h : w.Proper) (d : Delimiters) (more : Text) :
    Token.terminator d (w.inside ++ more) = w.terminator d := by
  cases w with
  | escaped lead name trail =>
    obtain ⟨hl, ht, hn, hfirst⟩ := h
    have htrim := hn.trim_spaced hl ht
    have hne : lead ++ name ++ trail ≠ [] := by simp [hn.ne_nil]
    apply Token.terminator_of_head?_trim d hne
    · rw [htrim]
      exact fun hc => hfirst _ hc (by simp)
    · rw [htrim]
      exact fun hc => hfirst _ hc (by simp)
  | named sigil lead name trail =>
    rw [inside, List.cons_append, terminator_cons]
    cases sigil <;> rfl
  | comment text => rfl
  | switch lead gap trail d' => rfl

lemma equals_notMem {gap : Text} {d : Delimiters} (hd : d.Valid)
    (hspace : ∀ c ∈ gap, isAsciiSpace c = true) : '=' ∉ d.opening ++ gap ++ d.closing := by
  simp only [List.mem_append, not_or]
  refine ⟨⟨fun h => (hd.opening.2 _ h).2 rfl, fun h => ?_⟩, fun h => (hd.closing.2 _ h).2 rfl⟩
  exact absurd (hspace _ h) (by decide)

/-- The marks and the white space between them, without what is around them. -/
theorem ofText_marks {gap : Text} {d : Delimiters} (hd : d.Valid) (hg : gap ≠ [])
    (hspace : ∀ c ∈ gap, isAsciiSpace c = true) :
    Delimiters.ofText (d.opening ++ gap ++ d.closing) = .ok d := by
  have hequals := equals_notMem hd hspace
  have hinside : Delimiters.inside (d.opening ++ gap ++ d.closing) =
      d.opening ++ gap ++ d.closing :=
    Delimiters.inside_of_getLast?_ne fun h => hequals (List.mem_of_getLast? h)
  rw [Delimiters.ofText_eq_ok_iff, hinside]
  refine ⟨?_, hequals⟩
  exact words_append_append hd.opening.1 (fun c hc => (hd.opening.2 c hc).1) hg hspace hd.closing.1
    fun c hc => (hd.closing.2 c hc).1

/-- A wording says what it is meant to say. -/
theorem ofText_inside (h : w.Proper) : Tag.ofText (trim w.inside) = .ok w.tag := by
  cases w with
  | escaped lead name trail =>
    obtain ⟨hl, ht, hn, hfirst⟩ := h
    rw [inside, hn.trim_spaced hl ht]
    have hname := hn.checkName
    obtain ⟨c, name, rfl⟩ := List.exists_cons_of_ne_nil hn.ne_nil
    have hc := hfirst c rfl
    simp only [List.mem_cons, List.not_mem_nil, or_false, not_or] at hc
    have hsigil : Tag.named? c = none := by simp [Tag.named?, hc]
    rw [Tag.ofText_cons, if_neg (by simp [hc]), if_neg (by simp [hc]), hsigil, hname]
    rfl
  | named sigil lead name trail =>
    obtain ⟨hl, ht, hn⟩ := h
    have htrim := trim_cons_spaced sigil.isSpace_char lead hn.ne_nil hn.isSpace_last ht
    have hname : (lead ++ name).dropWhile isSpace = name := dropWhile_spaced hl hn.isSpace_head
    rw [inside, htrim, Tag.ofText_cons, hname, sigil.named?_char, hn.checkName]
    cases sigil <;> rfl
  | comment text =>
    obtain ⟨t, ht⟩ := trim_cons (c := '!') (by decide) text
    rw [inside, ht]
    rfl
  | switch lead gap trail d =>
    obtain ⟨hl, ht, hg, hspace, hd, hopening, hclosing⟩ := h
    have hne : d.opening ++ gap ++ d.closing ≠ [] := by simp [hg]
    have hhead : ∀ c ∈ (d.opening ++ gap ++ d.closing).head?, isSpace c = false := by
      rw [List.append_assoc, List.head?_append_of_ne_nil _ hd.opening.1]
      exact hopening
    have hlast : ∀ c ∈ (d.opening ++ gap ++ d.closing).getLast?, isSpace c = false := by
      rw [List.getLast?_append_of_ne_nil _ hd.closing.1]
      exact hclosing
    have hmarks : (lead ++ (d.opening ++ gap ++ d.closing)).dropWhile isSpace = _ :=
      dropWhile_spaced hl hhead
    rw [inside, trim_cons_spaced (by decide) lead hne hlast ht, Tag.ofText_cons, hmarks,
      ofText_marks hd hg hspace]
    rfl

lemma printBehind_append (before : Text) (w : Wording) (d : Delimiters) (rest : Text) :
    w.printBehind before d ++ rest =
      d.opening ++ (before ++ w.inside ++ w.terminator d ++ rest) := by
  simp [printBehind]

lemma read_printBehind (before : Text) (w : Wording) (d : Delimiters) (rest : Text) :
    Token.read d (w.printBehind before d ++ rest) =
      Token.readTag d (before ++ w.inside ++ w.terminator d ++ rest) := by
  rw [printBehind_append, Token.read_opening]

/-- Behind white space nothing but the delimiter ends a tag. -/
theorem terminator_behind (d : Delimiters) (hb : ∀ c ∈ before, isSpace c = true) (hne : before ≠ [])
    (s : Text) : Token.terminator d (before ++ s) = d.closing := by
  obtain ⟨c, before, rfl⟩ := List.exists_cons_of_ne_nil hne
  have hc := hb c List.mem_cons_self
  have hbrace : c ≠ '{' := by
    rintro rfl
    exact absurd hc (by decide)
  have hequals : c ≠ '=' := by
    rintro rfl
    exact absurd hc (by decide)
  rw [List.cons_append, terminator_cons, if_neg hbrace, if_neg hequals]

/-- A tag with white space in front is read as what it says, if nothing but its delimiter is to
close it. -/
theorem readTag_behind (h : w.Proper) (hb : ∀ c ∈ before, isSpace c = true)
    (hw : before ≠ [] → w.ending = [])
    (hend : breakOn (w.terminator d) (before ++ w.inside ++ w.terminator d) =
      some (before ++ w.inside, [])) (rest : Text) :
    Token.readTag d (before ++ w.inside ++ w.terminator d ++ rest) =
      .ok ⟨w.printBehind before d, some w.tag, rest⟩ := by
  have hterminator : Token.terminator d (before ++ w.inside ++ w.terminator d ++ rest) =
      w.terminator d := by
    rw [List.append_assoc, List.append_assoc]
    by_cases hne : before = []
    · rw [hne, List.nil_append]
      exact terminator_inside h d _
    · rw [terminator_behind d hb hne, terminator, hw hne, List.nil_append]
  have htrim : trim (before ++ w.inside) = trim w.inside := by
    rw [trim, trim, List.dropWhile_append_of_pos hb]
  refine Token.readTag_eq_ok_iff.mpr ⟨before ++ w.inside, rest, w.tag, ?_, ?_, ?_⟩
  · rw [hterminator]
    exact breakOn_append hend rest
  · rw [htrim]
    exact ofText_inside h
  · rw [hterminator]
    rfl

/-- A tag is read as what its wording says, if its end stands nowhere before. -/
theorem readTag_wording (h : w.Proper) {d : Delimiters}
    (hend : breakOn (w.terminator d) (w.inside ++ w.terminator d) = some (w.inside, []))
    (rest : Text) :
    Token.readTag d (w.inside ++ w.terminator d ++ rest) = .ok ⟨w.print d, some w.tag, rest⟩ :=
  readTag_behind h (List.forall_mem_nil _) (fun hne => absurd rfl hne) hend rest

end Wording
end Mustache
