import Mustache.Proofs.Tiling
import Mustache.Proofs.Wording

/-! Set-delimiter tags: how a tag is written that is read as one, which writings are read as one,
and that a tag that begins like one is no tag of another kind. -/
namespace Mustache

open Text

namespace Text

variable {p : Char → Bool} {s w v : Text} {ws : List Text}

/-- The first piece of a text, and the words of what is behind it. -/
theorem exists_of_splitWhere_eq_cons (h : splitWhere p s = w :: ws) :
    ∃ t, s = w ++ t ∧ wordsBy p t = ws.filter (!·.isEmpty) ∧ ∀ c ∈ t.head?, p c = true := by
  induction s generalizing w ws with
  | nil =>
    obtain ⟨rfl, rfl⟩ := by simpa [splitWhere] using h
    exact ⟨[], rfl, rfl, by simp⟩
  | cons c s ih =>
    by_cases hc : p c = true
    · rw [splitWhere, if_pos hc] at h
      obtain ⟨rfl, rfl⟩ := List.cons.inj h
      refine ⟨c :: s, rfl, ?_, by simpa using hc⟩
      rw [wordsBy, splitWhere, if_pos hc]
      rfl
    · obtain ⟨v, vs, hv⟩ := List.exists_cons_of_ne_nil (splitWhere_ne_nil p s)
      rw [splitWhere, if_neg hc, hv] at h
      obtain ⟨rfl, rfl⟩ := List.cons.inj h
      obtain ⟨t, rfl, ht⟩ := ih hv
      exact ⟨t, rfl, ht⟩

lemma wordsBy_cons_of_pos {c : Char} (hc : p c = true) (s : Text) :
    wordsBy p (c :: s) = wordsBy p s := by
  rw [wordsBy, splitWhere, if_pos hc]
  rfl

/-- A character that is no separator begins a word. -/
theorem exists_wordsBy_cons_eq {c : Char} (hc : ¬ p c = true) (s : Text) :
    ∃ w t, c :: s = w ++ t ∧ wordsBy p (c :: s) = w :: wordsBy p t ∧ ∀ c ∈ t.head?, p c = true := by
  obtain ⟨w, ws, hs⟩ := List.exists_cons_of_ne_nil (splitWhere_ne_nil p (c :: s))
  obtain ⟨t, hcut, ht, hhead⟩ := exists_of_splitWhere_eq_cons hs
  refine ⟨w, t, hcut, ?_, hhead⟩
  have hw : w ≠ [] := by
    rintro rfl
    exact hc (hhead c (by rw [← List.nil_append t, ← hcut]; rfl))
  rw [wordsBy, hs, ht, List.filter_cons_of_pos (by simpa using hw)]

lemma of_wordsBy_eq_nil (h : wordsBy p s = []) : ∀ c ∈ s, p c = true := by
  induction s with
  | nil => simp
  | cons c s ih =>
    by_cases hc : p c = true
    · rw [wordsBy_cons_of_pos hc] at h
      exact List.forall_mem_cons.mpr ⟨hc, ih h⟩
    · obtain ⟨w, t, -, hw, -⟩ := exists_wordsBy_cons_eq hc s
      simp [hw] at h

/-- In front of the first word there are separators only, and behind it the other words. -/
theorem exists_of_wordsBy_eq_cons (h : wordsBy p s = w :: ws) :
    ∃ lead t, (∀ c ∈ lead, p c = true) ∧ s = lead ++ (w ++ t) ∧ wordsBy p t = ws ∧
      ∀ c ∈ t.head?, p c = true := by
  induction s with
  | nil => simp [wordsBy, splitWhere] at h
  | cons c s ih =>
    by_cases hc : p c = true
    · rw [wordsBy_cons_of_pos hc] at h
      obtain ⟨lead, t, hlead, rfl, ht⟩ := ih h
      exact ⟨c :: lead, t, List.forall_mem_cons.mpr ⟨hc, hlead⟩, rfl, ht⟩
    · obtain ⟨w', t, hcut, hw, ht⟩ := exists_wordsBy_cons_eq hc s
      obtain ⟨rfl, rfl⟩ := List.cons.inj (hw.symm.trans h)
      exact ⟨[], t, by simp, hcut, rfl, ht⟩

/-- A text of two words is these with white space between them and around them. -/
theorem exists_of_words_eq_pair (h : words s = [w, v]) :
    ∃ lead gap trail, (∀ c ∈ lead, isAsciiSpace c = true) ∧ gap ≠ [] ∧
      (∀ c ∈ gap, isAsciiSpace c = true) ∧ (∀ c ∈ trail, isAsciiSpace c = true) ∧
      s = lead ++ (w ++ gap ++ v) ++ trail := by
  obtain ⟨lead, t, hlead, rfl, ht, hhead⟩ := exists_of_wordsBy_eq_cons h
  obtain ⟨gap, trail, hgap, rfl, htrail, -⟩ := exists_of_wordsBy_eq_cons ht
  refine ⟨lead, gap, trail, hlead, ?_, hgap, of_wordsBy_eq_nil htrail, by simp⟩
  rintro rfl
  obtain ⟨hv, hspace⟩ := of_mem_words (h ▸ List.mem_cons_of_mem w List.mem_cons_self : v ∈ words _)
  obtain ⟨c, v, rfl⟩ := List.exists_cons_of_ne_nil hv
  have hc := hhead c rfl
  simp [(hspace c List.mem_cons_self).2] at hc

/-- Trimming takes white space from both ends. -/
theorem exists_eq_trim (s : Text) : ∃ lead trail : Text, (∀ c ∈ lead, isSpace c = true) ∧
    (∀ c ∈ trail, isSpace c = true) ∧ s = lead ++ trim s ++ trail := by
  refine ⟨s.takeWhile isSpace, (s.dropWhile isSpace).rtakeWhile isSpace,
    fun c hc => List.mem_takeWhile_imp hc, fun c hc => List.mem_rtakeWhile_imp hc, ?_⟩
  rw [List.append_assoc]
  conv_lhs => rw [← List.takeWhile_append_dropWhile (p := isSpace) (l := s)]
  congr 1
  exact (List.rdropWhile_append_rtakeWhile ..).symm

end Text

namespace Delimiters

/-- White space of a class stands around the delimiters that a tag sets, ASCII white space between
them, and an equals sign on either side. -/
def Written (p : Char → Bool) (d : Delimiters) (content : Text) : Prop :=
  ∃ lead gap trail : Text, (∀ c ∈ lead, p c = true) ∧ (∀ c ∈ trail, p c = true) ∧ gap ≠ [] ∧
    (∀ c ∈ gap, isAsciiSpace c = true) ∧ d.Valid ∧
    trim content = '=' :: (lead ++ (d.opening ++ gap ++ d.closing) ++ trail) ++ ['=']

/-- A tag that does not begin with its equals sign and ends without one. -/
def Unclosed (content : Text) : Prop :=
  content.head? ≠ some '=' ∧ (trim content).getLast? ≠ some '='

/-- A tag that begins with its equals sign and ends with two. -/
def TwiceClosed (content : Text) : Prop :=
  ∃ u space : Text, (∀ c ∈ space, isSpace c = true) ∧
    content = '=' :: (u ++ '=' :: (space ++ ['=']))

variable {d : Delimiters} {content : Text}

lemma written_of_ofText {lead trail s : Text} (h : ofText s = .ok d)
    (hl : ∀ c ∈ lead, isSpace c = true) (ht : ∀ c ∈ trail, isSpace c = true)
    (hcontent : trim content = '=' :: (lead ++ inside s ++ trail) ++ ['=']) :
    d.Written isSpace content := by
  obtain ⟨hw, -⟩ := ofText_eq_ok_iff.mp h
  obtain ⟨lead', gap, trail', hl', hne, hg, ht', hs⟩ := exists_of_words_eq_pair hw
  refine ⟨lead ++ lead', gap, trail' ++ trail, ?_, ?_, hne, hg, valid_of_ofText h, ?_⟩
  · exact List.forall_mem_append.mpr ⟨hl, fun c hc => isSpace_of_isAsciiSpace (hl' c hc)⟩
  · exact List.forall_mem_append.mpr ⟨fun c hc => isSpace_of_isAsciiSpace (ht' c hc), ht⟩
  · rw [hcontent, hs]
    simp

lemma exists_of_ofText_eq_switch {s : Text} (h : Tag.ofText s = .ok (.switch d)) :
    ∃ lead w : Text, (∀ c ∈ lead, isSpace c = true) ∧ s = '=' :: (lead ++ w) ∧ w ≠ [] ∧
      ofText w = .ok d := by
  obtain ⟨t, rfl, ht⟩ := Tag.ofText_eq_switch_iff.mp h
  refine ⟨t.takeWhile isSpace, t.dropWhile isSpace, fun c hc => List.mem_takeWhile_imp hc,
    ?_, ?_, ht⟩
  · rw [List.takeWhile_append_dropWhile]
  · intro hnil
    rw [hnil] at ht
    simp [ofText, inside, words, wordsBy, splitWhere] at ht

/-- A tag that begins with its equals sign has another one in front of its closing delimiter. -/
theorem written_of_closed {inside : Text} (h : Tag.ofText (trim ('=' :: inside)) = .ok (.switch d))
    (htwice : ¬ TwiceClosed ('=' :: (inside ++ ['=']))) :
    d.Written isSpace ('=' :: (inside ++ ['='])) := by
  obtain ⟨lead, w, hl, htrim, -, hw⟩ := exists_of_ofText_eq_switch h
  obtain ⟨front, trail, hfront, htrail, hcut⟩ := exists_eq_trim ('=' :: inside)
  rw [htrim] at hcut
  cases front with
  | cons a front =>
    obtain ⟨rfl, -⟩ := List.cons.inj hcut
    exact absurd (hfront '=' List.mem_cons_self) (by decide)
  | nil =>
    obtain rfl : inside = lead ++ w ++ trail := by simpa using hcut
    have hlast : w.getLast? ≠ some '=' := by
      intro hlast
      obtain ⟨u, rfl⟩ := List.getLast?_eq_some_iff.mp hlast
      exact htwice ⟨lead ++ u, trail, htrail, by simp⟩
    refine written_of_ofText hw hl htrail ?_
    have hequals : ∀ c ∈ ['='].getLast?, isSpace c = false := by
      rintro _ ⟨⟩
      decide
    have hends := trim_cons_spaced (c := '=') (by decide) (lead ++ w ++ trail)
      (List.cons_ne_nil '=' []) hequals (List.forall_mem_nil _)
    rw [List.append_nil] at hends
    rw [inside_of_getLast?_ne hlast]
    exact hends

/-- A tag with white space in front of its equals sign has another one at its end or none. -/
theorem written_of_spaced (h : Tag.ofText (trim content) = .ok (.switch d))
    (hhead : content.head? ≠ some '=') (hclosed : ¬ Unclosed content) :
    d.Written isSpace content := by
  obtain ⟨lead, w, hl, htrim, hne, hw⟩ := exists_of_ofText_eq_switch h
  have hlast : w.getLast? = some '=' := by
    by_contra hlast
    refine hclosed ⟨hhead, ?_⟩
    rwa [htrim, ← List.cons_append, List.getLast?_append_of_ne_nil _ hne]
  obtain ⟨u, rfl⟩ := List.getLast?_eq_some_iff.mp hlast
  refine written_of_ofText hw hl (List.forall_mem_nil _) ?_
  simp [htrim, inside]

end Delimiters

namespace Wording

variable {lead gap trail : Text} {d d' : Delimiters}

/-- Between its first equals sign and its last one a tag of valid delimiters has none. -/
theorem equals_notMem_spaced (hl : ∀ c ∈ lead, isSpace c = true)
    (ht : ∀ c ∈ trail, isSpace c = true) (hg : ∀ c ∈ gap, isAsciiSpace c = true) (hd : d.Valid) :
    '=' ∉ lead ++ (d.opening ++ gap ++ d.closing) ++ trail := by
  rw [List.mem_append, List.mem_append]
  rintro ((h | h) | h)
  · exact absurd (hl _ h) (by decide)
  · exact equals_notMem hd hg h
  · exact absurd (ht _ h) (by decide)

/-- The end of a set-delimiter tag stands nowhere before, unless the closing delimiter follows the
first equals sign. -/
theorem breakOn_switch (hd : d.Valid) (h : (switch lead gap trail d').Proper)
    (hover : ¬ d.closing <+: lead ++ d'.opening) :
    breakOn ((switch lead gap trail d').terminator d)
        ((switch lead gap trail d').inside ++ (switch lead gap trail d').terminator d) =
      some ((switch lead gap trail d').inside, []) := by
  obtain ⟨hl, ht, hne, hg, hd', -, -⟩ := h
  have hequals := equals_notMem_spaced hl ht hg hd'
  obtain ⟨a, gap, rfl⟩ := List.exists_cons_of_ne_nil hne
  have ha : a ∉ d.closing := by
    intro hm
    have hspace := hg a List.mem_cons_self
    simp [(hd.closing.2 a hm).1] at hspace
  -- at the first equals sign, the closing delimiter cannot reach over the white space of the gap
  have hfirst : dropPrefix? ('=' :: d.closing)
      ('=' :: (lead ++ (d'.opening ++ a :: gap ++ d'.closing) ++ trail ++ '=' :: d.closing)) =
        none := by
    refine Option.eq_none_iff_forall_ne_some.mpr fun rest hrest => hover ?_
    obtain ⟨-, hcut⟩ := List.cons.inj (dropPrefix?_eq_some_iff.mp hrest)
    have hreach : d.closing <+: lead ++ d'.opening ++
        a :: (gap ++ d'.closing ++ trail ++ '=' :: d.closing) :=
      ⟨rest, hcut.symm.trans (by simp)⟩
    exact isPrefix_of_append_cons ha hreach
  change breakOn ('=' :: d.closing)
    ('=' :: (lead ++ (d'.opening ++ a :: gap ++ d'.closing) ++ trail ++ '=' :: d.closing)) = _
  rw [breakOn_cons, hfirst, breakOn_append_of_ne_head _ (by simp)]
  · simp [breakOn_of_dropPrefix? (dropPrefix?_eq_some_iff.mpr (List.append_nil _).symm), inside]
  · rintro c hc ⟨⟩
    exact hequals hc

end Wording

namespace Delimiters

/-- A tag that is written as it is to be has two equals signs. -/
theorem Written.count_equals {d : Delimiters} {content : Text} (h : d.Written isSpace content) :
    (trim content).count '=' = 2 := by
  obtain ⟨lead, gap, trail, hl, ht, -, hg, hd, hcontent⟩ := h
  have hnone := List.count_eq_zero.mpr (Wording.equals_notMem_spaced hl ht hg hd)
  rw [hcontent, List.cons_append, List.count_cons_self, List.count_append, hnone]
  rfl

end Delimiters

namespace Token

variable {d d' : Delimiters} {s raw rest : Text}

/-- A tag that sets delimiters is written as it is to be, but for its equals signs. -/
theorem written_of_readTag (h : readTag d s = .ok ⟨raw, some (.switch d'), rest⟩) :
    ∃ content, raw = d.opening ++ content ++ d.closing ∧
      (¬ Delimiters.Unclosed content → ¬ Delimiters.TwiceClosed content →
        d'.Written isSpace content) := by
  obtain ⟨inside, rest', tag, hb, hof, hr⟩ := readTag_eq_ok_iff.mp h
  obtain ⟨rfl, htag, rfl⟩ := Reading.mk.inj hr
  obtain rfl := Option.some.inj htag
  obtain ⟨c, inside, rfl⟩ := List.exists_cons_of_ne_nil (inside_ne_nil hof)
  have hs := eq_append_of_breakOn hb
  -- what ends the tag depends on the character in front, be it white space
  by_cases hc : c = '='
  · subst hc
    have hterminator : terminator d s = '=' :: d.closing := by
      rw [hs]
      rfl
    exact ⟨'=' :: (inside ++ ['=']), by simp [hterminator],
      fun _ htwice => Delimiters.written_of_closed hof htwice⟩
  · have hbrace : c ≠ '{' := by
      obtain ⟨t, ht, -⟩ := Tag.ofText_eq_switch_iff.mp hof
      exact ne_of_head?_trim_ne (s := inside) (by decide) (by simp [ht])
    have hterminator : terminator d s = d.closing := by
      rw [hs, List.cons_append, List.cons_append, Wording.terminator_cons, if_neg hbrace, if_neg hc]
    exact ⟨c :: inside, by simp [hterminator],
      fun hclosed _ => Delimiters.written_of_spaced hof (by simpa using hc) hclosed⟩

/-- A tag that begins with an equals sign sets delimiters if it can be read. -/
theorem exists_switch_of_readTag {r : Reading} (hs : (s.dropWhile isSpace).head? = some '=')
    (h : readTag d s = .ok r) : ∃ d', r.tag? = some (.switch d') := by
  obtain ⟨inside, rest, tag, hb, ht, rfl⟩ := readTag_eq_ok_iff.mp h
  have hne : inside.dropWhile isSpace ≠ [] := by
    intro hnil
    simp [trim, hnil, dropEndWhile, Tag.ofText] at ht
  obtain ⟨c, u, hu⟩ := List.exists_cons_of_ne_nil hne
  obtain rfl : c = '=' := by
    rw [eq_append_of_breakOn hb, List.append_assoc, List.dropWhile_append, hu] at hs
    simpa using hs
  have htrim : trim inside = trim ('=' :: u) := by
    rw [trim, trim, hu, List.dropWhile_cons_of_neg (by decide)]
  obtain ⟨t, hequals⟩ := trim_cons (c := '=') (by decide) u
  rw [htrim, hequals] at ht
  obtain ⟨d', -, hd'⟩ := map_eq_ok_iff.mp ht
  exact ⟨d', congrArg some hd'.symm⟩

end Token

namespace Tokens

variable {d : Delimiters} {p : Position} {source : Text} {before after : List Token} {t : Token}
  {tag : Tag}

/-- Every tag is read with the delimiters that the tags before it leave. -/
theorem exists_readTag_of_scan (h : (scan d p source).tokens = before ++ t :: after)
    (ht : t.tag? = some tag) :
    ∃ s rest, Token.readTag (d.after (before.filterMap Token.tag?)) s =
      .ok ⟨t.raw, some tag, rest⟩ := by
  obtain ⟨rest, -, -, hr⟩ := exists_read_of_scan h
  rw [ht] at hr
  obtain ⟨inside, -, hread⟩ := Token.exists_readTag_of_read hr
  exact ⟨inside, rest, hread⟩

/-- Set-delimiter tags are read as they are written. Whatever is read as one is written as one, but
for its equals signs; whatever is written as one is read as one, unless the closing delimiter is
found at its first equals sign; and what begins as one is no tag of another kind. -/
theorem switch_written (hd : d.Valid) (p : Position) :
    (∀ source before t after d', (scan d p source).tokens = before ++ t :: after →
      t.tag? = some (.switch d') →
      let e := d.after (before.filterMap Token.tag?)
      ∃ content, t.raw = e.opening ++ content ++ e.closing ∧
        (¬ Delimiters.Unclosed content → ¬ Delimiters.TwiceClosed content →
          d'.Written isSpace content)) ∧
    (∀ lead gap trail d', (Wording.switch lead gap trail d').Proper →
      ¬ d.closing <+: lead ++ d'.opening → ∀ rest,
      let raw := (Wording.switch lead gap trail d').print d
      scan d p (raw ++ rest) =
        let after := scan d' (p.advance raw) rest
        ⟨⟨p, raw, some (.switch d')⟩ :: after.tokens, after.fault?⟩) ∧
    ∀ s, (s.dropWhile isSpace).head? = some '=' →
      (∃ fault, scan d p (d.opening ++ s) = ⟨[], some (p, fault)⟩) ∨
        ∃ raw d' rest, d.opening ++ s = raw ++ rest ∧
          scan d p (d.opening ++ s) =
            let after := scan d' (p.advance raw) rest
            ⟨⟨p, raw, some (.switch d')⟩ :: after.tokens, after.fault?⟩ := by
  refine ⟨?_, ?_, ?_⟩
  · intro source before t after d' h ht e
    obtain ⟨s, rest, hread⟩ := exists_readTag_of_scan h ht
    exact Token.written_of_readTag hread
  · intro lead gap trail d' hw hover rest raw
    have hread := Wording.readTag_wording hw (Wording.breakOn_switch hd hw hover) rest
    rw [show raw ++ rest = _ from Wording.printBehind_append [] (.switch lead gap trail d') d rest]
    exact scan_of_readTag hread p
  · intro s hs
    cases hread : Token.readTag d s with
    | error fault =>
      exact .inl ⟨fault, scan_of_readTag_error hd hread p⟩
    | ok r =>
      obtain ⟨d', htag⟩ := Token.exists_switch_of_readTag hs hread
      obtain ⟨raw, tag?, rest⟩ := r
      obtain rfl : tag? = some (.switch d') := htag
      exact .inr ⟨raw, d', rest, Token.eq_append_of_readTag hread, scan_of_readTag hread p⟩

/-- One source with a tag that switches and one behind it that switches back, and a tag with one
word. -/
theorem switch_written_back :
    let bars : Delimiters := ⟨['|'], ['|', '>']⟩
    let content : Text := ['=', ' ', '{', '{', '\n', '}', '}', '\u2003', '=']
    let source := ['{', '{', '=', '|', ' ', '|', '>', '=', '}', '}'] ++
      (bars.opening ++ content ++ bars.closing ++ ['x'])
    Delimiters.braces.Valid ∧
      (scan .braces .start source).tokens =
        [⟨.start, ['{', '{', '=', '|', ' ', '|', '>', '=', '}', '}'], some (.switch bars)⟩,
          ⟨⟨10, 1, 11⟩, bars.opening ++ content ++ bars.closing, some (.switch .braces)⟩,
          ⟨⟨24, 2, 7⟩, ['x'], none⟩] ∧
      Delimiters.braces.Written isSpace content ∧
      ∃ fault, scan .braces .start ['{', '{', '=', 'a', '=', '}', '}'] =
        ⟨[], some (.start, fault)⟩ := by
  intro bars content source
  obtain ⟨hwritten, hread, hother⟩ := switch_written Delimiters.braces_valid .start
  have hproper : (Wording.switch [] [' '] [] bars).Proper := by
    refine ⟨by simp, by simp, by simp, by simp [isAsciiSpace], ⟨by decide, by decide⟩, ?_, ?_⟩
    · rintro _ ⟨⟩
      decide
    · rintro _ ⟨⟩
      decide
  have hover : ¬ Delimiters.braces.closing <+: [] ++ bars.opening := by decide
  have hscan : (scan .braces .start source).tokens =
      [⟨.start, ['{', '{', '=', '|', ' ', '|', '>', '=', '}', '}'], some (.switch bars)⟩] ++
        ⟨⟨10, 1, 11⟩, bars.opening ++ content ++ bars.closing, some (.switch .braces)⟩ ::
          [⟨⟨24, 2, 7⟩, ['x'], none⟩] := by
    rw [show source = (Wording.switch [] [' '] [] bars).print .braces ++
        (bars.opening ++ content ++ bars.closing ++ ['x']) from rfl, hread _ _ _ _ hproper hover]
    decide +kernel
  refine ⟨Delimiters.braces_valid, hscan, ?_, ?_⟩
  · obtain ⟨content', hraw, hcontent⟩ := hwritten _ _ _ _ _ hscan rfl
    obtain rfl : content = content' := List.append_cancel_left (List.append_cancel_right hraw)
    refine hcontent (fun hunclosed => hunclosed.1 rfl) ?_
    rintro ⟨u, space, -, htwice⟩
    have hcount := congrArg (List.count '=') htwice
    rw [show content.count '=' = 2 by decide] at hcount
    simp only [List.count_cons_self, List.count_append, List.count_nil] at hcount
    omega
  · rcases hother ['=', 'a', '=', '}', '}'] rfl with h | ⟨raw, d', rest, -, h⟩
    · exact h
    · have hnone : (scan .braces .start ['{', '{', '=', 'a', '=', '}', '}']).tokens = [] := by
        decide +kernel
      rw [show Delimiters.braces.opening ++ ['=', 'a', '=', '}', '}'] =
        ['{', '{', '=', 'a', '=', '}', '}'] from rfl] at h
      simp [h] at hnone

/-- Set-delimiter tags that are read as such although they are not written as such, with ASCII white
space only, and one that is written as such and is not read. -/
theorem switch_not_written :
    let d : Delimiters := ⟨['a'], ['b']⟩
    let marked (content : Text) : Text :=
      Delimiters.braces.opening ++ content ++ Delimiters.braces.closing
    let spaced : Text := ['=', '\u00a0', 'a', ' ', 'b', '=']
    let overlapping : Text := ['=', '}', '}', ' ', 'b', '=']
    let unclosed : Text := [' ', '=', 'a', ' ', 'b']
    let twice : Text := ['=', 'a', ' ', 'b', '=', '=']
    (Token.read .braces (marked spaced) = .ok ⟨marked spaced, some (.switch d), []⟩ ∧
        ¬ d.Written isAsciiSpace spaced) ∧
      (Token.read .braces (marked overlapping) = .error .missingName ∧
        Delimiters.Written isAsciiSpace ⟨['}', '}'], ['b']⟩ overlapping) ∧
      (Token.read .braces (marked unclosed) = .ok ⟨marked unclosed, some (.switch d), []⟩ ∧
        ¬ d.Written isSpace unclosed) ∧
      (Token.read .braces (marked twice) = .ok ⟨marked twice, some (.switch d), []⟩ ∧
        ¬ d.Written isSpace twice) := by
  intro d marked spaced overlapping unclosed twice
  refine ⟨⟨by decide, ?_⟩, ⟨by decide, ?_⟩, ⟨by decide, fun h => ?_⟩, by decide, fun h => ?_⟩
  · rintro ⟨lead, gap, trail, hl, -, -, -, -, hcontent⟩
    have htrim : trim spaced = spaced := by decide
    rw [htrim] at hcontent
    cases lead with
    | nil => simp [spaced, d] at hcontent
    | cons c lead =>
      obtain ⟨-, hcut⟩ := List.cons.inj hcontent
      obtain ⟨rfl, -⟩ := List.cons.inj hcut
      exact absurd (hl _ List.mem_cons_self) (by decide)
  · exact ⟨[], [' '], [], by simp, by simp, by simp, by simp [isAsciiSpace],
      ⟨by decide, by decide⟩, by decide⟩
  · exact absurd h.count_equals (by decide)
  · exact absurd h.count_equals (by decide)

end Tokens
end Mustache
