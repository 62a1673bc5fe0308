import Mustache.Proofs.Wording

/-! White space in tags with names. Wherever it stands, the tag says the same, unless it stands in
front of a brace: only a brace right behind the opening delimiter is closed by another one. -/
namespace Mustache

open Text

namespace Tag

lemma isName_of_checkName {s name : Text} (h : checkName s = .ok name) : IsName s := by
  unfold checkName at h
  split at h
  · exact .inl ‹_›
  · split at h
    · simp at h
    · split at h
      · simp at h
      · rename_i hn
        simp only [Bool.or_eq_true, not_or, List.any_eq_true, not_exists, not_and] at hn
        exact .inr ⟨fun w hw => by simpa using hn.1 w hw, fun c hc => by simpa using hn.2 c hc⟩

end Tag

namespace Sigil

/-- What a tag with a name begins with. -/
def mark (sigil? : Option Sigil) : Text :=
  (sigil?.map char).toList

lemma tag_injective (x : Sigil) : Function.Injective (x.tag ·) := by
  intro name name' h
  cases x <;> simpa [tag] using h

end Sigil

namespace Wording

/-- The tag of a name behind a sigil, or of an escaped value. -/
def ofName (sigil? : Option Sigil) (lead name trail : Text) : Wording :=
  sigil?.elim (.escaped lead name trail) (.named · lead name trail)

variable {sigil? : Option Sigil} {before lead name trail : Text} {w : Wording} {d : Delimiters}

lemma inside_ofName (sigil? : Option Sigil) (lead name trail : Text) :
    (ofName sigil? lead name trail).inside = Sigil.mark sigil? ++ (lead ++ name ++ trail) := by
  cases sigil? <;> rfl

lemma tag_ofName (sigil? : Option Sigil) (lead name trail : Text) :
    (ofName sigil? lead name trail).tag = (ofName sigil? [] name []).tag := by
  cases sigil? <;> rfl

lemma ending_ofName (sigil? : Option Sigil) (lead name trail : Text) :
    (ofName sigil? lead name trail).ending = if sigil? = some .brace then ['}'] else [] := by
  rcases sigil? with _ | _ | _ | _ | _ | _ | _ <;> rfl

lemma delimitersAfter_ofName (sigil? : Option Sigil) (lead name trail : Text) (d : Delimiters) :
    (ofName sigil? lead name trail).tag.delimitersAfter d = d := by
  rcases sigil? with _ | _ | _ | _ | _ | _ | _ <;> rfl

/-- White space does not stand in what ends a tag with a name. -/
theorem notMem_terminator (hspace : ∀ c ∈ d.closing, isSpace c = false) {c : Char}
    (hc : isSpace c = true) : c ∉ (ofName sigil? lead name trail).terminator d := by
  have hclosing : c ∉ d.closing := fun hm => by simp [hspace c hm] at hc
  have hbrace : c ≠ '}' := by
    rintro rfl
    exact absurd hc (by decide)
  rw [terminator, ending_ofName]
  split <;> simp [hclosing, hbrace]

lemma Proper.ofName (h : (ofName sigil? [] name []).Proper)
    (hl : ∀ c ∈ lead, isSpace c = true) (ht : ∀ c ∈ trail, isSpace c = true) :
    (Wording.ofName sigil? lead name trail).Proper := by
  cases sigil? with
  | none => exact ⟨hl, ht, h.2.2⟩
  | some x => exact ⟨hl, ht, h.2.2⟩

/-- What is read as the name that is written in it is such a name. -/
theorem proper_of_ofText (h : Tag.ofText (trim (ofName sigil? [] name []).inside) =
    .ok (ofName sigil? [] name []).tag) : (ofName sigil? [] name []).Proper := by
  cases sigil? with
  | none =>
    have hinside : (ofName none [] name []).inside = name := List.append_nil name
    rw [hinside] at h
    obtain ⟨hname, -⟩ := Tag.ofText_eq_escaped h
    obtain ⟨htrim, -⟩ := Tag.of_checkName_eq_ok hname
    refine ⟨by simp, by simp, htrim ▸ Tag.isName_of_checkName hname, fun c hc => ?_⟩
    obtain ⟨s, rfl⟩ := List.head?_eq_some_iff.mp hc
    rw [htrim] at h
    exact (Tag.ofText_eq_escaped h).2 c rfl
  | some x =>
    obtain ⟨s, hs⟩ := trim_cons x.isSpace_char (name ++ [])
    have hsigil : Tag.ofText (x.char :: s) = .ok (x.tag name) := by
      rw [← hs]
      exact h
    have hofText : (x.tag ·) <$> Tag.checkName (s.dropWhile isSpace) = .ok (x.tag name) := by
      rw [← hsigil]
      cases x <;> rfl
    obtain ⟨name', hname, htag⟩ := map_eq_ok_iff.mp hofText
    obtain rfl := x.tag_injective htag
    obtain ⟨hdrop, -⟩ := Tag.of_checkName_eq_ok hname
    exact ⟨by simp, by simp, hdrop ▸ Tag.isName_of_checkName hname⟩

/-- A tag that is read as the name that is written in it has such a name, and ends where it is read
to end. -/
theorem proper_of_readTag {more : Text}
    (h : Token.readTag d ((ofName sigil? [] name []).inside ++
        (ofName sigil? [] name []).terminator d ++ more) =
      .ok ⟨(ofName sigil? [] name []).print d, some (ofName sigil? [] name []).tag, more⟩) :
    (ofName sigil? [] name []).Proper ∧
      breakOn ((ofName sigil? [] name []).terminator d)
        ((ofName sigil? [] name []).inside ++ (ofName sigil? [] name []).terminator d) =
          some ((ofName sigil? [] name []).inside, []) := by
  obtain ⟨inside, rest, tag, hb, ht, hr⟩ := Token.readTag_eq_ok_iff.mp h
  obtain ⟨hraw, htag, rfl⟩ := Token.Reading.mk.inj hr
  obtain rfl := Option.some.inj htag
  have hterminator : Token.terminator d ((ofName sigil? [] name []).inside ++
      (ofName sigil? [] name []).terminator d ++ more) =
        (ofName sigil? [] name []).terminator d := by
    cases sigil? with
    | none =>
      obtain ⟨-, hmark⟩ := Tag.ofText_eq_escaped ht
      have hcut := eq_append_of_breakOn hb
      rw [List.append_assoc inside] at hcut
      rw [hcut]
      exact Token.terminator_of_head?_trim d (Token.inside_ne_nil ht)
        (fun h => hmark _ h (by decide)) (fun h => hmark _ h (by decide)) _
    | some x =>
      rw [inside_ofName, Sigil.mark]
      cases x <;> rfl
  rw [hterminator] at hb hraw
  obtain rfl : (ofName sigil? [] name []).inside = inside :=
    List.append_cancel_left (List.append_cancel_right hraw)
  exact ⟨proper_of_ofText ht, breakOn_of_append hb⟩

/-- The end of a tag is found behind white space that is put into it. -/
theorem breakOn_padded (hspace : ∀ c, isSpace c = true →
      c ∉ (ofName sigil? [] name []).terminator d)
    (hne : (ofName sigil? [] name []).terminator d ≠ [])
    (h : breakOn ((ofName sigil? [] name []).terminator d)
        ((ofName sigil? [] name []).inside ++ (ofName sigil? [] name []).terminator d) =
          some ((ofName sigil? [] name []).inside, []))
    (hb : ∀ c ∈ before, isSpace c = true) (hl : ∀ c ∈ lead, isSpace c = true)
    (ht : ∀ c ∈ trail, isSpace c = true) :
    breakOn ((ofName sigil? [] name []).terminator d)
        (before ++ (ofName sigil? lead name trail).inside ++
          (ofName sigil? [] name []).terminator d) =
      some (before ++ (ofName sigil? lead name trail).inside, []) := by
  -- from the back to the front, so that what is behind is already where it is to be
  generalize (ofName sigil? [] name []).terminator d = pattern at *
  rw [inside_ofName] at h ⊢
  have hbehind : breakOn pattern ((Sigil.mark sigil? ++ name) ++ (trail ++ pattern)) =
      some ((Sigil.mark sigil? ++ name) ++ (trail ++ []), []) :=
    breakOn_insert hne (fun c hc => hspace c (ht c hc)) (by simpa using h)
  have hbetween : breakOn pattern (Sigil.mark sigil? ++ (lead ++ (name ++ trail ++ pattern))) =
      some (Sigil.mark sigil? ++ (lead ++ (name ++ trail)), []) :=
    breakOn_insert hne (fun c hc => hspace c (hl c hc)) (by simpa using hbehind)
  have hfront : breakOn pattern
      ([] ++ (before ++ (Sigil.mark sigil? ++ (lead ++ (name ++ trail ++ pattern))))) =
        some ([] ++ (before ++ (Sigil.mark sigil? ++ (lead ++ (name ++ trail)))), []) :=
    breakOn_insert hne (fun c hc => hspace c (hb c hc)) hbetween
  simpa using hfront

/-- The name in a brace behind white space would be read with the brace that closes it. -/
theorem ne_of_readTag_behind_brace {r : Token.Reading} {rest : Text} (hn : Tag.IsName name)
    (hb : ∀ c ∈ before, isSpace c = true) (hne : before ≠ [])
    (hl : ∀ c ∈ lead, isSpace c = true)
    (hr : Token.readTag d (before ++ (named .brace lead name trail).inside ++
      (named .brace lead name trail).terminator d ++ rest) = .ok r)
    (hraw : r.raw = (named .brace lead name trail).printBehind before d) :
    r.tag? ≠ some (.value name false) := by
  obtain ⟨inside, rest', tag, -, ht, rfl⟩ := Token.readTag_eq_ok_iff.mp hr
  intro htag
  obtain rfl := Option.some.inj htag
  have hterminator : Token.terminator d (before ++ (named .brace lead name trail).inside ++
      (named .brace lead name trail).terminator d ++ rest) = d.closing := by
    rw [List.append_assoc, List.append_assoc, terminator_behind d hb hne]
  have hinside : inside = before ++ ('{' :: (lead ++ name ++ trail ++ ['}'])) ++ [] := by
    rw [hterminator] at hraw
    have hcut : inside ++ d.closing =
        before ++ ('{' :: (lead ++ name ++ trail ++ ['}'])) ++ [] ++ d.closing := by
      simpa [printBehind, Wording.inside, Wording.terminator, ending, Sigil.char] using hraw
    exact List.append_cancel_right hcut
  have htrim : trim inside = '{' :: (lead ++ name ++ trail ++ ['}']) := by
    rw [hinside]
    refine trim_spaced hb ?_ ?_ (by simp)
    · rintro c ⟨⟩
      decide
    · intro c hc
      rw [← List.cons_append, List.getLast?_concat] at hc
      obtain ⟨⟩ := hc
      decide
  have hdrop : (lead ++ name ++ trail ++ ['}']).dropWhile isSpace = name ++ (trail ++ ['}']) := by
    rw [List.append_assoc, List.append_assoc]
    apply dropWhile_spaced hl
    rw [List.head?_append_of_ne_nil _ hn.ne_nil]
    exact hn.isSpace_head
  have hname : (Tag.value · false) <$> Tag.checkName (name ++ (trail ++ ['}'])) =
      .ok (.value name false) := by
    rw [← hdrop, ← ht, htrim]
    rfl
  obtain ⟨name', hcheck, hvalue⟩ := map_eq_ok_iff.mp hname
  obtain ⟨rfl, -⟩ := by simpa using hvalue
  obtain ⟨hsame, -⟩ := Tag.of_checkName_eq_ok hcheck
  simp at hsame

/-- A tag with a brace right behind its opening delimiter ends with a brace and its closing
delimiter. -/
theorem exists_raw_eq_of_read_brace {s : Text} {r : Token.Reading}
    (hr : Token.read d (d.opening ++ '{' :: s) = .ok r) :
    ∃ inside, r.raw = d.opening ++ '{' :: inside ++ '}' :: d.closing := by
  rw [Token.read_opening] at hr
  obtain ⟨inside, rest, tag, hb, ht, rfl⟩ := Token.readTag_eq_ok_iff.mp hr
  have hcut := eq_append_of_breakOn hb
  obtain ⟨c, inside, rfl⟩ := List.exists_cons_of_ne_nil (Token.inside_ne_nil ht)
  obtain ⟨rfl, -⟩ := List.cons.inj hcut
  exact ⟨inside, rfl⟩

/-- White space around a name and in front of a sigil does not change what a tag says, nor that it
ends behind its closing mark. In front of a brace it does: a tag with such white space is not read
as the one without it. -/
theorem scan_padded (hne : d.closing ≠ []) (hspace : ∀ c ∈ d.closing, isSpace c = false)
    {more : Text}
    (h : Token.read d ((ofName sigil? [] name []).print d ++ more) =
      .ok ⟨(ofName sigil? [] name []).print d, some (ofName sigil? [] name []).tag, more⟩)
    (hb : ∀ c ∈ before, isSpace c = true) (hl : ∀ c ∈ lead, isSpace c = true)
    (ht : ∀ c ∈ trail, isSpace c = true) :
    let raw := (ofName sigil? lead name trail).printBehind before d
    let tag := (ofName sigil? [] name []).tag
    ((sigil? = some .brace → before = []) → ∀ p rest,
      Tokens.scan d p (raw ++ rest) =
        let after := Tokens.scan d (p.advance raw) rest
        ⟨⟨p, raw, some tag⟩ :: after.tokens, after.fault?⟩) ∧
    (sigil? = some .brace → before ≠ [] → ∀ rest r,
      Token.read d (raw ++ rest) = .ok r → r.raw = raw → r.tag? ≠ some tag) ∧
    ∀ s r, Token.read d (d.opening ++ '{' :: s) = .ok r →
      ∃ inside, r.raw = d.opening ++ '{' :: inside ++ '}' :: d.closing := by
  intro raw tag
  have hcompact : Token.readTag d ((ofName sigil? [] name []).inside ++
      (ofName sigil? [] name []).terminator d ++ more) =
        .ok ⟨(ofName sigil? [] name []).print d, some tag, more⟩ :=
    (read_printBehind [] _ d more).symm.trans h
  obtain ⟨hproper, hend⟩ := proper_of_readTag hcompact
  have hpadded := hproper.ofName hl ht
  have hterminator : (ofName sigil? lead name trail).terminator d =
      (ofName sigil? [] name []).terminator d := by
    rw [terminator, terminator, ending_ofName, ending_ofName]
  refine ⟨fun hbrace p rest => ?_, fun hbrace hbefore rest r hr hraw => ?_,
    fun s r hr => exists_raw_eq_of_read_brace hr⟩
  · have hnothing : before ≠ [] → (ofName sigil? lead name trail).ending = [] := by
      intro hbefore
      rw [ending_ofName, if_neg fun hs => hbefore (hbrace hs)]
    have hne' : (ofName sigil? [] name []).terminator d ≠ [] := by simp [terminator, hne]
    have hpaddedEnd :=
      breakOn_padded (fun _ hc => notMem_terminator hspace hc) hne' hend hb hl ht
    rw [← hterminator] at hpaddedEnd
    rw [show raw ++ rest = _ from printBehind_append .., Tokens.scan_of_readTag
      (readTag_behind hpadded hb hnothing hpaddedEnd rest), delimitersAfter_ofName, tag_ofName]
  · subst hbrace
    rw [read_printBehind] at hr
    exact ne_of_readTag_behind_brace hproper.2.2 hb hbefore hl hr hraw

/-- A section with white space wherever it can stand. -/
theorem scan_padded_section :
    let padded := printBehind [' '] (ofName (some .hash) ['\n'] ['a'] ['\u2003']) .braces
    Token.read .braces ((ofName (some .hash) [] ['a'] []).print .braces ++ ['b']) =
        .ok ⟨(ofName (some .hash) [] ['a'] []).print .braces, some (.opening false ['a']), ['b']⟩ ∧
      Tokens.scan .braces .start (padded ++ ['b']) =
        ⟨[⟨.start, padded, some (.opening false ['a'])⟩, ⟨⟨11, 2, 5⟩, ['b'], none⟩], none⟩ := by
  intro padded
  have h : Token.read .braces ((ofName (some .hash) [] ['a'] []).print .braces ++ ['b']) =
      .ok ⟨(ofName (some .hash) [] ['a'] []).print .braces,
        some (.opening false ['a']), ['b']⟩ := by
    decide
  have hall {b : Bool} {s : Text} (hs : s.all (isSpace · == b) = true) :
      ∀ c ∈ s, isSpace c = b := by
    simpa using hs
  obtain ⟨hscan, -⟩ := scan_padded (by decide) (hall (by decide)) h (hall (s := [' ']) (by decide))
    (hall (s := ['\n']) (by decide)) (hall (s := ['\u2003']) (by decide))
  refine ⟨h, (hscan (by simp) .start ['b']).trans ?_⟩
  decide +kernel

/-- White space in front of a brace leaves its mark out of the tag, or lets the tag do without. -/
theorem read_brace_behind_space :
    let tag := Tag.value ['a'] false
    Token.read .braces ['{', '{', '{', 'a', '}', '}', '}'] =
        .ok ⟨['{', '{', '{', 'a', '}', '}', '}'], some tag, []⟩ ∧
      Token.read .braces ['{', '{', ' ', '{', 'a', '}', '}', '}'] =
        .ok ⟨['{', '{', ' ', '{', 'a', '}', '}'], some tag, ['}']⟩ ∧
      Token.read .braces ['{', '{', ' ', '{', 'a', ' ', '}', '}'] =
        .ok ⟨['{', '{', ' ', '{', 'a', ' ', '}', '}'], some tag, []⟩ := by
  decide

end Wording
end Mustache
