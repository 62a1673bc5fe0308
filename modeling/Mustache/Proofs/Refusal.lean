import Mustache.Proofs.Balance
import Mustache.Proofs.Slice
import Mustache.Proofs.Tiling

/-! Refusals: a source that is no template is refused for one of its tags. The place that is told is
where that tag begins, and its line and column lead to its offset. -/
namespace Mustache

open Text

namespace Tokens

/-- A tag among others belongs to a token among others. -/
theorem exists_tokens_of_tags_eq {ts : Tokens} {before after : List (Position × Tag)} {p : Position}
    {tag : Tag} (h : ts.tags = before ++ (p, tag) :: after) :
    ∃ read raw more, ts.tokens = read ++ ⟨p, raw, some tag⟩ :: more ∧
      tags ⟨read, none⟩ = before ∧ tags ⟨more, none⟩ = after := by
  obtain ⟨front, behind, htokens, hfront, hbehind⟩ := List.filterMap_eq_append_iff.mp h
  obtain ⟨texts, ⟨q, raw, tag?⟩, more, rfl, hnone, htag, hmore⟩ :=
    List.filterMap_eq_cons_iff.mp hbehind
  obtain ⟨t, rfl, ht⟩ := Option.map_eq_some_iff.mp htag
  obtain ⟨rfl, rfl⟩ := Prod.mk.inj ht
  refine ⟨front ++ texts, raw, more, by simp [htokens], ?_, hmore⟩
  have htexts : texts.filterMap (fun t => t.tag?.map (t.start, ·)) = [] :=
    List.filterMap_eq_nil_iff.mpr hnone
  simp only [tags, List.filterMap_append, hfront, htexts, List.append_nil]

/-- A tag begins where the opening delimiter in force stands. -/
theorem exists_opening_of_scan {d : Delimiters} {p q : Position} {s raw : Text}
    {before after : List Token} {tag : Tag}
    (h : (scan d p s).tokens = before ++ ⟨q, raw, some tag⟩ :: after) :
    q = p.advance (Token.sourceOf before) ∧ ∃ inside,
      s = Token.sourceOf before ++ ((d.after (before.filterMap Token.tag?)).opening ++ inside) := by
  obtain ⟨rest, hs, hstart, hread⟩ := exists_read_of_scan h
  obtain ⟨inside, hinside, -⟩ := Token.exists_readTag_of_read hread
  exact ⟨hstart, inside, by rw [hs, hinside]⟩

end Tokens

/-- The tag that an error tells of, by the tokens in front of it and by what stands behind its
opening delimiter: it cannot be read, or it is the first that closes no section, or the innermost
that is left open. -/
def SyntaxError.Concerns (ts : Tokens) (d : Delimiters) (read : List Token) (inside : Text) :
    SyntaxError → Prop
  | malformedTag _ fault =>
    ts.tokens = read ∧ Token.readTag (d.after (read.filterMap Token.tag?)) inside = .error fault
  | unbalancedSection name p => ∃ raw more opened,
    ts.tokens = read ++ ⟨p, raw, some (.closing name)⟩ :: more ∧
      LeavesOpen (Tokens.tags ⟨read, none⟩) opened ∧ opened.head?.map Prod.snd ≠ some name
  | unclosedSection name p => ∃ inverted raw more outer,
    ts.tokens = read ++ ⟨p, raw, some (.opening inverted name)⟩ :: more ∧
      LeavesOpen (Tokens.tags ⟨read, none⟩) outer ∧ Balanced (Tokens.tags ⟨more, none⟩)

namespace Part

/-- Every error tells of a tag of the source, and of the place where it begins. -/
theorem exists_concerns {d : Delimiters} {source : Text} {e : SyntaxError}
    (h : ofSource d source = .error e) :
    ∃ read inside,
      source = Token.sourceOf read ++ ((d.after (read.filterMap Token.tag?)).opening ++ inside) ∧
        e.position = Position.start.advance (Token.sourceOf read) ∧
        e.Concerns (Tokens.ofText d source) d read inside ∧
        ∃ more, (Tokens.ofText d source).tokens = read ++ more := by
  rw [ofSource_eq_error_iff, Tokens.error?_eq_some_iff, foldlM_openedAfter_eq_error_iff] at h
  rcases h with ⟨p, fault, hf, rfl⟩ |
    ⟨-, ⟨before, after, p, name, opened, htags, hopen, hname, rfl⟩ | ⟨p, name, outer, hopen, rfl⟩⟩
  · rcases Tokens.fault?_scan d .start source with ⟨hnone, -⟩ | ⟨inside, fault', hs, hread, hsome⟩
    · rw [Tokens.ofText, hnone] at hf
      simp at hf
    · obtain ⟨rfl, rfl⟩ := Prod.mk.inj (Option.some.inj (hsome.symm.trans hf))
      exact ⟨_, inside, hs, rfl, ⟨rfl, hread⟩, [], (List.append_nil _).symm⟩
  · obtain ⟨read, raw, more, htokens, rfl, -⟩ := Tokens.exists_tokens_of_tags_eq htags
    obtain ⟨hp, inside, hs⟩ := Tokens.exists_opening_of_scan htokens
    exact ⟨read, inside, hs, hp, ⟨raw, more, opened, htokens, hopen, hname⟩, _, htokens⟩
  · generalize htags : (Tokens.ofText d source).tags = tags at hopen
    cases hopen with
    | opening hb hi =>
      obtain ⟨read, raw, more, htokens, rfl, rfl⟩ := Tokens.exists_tokens_of_tags_eq htags
      obtain ⟨hp, inside, hs⟩ := Tokens.exists_opening_of_scan htokens
      exact ⟨read, inside, hs, hp, ⟨_, raw, more, _, htokens, hb, hi⟩, _, htokens⟩

/-- What a source is refused for points at the tag at fault: the place that is told is the one
behind the tokens in front of that tag, where the opening delimiter in force stands. Its line counts
the newlines in front of it, and on that line its column leads to its offset, so that no other place
in the source has both. -/
theorem position_of_ofSource_eq_error {d : Delimiters} (hd : d.Valid) {source : Text}
    {e : SyntaxError} (h : ofSource d source = .error e) :
    (∃ read inside,
      let before := Token.sourceOf read
      let opening := (d.after (read.filterMap Token.tag?)).opening
      source = before ++ (opening ++ inside) ∧
        e.Concerns (Tokens.ofText d source) d read inside ∧
        e.position.offset = utf8Length before ∧ e.position.offset < utf8Length source ∧
        e.position.line - 1 = before.count '\n') ∧
      Position.at? source e.position.offset = some e.position ∧
      source.offset? e.position.line e.position.column = some e.position.offset ∧
      ∀ m n p q, Position.at? source m = some p → Position.at? source n = some q →
        p.line = q.line → p.column = q.column → m = n := by
  obtain ⟨read, inside, hs, hp, hconcerns, more, htokens⟩ := exists_concerns h
  have hoffset : e.position.offset = utf8Length (Token.sourceOf read) := by
    rw [hp, Position.advance_start_offset]
  refine ⟨⟨read, inside, hs, hconcerns, hoffset, ?_, ?_⟩, ?_, ?_, ?_⟩
  · have hopening := utf8Length_pos (Tokens.valid_after_of_scan hd htokens).opening.1
    have hlength := congrArg utf8Length hs
    rw [utf8Length_append, utf8Length_append] at hlength
    omega
  · rw [hp, Position.advance_line]
    exact Nat.add_sub_cancel_left ..
  · have hat := Position.at?_append (Token.sourceOf read)
      ((d.after (read.filterMap Token.tag?)).opening ++ inside)
    rwa [← hs, ← hoffset, ← hp] at hat
  · have hfound := Position.offset?_append (Token.sourceOf read)
      ((d.after (read.filterMap Token.tag?)).opening ++ inside)
    rwa [← hs, ← hoffset, ← hp] at hfound
  · intro m n p q hm hn hline hcolumn
    obtain ⟨u, t, hu, rfl, rfl⟩ := Position.at?_eq_some_iff.mp hm
    obtain ⟨v, t', hv, rfl, rfl⟩ := Position.at?_eq_some_iff.mp hn
    exact congrArg utf8Length
      (Position.eq_of_advance_eq ⟨t, hu.symm⟩ ⟨t', hv.symm⟩ hline hcolumn)

/-- A section that is left open behind a character of two bytes, a newline and a switch. -/
theorem position_of_ofSource_eq_error_switched :
    let source : Text := ['é', '\n', '{', '{', '=', '<', ' ', '>', '=', '}', '}', 'é', '<', '#',
      'a', '>', '{', '{']
    ofSource .braces source = .error (.unclosedSection ['a'] ⟨14, 2, 11⟩) ∧
      Position.at? source 14 = some ⟨14, 2, 11⟩ ∧ source.offset? 2 11 = some 14 ∧
      (∃ read, utf8Length (Token.sourceOf read) = 14 ∧
        Delimiters.opening (Delimiters.braces.after (read.filterMap Token.tag?)) <+:
          source.drop (Token.sourceOf read).length) ∧
      source.slice? 14 15 = some ['<'] := by
  intro source
  have h : ofSource .braces source = .error (.unclosedSection ['a'] ⟨14, 2, 11⟩) := by
    decide +kernel
  obtain ⟨⟨read, inside, hs, -, hoffset, -, -⟩, hat, hfound, -⟩ :=
    position_of_ofSource_eq_error Delimiters.braces_valid h
  refine ⟨h, hat, hfound, ⟨read, hoffset.symm, ?_⟩, by decide +kernel⟩
  rw [hs, List.drop_left]
  exact List.prefix_append _ _

end Part
end Mustache
