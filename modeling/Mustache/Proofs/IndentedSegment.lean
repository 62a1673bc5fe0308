import Mustache.Proofs.Indent
import Mustache.Proofs.Nests

/-! Indented sources are cut at the same tags. No tag is made, lost or read otherwise by blanks in
front of lines, be it inside the tag itself, under whatever delimiters. -/
namespace Mustache

open Text

variable {indent : Text}

namespace Delimiters

lemma IsMark.newline_notMem {m : Text} (h : IsMark m) : '\n' ∉ m := by
  intro hm
  simpa [isAsciiSpace] using (h.2 _ hm).1

lemma inside_append_equals (s : Text) : inside (s ++ ['=']) = s := by
  simp [inside]

lemma inside_of_getLast?_ne {s : Text} (h : s.getLast? ≠ some '=') : inside s = s := by
  simp [inside, h]

lemma equals_notMem (hi : Blank indent) : '=' ∉ indent := by
  intro h
  simpa [isBlank] using hi _ h

lemma inside_indentAfter (hi : Blank indent) (s : Text) :
    inside (indentAfter indent s) = indentAfter indent (inside s) := by
  induction s using List.reverseRecOn with
  | nil => rfl
  | append_singleton u c _ =>
    rw [indentAfter_append]
    by_cases hc : c = '='
    · subst hc
      rw [indentAfter_of_notMem indent (s := ['=']) (by decide), inside_append_equals,
        inside_append_equals]
    · have hlast : '=' ∉ indentAfter indent [c] := by
        rw [mem_indentAfter_iff (equals_notMem hi)]
        simpa using Ne.symm hc
      have hne : indentAfter indent [c] ≠ [] := by
        rw [indentAfter_cons]
        split <;> simp
      rw [inside_of_getLast?_ne, inside_of_getLast?_ne (by simpa using hc), indentAfter_append]
      rw [List.getLast?_append_of_ne_nil _ hne]
      exact fun h => hlast (List.mem_of_getLast? h)

/-- What a set-delimiter tag sets does not depend on an indent. -/
theorem ofText_indentAfter (hi : Blank indent) {s : Text} {d : Delimiters} (h : ofText s = .ok d) :
    ofText (indentAfter indent s) = .ok d := by
  obtain ⟨hw, he⟩ := ofText_eq_ok_iff.mp h
  rw [ofText_eq_ok_iff, inside_indentAfter hi, words_indentAfter hi,
    mem_indentAfter_iff (equals_notMem hi)]
  exact ⟨hw, he⟩

end Delimiters

namespace Tag

/-- A name is on one line, so that an indent leaves it as it is. -/
theorem newline_notMem_of_checkName {s name : Text} (h : checkName s = .ok name) : '\n' ∉ s := by
  unfold checkName at h
  split at h
  · rename_i hs
    simp [hs]
  · split at h
    · simp at h
    · split at h
      · simp at h
      · rename_i hn
        intro hm
        simp only [Bool.or_eq_true, not_or, List.any_eq_true, not_exists, not_and] at hn
        exact hn.2 _ hm (by decide)

lemma checkName_indentAfter (hi : Blank indent) {s name : Text}
    (h : checkName (s.dropWhile isSpace) = .ok name) :
    checkName ((indentAfter indent s).dropWhile isSpace) = .ok name := by
  rw [dropWhile_indentAfter hi, indentAfter_of_notMem indent (newline_notMem_of_checkName h), h]

/-- What a tag says does not depend on an indent. -/
theorem ofText_indentAfter (hi : Blank indent) {s : Text} {tag : Tag} (h : ofText s = .ok tag) :
    ofText (indentAfter indent s) = .ok tag := by
  cases s with
  | nil => exact h
  | cons c s =>
    rw [ofText_cons] at h
    by_cases hn : c = '\n'
    · subst hn
      obtain ⟨name, hname, -⟩ := map_eq_ok_iff.mp (by simpa [named?] using h)
      exact absurd List.mem_cons_self (newline_notMem_of_checkName hname)
    · rw [indentAfter_cons, if_neg hn, List.singleton_append, ofText_cons]
      split
      · simp_all
      · rename_i hcomment
        rw [if_neg hcomment] at h
        split
        · rename_i hswitch
          rw [if_pos hswitch] at h
          obtain ⟨d, hd, rfl⟩ := map_eq_ok_iff.mp h
          exact map_eq_ok_iff.mpr ⟨d, dropWhile_indentAfter hi s ▸
            Delimiters.ofText_indentAfter hi hd, rfl⟩
        · rename_i hswitch
          rw [if_neg hswitch] at h
          split
          · rename_i tag htag
            simp only [htag] at h
            obtain ⟨name, hname, rfl⟩ := map_eq_ok_iff.mp h
            exact map_eq_ok_iff.mpr ⟨name, checkName_indentAfter hi hname, rfl⟩
          · rename_i htag
            simp only [htag] at h
            obtain ⟨name, hname, rfl⟩ := map_eq_ok_iff.mp h
            have hs := newline_notMem_of_checkName hname
            rw [indentAfter_of_notMem indent fun hm => hs (by simp [hm])]
            exact h

end Tag

namespace Token

lemma terminator_indentWithin (indent : Text) (d : Delimiters) (s : Text) :
    terminator d (indentWithin indent s) = terminator d s := by
  cases s with
  | nil => rfl
  | cons c s =>
    rw [indentWithin]
    unfold terminator
    split <;> simp_all

lemma terminator_of_valid {d : Delimiters} (hd : d.Valid) (s : Text) :
    terminator d s ≠ [] ∧ ∀ c ∈ terminator d s, isAsciiSpace c = false := by
  unfold terminator
  have hc := fun c h => (hd.closing.2 c h).1
  split
  · refine ⟨by simp, fun c h => ?_⟩
    rcases List.mem_cons.mp h with rfl | h
    · decide
    · exact hc c h
  · refine ⟨by simp, fun c h => ?_⟩
    rcases List.mem_cons.mp h with rfl | h
    · decide
    · exact hc c h
  · exact ⟨hd.closing.1, hc⟩

/-- A tag is read from an indented text as it was before, up to the indent inside it. -/
theorem readTag_indentWithin (hi : Blank indent) {d : Delimiters} (hd : d.Valid) {s raw rest : Text}
    {tag : Tag} (h : readTag d s = .ok ⟨raw, some tag, rest⟩) :
    readTag d (indentWithin indent s) =
      .ok ⟨indentAfter indent raw, some tag, indentWithin indent rest⟩ := by
  obtain ⟨inside, rest', tag', hb, ht, hr⟩ := readTag_eq_ok_iff.mp h
  obtain ⟨rfl, rfl, rfl⟩ := by simpa using hr
  obtain ⟨hne, hspace⟩ := terminator_of_valid hd s
  have hnew : '\n' ∉ terminator d s := fun hm => by simpa [isAsciiSpace] using hspace _ hm
  refine readTag_eq_ok_iff.mpr ⟨indentAfter indent inside, indentWithin indent rest,
    tag, ?_, ?_, ?_⟩
  · rw [terminator_indentWithin, breakOn_indentWithin hi hne hspace, hb]
    rfl
  · rw [trim_indentAfter hi]
    exact Tag.ofText_indentAfter hi ht
  · rw [terminator_indentWithin, indentAfter_append, indentAfter_append,
      indentAfter_of_notMem indent hd.opening.newline_notMem, indentAfter_of_notMem indent hnew,
      List.append_assoc]

end Token

namespace Segment

/-- A segment of an indented source. -/
def indented (indent : Text) (x : Segment) : Segment :=
  ⟨indentAfter indent x.text, indentAfter indent x.raw, x.tag⟩

/-- A source with an indent behind its newlines is cut at the same tags. -/
theorem Cuts.indentWithin (hi : Blank indent) {d : Delimiters} (hd : d.Valid) {s last : Text}
    {xs : List Segment} (h : Cuts d s xs last) :
    Cuts d (indentWithin indent s) (xs.map (indented indent)) (indentWithin indent last) := by
  induction h with
  | @last d s hb =>
    apply Cuts.last
    rw [breakOn_indentWithin hi hd.opening.1 fun c hc => (hd.opening.2 c hc).1, hb]
    rfl
  | @tag d s text inside raw rest last tag xs hb ht hr ih =>
    refine .tag ?_ (Token.readTag_indentWithin hi hd ht) (ih (Token.valid_of_readTag ht hd))
    rw [breakOn_indentWithin hi hd.opening.1 fun c hc => (hd.opening.2 c hc).1, hb]
    rfl

/-- Puts a text in front of the first segment, or in front of the last text if there is none. -/
def prefixed (s : Text) : List Segment → List Segment
  | [] => []
  | x :: xs => ⟨s ++ x.text, x.raw, x.tag⟩ :: xs

def prefixedLast (s last : Text) : List Segment → Text
  | [] => s ++ last
  | _ => last

lemma sourceOf_prefixed (s : Text) (xs : List Segment) (last : Text) :
    sourceOf (prefixed s xs) (prefixedLast s last xs) = s ++ sourceOf xs last := by
  cases xs with
  | nil => rfl
  | cons x xs => exact List.append_assoc ..

/-- A source with a text in front is cut at the same tags if the search for the first one goes past
that text. -/
theorem Cuts.prefixed_of_breakOn {d : Delimiters} {u s last : Text} {xs : List Segment}
    (h : Cuts d s xs last)
    (hu : breakOn d.opening (u ++ s) = (breakOn d.opening s).map fun (b, a) => (u ++ b, a)) :
    Cuts d (u ++ s) (Segment.prefixed u xs) (prefixedLast u last xs) := by
  cases h with
  | last hb =>
    apply Cuts.last
    rw [hu, hb]
    rfl
  | tag hb ht hr =>
    refine .tag ?_ ht hr
    rw [hu, hb]
    rfl

/-- A source with blanks in front is cut at the same tags. -/
theorem Cuts.prefixed (hi : Blank indent) {d : Delimiters} (hd : d.Valid) {s last : Text}
    {xs : List Segment} (h : Cuts d s xs last) :
    Cuts d (indent ++ s) (prefixed indent xs) (prefixedLast indent last xs) := by
  have hhead : ∀ c ∈ indent, d.opening.head? ≠ some c := by
    intro c hc hm
    have := (hd.opening.2 c (List.mem_of_mem_head? hm)).1
    simp [isAsciiSpace_of_isBlank (hi c hc)] at this
  exact h.prefixed_of_breakOn (breakOn_append_of_ne_head s hd.opening.1 hhead)

end Segment
end Mustache
