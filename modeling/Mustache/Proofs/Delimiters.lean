import Mustache.Proofs.Outcome
import Mustache.Proofs.Search
import Mustache.Token

/-! Delimiters that a source may be read with. Every set-delimiter tag that can be read sets such
delimiters, so reading never leaves them. -/
namespace Mustache

namespace Text

/-- The pieces between the characters of a class are made of the text's other characters. -/
theorem mem_of_mem_splitWhere {p : Char → Bool} {s w : Text} (hw : w ∈ splitWhere p s) {c : Char}
    (hc : c ∈ w) : c ∈ s ∧ p c = false := by
  induction s generalizing w with
  | nil =>
    obtain rfl := by simpa [splitWhere] using hw
    simp at hc
  | cons a s ih =>
    have later {v : Text} (hv : v ∈ splitWhere p s) (hcv : c ∈ v) : c ∈ a :: s ∧ p c = false :=
      (ih hv hcv).imp_left (List.mem_cons_of_mem a)
    simp only [splitWhere] at hw
    split at hw
    · rcases List.mem_cons.mp hw with rfl | hw
      · simp at hc
      · exact later hw hc
    · rename_i ha
      split at hw
      · exact absurd (by assumption) (splitWhere_ne_nil p s)
      · rename_i v vs hs
        rcases List.mem_cons.mp hw with rfl | hw
        · rcases List.mem_cons.mp hc with rfl | hc
          · exact ⟨List.mem_cons_self, by simpa using ha⟩
          · exact later (by simp [hs]) hc
        · exact later (by simp [hs, hw]) hc

/-- A word is not empty, and its characters are characters of the text that are no white space. -/
theorem of_mem_words {s w : Text} (hw : w ∈ words s) :
    w ≠ [] ∧ ∀ c ∈ w, c ∈ s ∧ isAsciiSpace c = false := by
  obtain ⟨hs, hne⟩ := List.mem_filter.mp hw
  exact ⟨by simpa using hne, fun _ => mem_of_mem_splitWhere hs⟩

end Text

namespace Delimiters

/-- A mark that a tag can open or close with: not empty, no white space of the ASCII set, no `=`. -/
def IsMark (m : Text) : Prop :=
  m ≠ [] ∧ ∀ c ∈ m, Text.isAsciiSpace c = false ∧ c ≠ '='

instance (m : Text) : Decidable (IsMark m) :=
  @instDecidableAnd _ _ _ (List.decidableBAll (fun c => Text.isAsciiSpace c = false ∧ c ≠ '=') m)

/-- Delimiters that a source may be read with. -/
structure Valid (d : Delimiters) : Prop where
  opening : IsMark d.opening
  closing : IsMark d.closing

lemma braces_valid : braces.Valid :=
  ⟨by decide, by decide⟩

lemma ofText_eq_ok_iff {s : Text} {d : Delimiters} :
    ofText s = .ok d ↔ Text.words (inside s) = [d.opening, d.closing] ∧ '=' ∉ inside s := by
  unfold ofText
  split
  · rename_i opening closing hw
    rw [hw]
    split
    · simp_all
    · rename_i he
      simp only [Except.ok.injEq, List.cons.injEq, and_true]
      constructor
      · rintro rfl
        exact ⟨⟨rfl, rfl⟩, he⟩
      · rintro ⟨⟨rfl, rfl⟩, -⟩
        rfl
  · rename_i hw
    simp only [reduceCtorEq, false_iff, not_and]
    intro h
    exact absurd h (hw _ _)

/-- What a set-delimiter tag sets is valid. -/
theorem valid_of_ofText {s : Text} {d : Delimiters} (h : ofText s = .ok d) : d.Valid := by
  obtain ⟨hw, he⟩ := ofText_eq_ok_iff.mp h
  have hmark : ∀ w ∈ [d.opening, d.closing], IsMark w := by
    intro w hwm
    obtain ⟨hne, hc⟩ := Text.of_mem_words (hw ▸ hwm)
    refine ⟨hne, fun c hcw => ⟨(hc c hcw).2, ?_⟩⟩
    rintro rfl
    exact he (hc _ hcw).1
  exact ⟨hmark _ (by simp), hmark _ (by simp)⟩

end Delimiters

namespace Tag

/-- What a tag that begins with a certain character makes of the name behind it. -/
def named? : Char → Option (Text → Tag)
  | '#' => some (opening false)
  | '^' => some (opening true)
  | '/' => some closing
  | '>' => some inclusion
  | '&' | '{' => some (value · false)
  | _ => none

/-- Reading a tag by its first character, in one equation. -/
theorem ofText_cons (c : Char) (s : Text) :
    ofText (c :: s) =
      if c = '!' then .ok comment
      else if c = '=' then switch <$> Delimiters.ofText (s.dropWhile Text.isSpace)
      else match named? c with
        | some tag => tag <$> checkName (s.dropWhile Text.isSpace)
        | none => (value · true) <$> checkName (c :: s) := by
  unfold ofText
  split <;> simp_all [named?]

lemma named?_ne_switch {c : Char} {tag : Text → Tag} (h : named? c = some tag) (name : Text)
    (d : Delimiters) : tag name ≠ switch d := by
  unfold named? at h
  split at h <;> simp at h <;> subst h <;> simp

/-- Only a tag that begins with `=` sets delimiters. -/
theorem ofText_eq_switch_iff {s : Text} {d : Delimiters} :
    ofText s = .ok (.switch d) ↔
      ∃ u, s = '=' :: u ∧ Delimiters.ofText (u.dropWhile Text.isSpace) = .ok d := by
  cases s with
  | nil => simp [ofText]
  | cons c s =>
    rw [ofText_cons]
    split
    · simp_all
    · split
      · simp_all [map_eq_ok_iff]
      · split
        · rename_i tag ht
          simp_all [map_eq_ok_iff, named?_ne_switch ht]
        · simp_all [map_eq_ok_iff]

lemma valid_delimitersAfter {s : Text} {tag : Tag} (h : ofText s = .ok tag) {d : Delimiters}
    (hd : d.Valid) : (delimitersAfter d tag).Valid := by
  cases tag with
  | switch d' =>
    obtain ⟨u, -, hu⟩ := ofText_eq_switch_iff.mp h
    exact Delimiters.valid_of_ofText hu
  | _ => exact hd

end Tag
end Mustache
