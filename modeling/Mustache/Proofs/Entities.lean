import Mathlib.Data.List.Infix
import Mathlib.Logic.Function.Basic
import Mustache.Render.Escape

/-! Escaped text: it can be read back, and holds nothing that markup would take for its own. -/
namespace Mustache

namespace Text

/-- The characters that markup takes for its own. -/
def markup : List Char := ['&', '<', '>', '"']

/-- Text without them. -/
def Unmarked (s : Text) : Prop := ∀ c ∈ s, c ∉ markup

instance (s : Text) : Decidable (Unmarked s) :=
  List.decidableBAll (fun c => c ∉ markup) s

/-- What stands for them in escaped text. -/
def entities : List Text :=
  [['&', 'a', 'm', 'p', ';'], ['&', 'l', 't', ';'], ['&', 'g', 't', ';'],
    ['&', 'q', 'u', 'o', 't', ';']]

@[simp] lemma unmarked_nil : Unmarked [] := by simp [Unmarked]

@[simp] lemma unmarked_append {s t : Text} : Unmarked (s ++ t) ↔ Unmarked s ∧ Unmarked t := by
  simp [Unmarked, or_imp, forall_and]

end Text

open Text

/-- A character is escaped by an entity, or it is no markup and stays as it is. -/
theorem escapeChar_cases (c : Char) :
    c ∈ markup ∧ escapeChar c ∈ entities ∨ c ∉ markup ∧ escapeChar c = [c] := by
  have hentities : ∀ c ∈ markup, escapeChar c ∈ entities := by simp [markup, entities, escapeChar]
  by_cases hc : c ∈ markup
  · exact .inl ⟨hc, hentities c hc⟩
  · refine .inr ⟨hc, ?_⟩
    unfold escapeChar
    split <;> simp_all [markup]

lemma escape_of_unmarked {s : Text} (h : Unmarked s) : escape s = s := by
  induction s with
  | nil => rfl
  | cons c s ih =>
    rcases escapeChar_cases c with ⟨hc, -⟩ | ⟨-, hc⟩
    · exact absurd hc (h c List.mem_cons_self)
    · rw [escape_cons, hc, ih fun a ha => h a (List.mem_cons_of_mem c ha), List.singleton_append]

/-- Reads entities back. -/
def unescape : Text → Text
  | '&' :: 'a' :: 'm' :: 'p' :: ';' :: s => '&' :: unescape s
  | '&' :: 'l' :: 't' :: ';' :: s => '<' :: unescape s
  | '&' :: 'g' :: 't' :: ';' :: s => '>' :: unescape s
  | '&' :: 'q' :: 'u' :: 'o' :: 't' :: ';' :: s => '"' :: unescape s
  | c :: s => c :: unescape s
  | [] => []

lemma unescape_escapeChar_append (c : Char) (s : Text) :
    unescape (escapeChar c ++ s) = c :: unescape s := by
  unfold escapeChar
  split
  · rfl
  · rfl
  · rfl
  · rfl
  · rename_i hc _ _ _
    rw [List.singleton_append, unescape.eq_def]
    split <;> simp_all

/-- What is escaped can be read back. -/
theorem unescape_escape (s : Text) : unescape (escape s) = s := by
  induction s with
  | nil => rfl
  | cons c s ih => rw [escape_cons, unescape_escapeChar_append, ih]

lemma escape_injective : Function.Injective escape :=
  Function.LeftInverse.injective unescape_escape

/-- The only markup in escaped text are ampersands. -/
theorem notMem_escape {c : Char} (hc : c ∈ markup) (hne : c ≠ '&') (s : Text) : c ∉ escape s := by
  have hentities : ∀ e ∈ entities, c ∉ e := by
    rcases (by simpa [markup, hne] using hc : c = '<' ∨ c = '>' ∨ c = '"') with rfl | rfl | rfl <;>
      decide
  induction s with
  | nil => simp
  | cons a s ih =>
    rw [escape_cons, List.mem_append, not_or]
    refine ⟨?_, ih⟩
    rcases escapeChar_cases a with ⟨-, ha⟩ | ⟨ha, hsame⟩
    · exact hentities _ ha
    · rw [hsame, List.mem_singleton]
      rintro rfl
      exact ha hc

/-- An ampersand is the first character of an entity, and no other. -/
theorem eq_nil_of_escapeChar_eq {c : Char} {before after : Text}
    (h : escapeChar c = before ++ '&' :: after) : escapeChar c ∈ entities ∧ before = [] := by
  have hentities : ∀ e ∈ entities, '&' ∉ e.tail := by decide
  rcases escapeChar_cases c with ⟨-, hc⟩ | ⟨hc, hsame⟩
  · refine ⟨hc, ?_⟩
    cases before with
    | nil => rfl
    | cons a before =>
      have hnot := hentities _ hc
      rw [h] at hnot
      simp at hnot
  · rw [hsame] at h
    have hmem : '&' ∈ [c] := by simp [h]
    obtain rfl := List.mem_singleton.mp hmem
    simp [markup] at hc

/-- Every ampersand in escaped text begins an entity. -/
theorem exists_entity_of_escape_eq {s before after : Text}
    (h : escape s = before ++ '&' :: after) : ∃ e ∈ entities, e <+: '&' :: after := by
  induction s generalizing before with
  | nil => simp at h
  | cons c s ih =>
    rw [escape_cons] at h
    rcases List.append_eq_append_iff.mp h with ⟨u, -, hu⟩ | ⟨u, hu, hrest⟩
    · exact ih hu
    · cases u with
      | nil => exact @ih [] hrest.symm
      | cons a u =>
        obtain ⟨rfl, hafter⟩ := List.cons.inj hrest
        obtain ⟨hentity, rfl⟩ := eq_nil_of_escapeChar_eq hu
        exact ⟨_, hentity, escape s, by rw [hu, hafter]; rfl⟩

end Mustache
