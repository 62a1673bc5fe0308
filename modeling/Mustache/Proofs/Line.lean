import Mathlib.Data.List.DropRight
import Mathlib.Data.List.Induction
import Mustache.Proofs.Placed

/-! Lines of a source: what stands on a line in front of a tag and behind it, read off the source
itself. The layout of tokens follows the same lines character by character. -/
namespace Mustache

namespace Text

/-- A text of spaces and tabs. -/
def Blank (s : Text) : Prop := ∀ c ∈ s, isBlank c = true

instance (s : Text) : Decidable (Blank s) :=
  List.decidableBAll (fun c => isBlank c = true) s

/-- What stands on the last line of a text, behind its last newline. -/
def lastLine (s : Text) : Text :=
  s.rtakeWhile (· != '\n')

@[simp] lemma blank_nil : Blank [] := by simp [Blank]

@[simp] lemma blank_append {s t : Text} : Blank (s ++ t) ↔ Blank s ∧ Blank t := by
  simp [Blank, or_imp, forall_and]

@[simp] lemma blank_singleton {c : Char} : Blank [c] ↔ isBlank c = true := by simp [Blank]

lemma isAsciiSpace_of_isBlank {c : Char} (h : isBlank c = true) : isAsciiSpace c = true := by
  simp only [isBlank, Bool.or_eq_true] at h
  simp only [isAsciiSpace, Bool.or_eq_true]
  tauto

@[simp] lemma isBlank_newline : isBlank '\n' = false := by decide

@[simp] lemma lastLine_nil : lastLine [] = [] := rfl

lemma lastLine_append_singleton (s : Text) (c : Char) :
    lastLine (s ++ [c]) = if c = '\n' then [] else lastLine s ++ [c] := by
  rw [lastLine, List.rtakeWhile_concat]
  by_cases hc : c = '\n' <;> simp [hc, lastLine]

/-- A text without a newline continues the last line. -/
theorem lastLine_append_of_notMem (s : Text) {t : Text} (ht : '\n' ∉ t) :
    lastLine (s ++ t) = lastLine s ++ t := by
  induction t using List.reverseRecOn with
  | nil => simp
  | append_singleton t c ih =>
    have hc : c ≠ '\n' := by rintro rfl; simp at ht
    rw [← List.append_assoc, lastLine_append_singleton, if_neg hc,
      ih fun h => ht (by simp [h]), List.append_assoc]

/-- A text is its lines but the last and what stands on that. -/
theorem exists_eq_append_lastLine (s : Text) :
    ∃ u, s = u ++ lastLine s ∧ (u = [] ∨ ∃ v, u = v ++ ['\n']) := by
  induction s using List.reverseRecOn with
  | nil => exact ⟨[], by simp⟩
  | append_singleton s c ih =>
    obtain ⟨u, hs, hu⟩ := ih
    by_cases hc : c = '\n'
    · refine ⟨s ++ [c], ?_, .inr ⟨s, by rw [hc]⟩⟩
      simp [lastLine_append_singleton, hc]
    · refine ⟨u, ?_, hu⟩
      rw [lastLine_append_singleton, if_neg hc, ← List.append_assoc, ← hs]

/-- Behind a newline the last line does not depend on what came before. -/
theorem lastLine_append_newline (s t : Text) : lastLine (s ++ '\n' :: t) = lastLine t := by
  induction t using List.reverseRecOn with
  | nil => simp [lastLine_append_singleton]
  | append_singleton t c ih =>
    rw [← List.cons_append, ← List.append_assoc, lastLine_append_singleton, ih,
      lastLine_append_singleton]

/-- What a blank line is made of: blanks, and a newline unless the text ends there. -/
theorem blankLine?_eq_some_iff {s : Text} {k : Nat} :
    blankLine? s = some k ↔ ∃ blanks ending rest, s = blanks ++ (ending ++ rest) ∧ Blank blanks ∧
      k = blanks.length + ending.length ∧
      (ending = ['\n'] ∨ ending = ['\r', '\n'] ∨ ending = [] ∧ rest = []) := by
  constructor
  · intro h
    have hs : s = s.takeWhile isBlank ++ s.dropWhile isBlank := List.takeWhile_append_dropWhile.symm
    have hb : Blank (s.takeWhile isBlank) := fun c hc => List.mem_takeWhile_imp hc
    unfold blankLine? at h
    split at h
    · rename_i hd
      exact ⟨_, [], [], by rwa [hd] at hs, hb, by simpa [eq_comm] using h, by simp⟩
    · rename_i rest hd
      exact ⟨_, ['\n'], rest, by rwa [hd] at hs, hb, by simpa [eq_comm] using h, by simp⟩
    · rename_i rest hd
      exact ⟨_, ['\r', '\n'], rest, by rwa [hd] at hs, hb, by simpa [eq_comm] using h, by simp⟩
    · simp at h
  · rintro ⟨blanks, ending, rest, rfl, hb, rfl, hending⟩
    rw [blankLine?, List.takeWhile_append_of_pos hb, List.dropWhile_append_of_pos hb]
    rcases hending with rfl | rfl | ⟨rfl, rfl⟩ <;> simp [isBlank]

lemma blankLine?_cons_of_isBlank {c : Char} (hc : isBlank c = true) (s : Text) :
    blankLine? (c :: s) = (blankLine? s).map (· + 1) := by
  unfold blankLine?
  rw [List.takeWhile_cons_of_pos hc, List.dropWhile_cons_of_pos hc, List.length_cons]
  dsimp only
  split
  · rfl
  · rw [Option.map_some, Nat.add_right_comm]
  · rw [Option.map_some, Nat.add_right_comm]
  · rfl

/-- A line that does not begin with a blank ends within its first two characters or is not blank. -/
theorem blankLine?_cons_of_not_isBlank {c : Char} (hc : isBlank c = false) (s : Text) :
    blankLine? (c :: s) =
      if c = '\n' then some 1 else if c = '\r' ∧ s.head? = some '\n' then some 2 else none := by
  have hc' : ¬ isBlank c = true := by simp [hc]
  unfold blankLine?
  rw [List.takeWhile_cons_of_neg hc', List.dropWhile_cons_of_neg hc']
  cases s <;> dsimp only <;> split <;> simp_all

/-- No more of a text is seen than up to a character that is neither blank nor the return of a line
end. -/
theorem blankLine?_append_cons {c : Char} (hc : isBlank c = false) (hr : c ≠ '\r')
    (s more : Text) : blankLine? (s ++ c :: more) = blankLine? (s ++ [c]) := by
  induction s with
  | nil =>
    rw [List.nil_append, List.nil_append, blankLine?_cons_of_not_isBlank hc,
      blankLine?_cons_of_not_isBlank hc]
    simp [hr]
  | cons a s ih =>
    rw [List.cons_append, List.cons_append]
    cases ha : isBlank a with
    | true => rw [blankLine?_cons_of_isBlank ha, blankLine?_cons_of_isBlank ha, ih]
    | false =>
      rw [blankLine?_cons_of_not_isBlank ha, blankLine?_cons_of_not_isBlank ha]
      cases s <;> rfl

end Text

namespace Layout

/-- Followed from the start of a source, the line in front is what stands on the last line, if
that is blank. -/
theorem Lead.advance_start (s : Text) :
    Lead.advance (some []) s =
      if Text.Blank (Text.lastLine s) then some (Text.lastLine s).reverse else none := by
  induction s using List.reverseRecOn with
  | nil => simp [Lead.advance]
  | append_singleton s c ih =>
    rw [Lead.advance_append, ih, Text.lastLine_append_singleton]
    by_cases hc : c = '\n'
    · simp [Lead.advance, Lead.next, hc]
    · by_cases hb : Text.isBlank c = true
      · by_cases hl : Text.Blank (Text.lastLine s) <;> simp [Lead.advance, Lead.next, hc, hb, hl]
      · simp [Lead.advance, Lead.next, hc, hb]

end Layout
end Mustache
