import Mathlib.Data.List.Induction
import Mustache.Proofs.Line
import Mustache.Proofs.Search

/-! Indented text: what is found in a text, cut off it or read from its words is found as well when
blanks are put in front of its lines. -/
namespace Mustache.Text

variable {indent : Text}

/-- Puts a text behind every newline. -/
def indentAfter (indent s : Text) : Text :=
  s.flatMap fun c => if c = '\n' then c :: indent else [c]

/-- Puts a text behind every newline but one at the very end. -/
def indentWithin (indent : Text) : Text → Text
  | [] => []
  | c :: s => c :: ((if c = '\n' ∧ s ≠ [] then indent else []) ++ indentWithin indent s)

@[simp] lemma indentAfter_nil (indent : Text) : indentAfter indent [] = [] := rfl

lemma indentAfter_cons (indent : Text) (c : Char) (s : Text) :
    indentAfter indent (c :: s) = (if c = '\n' then c :: indent else [c]) ++
      indentAfter indent s := by
  simp [indentAfter]

@[simp] lemma indentAfter_append (indent s t : Text) :
    indentAfter indent (s ++ t) = indentAfter indent s ++ indentAfter indent t := by
  simp [indentAfter]

/-- Text on one line stays as it is. -/
theorem indentAfter_of_notMem (indent : Text) {s : Text} (h : '\n' ∉ s) :
    indentAfter indent s = s := by
  induction s with
  | nil => rfl
  | cons c s ih =>
    have hc : c ≠ '\n' := by rintro rfl; simp at h
    rw [indentAfter_cons, if_neg hc, ih fun hs => h (by simp [hs])]
    rfl

/-- Nothing but the indent comes in. -/
theorem mem_indentAfter_iff {s : Text} {c : Char} (hc : c ∉ indent) :
    c ∈ indentAfter indent s ↔ c ∈ s := by
  induction s with
  | nil => simp
  | cons a s ih =>
    rw [indentAfter_cons, List.mem_append, ih, List.mem_cons]
    by_cases ha : a = '\n' <;> simp [ha, hc]

@[simp] lemma indentWithin_nil (indent : Text) : indentWithin indent [] = [] := rfl

lemma indentWithin_cons_of_ne {c : Char} (hc : c ≠ '\n') (indent s : Text) :
    indentWithin indent (c :: s) = c :: indentWithin indent s := by
  simp [indentWithin, hc]

@[simp] lemma indentWithin_eq_nil_iff {s : Text} : indentWithin indent s = [] ↔ s = [] := by
  cases s <;> simp [indentWithin]

lemma indentWithin_append_of_notMem (indent : Text) {s : Text} (hs : '\n' ∉ s) (t : Text) :
    indentWithin indent (s ++ t) = s ++ indentWithin indent t := by
  induction s with
  | nil => rfl
  | cons c s ih =>
    have hc : c ≠ '\n' := by rintro rfl; simp at hs
    rw [List.cons_append, indentWithin_cons_of_ne hc, ih fun h => hs (by simp [h]),
      List.cons_append]

lemma Blank.newline_notMem (h : Blank indent) : '\n' ∉ indent := by
  intro hm
  simpa using h _ hm

/-- In front of every line is in front of the text and behind every newline that is not its end. -/
theorem indentLines_eq (indent s : Text) :
    indentLines indent s = if s = [] then [] else indent ++ indentWithin indent s := by
  induction s with
  | nil => rfl
  | cons c s ih =>
    rw [if_neg (List.cons_ne_nil c s)]
    unfold indentLines at ih ⊢
    by_cases hc : c = '\n'
    · rw [lines, if_pos hc, List.flatMap_cons, ih]
      by_cases hs : s = [] <;> simp [indentWithin, hc, hs]
    · cases s with
      | nil => simp [lines, hc, indentWithin]
      | cons a s =>
        rw [lines, if_neg hc, indentWithin_cons_of_ne hc]
        rw [if_neg (List.cons_ne_nil a s)] at ih
        split
        · rename_i hl
          simp [hl] at ih
        · rename_i l ls hl
          rw [hl, List.flatMap_cons, List.append_assoc, List.append_cancel_left_eq] at ih
          simp [ih]

lemma indentWithin_indentWithin (i j s : Text) (hi : Blank i) :
    indentWithin j (indentWithin i s) = indentWithin (j ++ i) s := by
  induction s with
  | nil => rfl
  | cons c s ih =>
    by_cases hc : c = '\n'
    · by_cases hs : s = []
      · simp [indentWithin, hc, hs]
      · simp [indentWithin, hc, hs, indentWithin_append_of_notMem j hi.newline_notMem, ih]
    · rw [indentWithin_cons_of_ne hc, indentWithin_cons_of_ne hc, indentWithin_cons_of_ne hc, ih]

/-- Indented twice is indented by both together, the later one in front. -/
theorem indentLines_indentLines {i : Text} (hi : Blank i) (j s : Text) :
    indentLines j (indentLines i s) = indentLines (j ++ i) s := by
  rw [indentLines_eq i]
  split
  · simp_all [indentLines, lines]
  · rename_i hs
    rw [indentLines_eq, indentLines_eq, if_neg hs, if_neg (by simp [hs]),
      indentWithin_append_of_notMem j hi.newline_notMem, indentWithin_indentWithin i j s hi,
      List.append_assoc]

/-- A pattern without newlines stands at the start of an indented text as it did before. -/
theorem dropPrefix?_indentWithin (indent : Text) {pattern : Text} (hp : '\n' ∉ pattern) (s : Text) :
    dropPrefix? pattern (indentWithin indent s) =
      (dropPrefix? pattern s).map (indentWithin indent) := by
  induction pattern generalizing s with
  | nil => rfl
  | cons p pattern ih =>
    cases s with
    | nil => rfl
    | cons c s =>
      by_cases hpc : p = c
      · subst hpc
        have hn : p ≠ '\n' := by rintro rfl; simp at hp
        rw [indentWithin_cons_of_ne hn, dropPrefix?, dropPrefix?, if_pos rfl, if_pos rfl,
          ih fun h => hp (by simp [h])]
      · simp [indentWithin, dropPrefix?, hpc]

/-- A pattern without white space is first found where it was before. -/
theorem breakOn_indentWithin (hi : Blank indent) {pattern : Text} (hne : pattern ≠ [])
    (hp : ∀ c ∈ pattern, isAsciiSpace c = false) (s : Text) :
    breakOn pattern (indentWithin indent s) =
      (breakOn pattern s).map fun (b, a) => (indentAfter indent b, indentWithin indent a) := by
  have hnew : '\n' ∉ pattern := by
    intro h
    simpa [isAsciiSpace] using hp _ h
  have hhead (c : Char) (hc : c ∈ indent) : pattern.head? ≠ some c := by
    intro h
    have := hp c (List.mem_of_mem_head? h)
    simp [isAsciiSpace_of_isBlank (hi c hc)] at this
  induction s with
  | nil => simp [breakOn, hne]
  | cons c s ih =>
    have hdrop := dropPrefix?_indentWithin indent hnew (c :: s)
    cases hd : dropPrefix? pattern (c :: s) with
    | some rest =>
      rw [hd] at hdrop
      rw [breakOn_of_dropPrefix? hdrop, breakOn_of_dropPrefix? hd]
      rfl
    | none =>
      rw [hd] at hdrop
      rw [breakOn_cons, hd]
      simp only [indentWithin] at hdrop ⊢
      rw [breakOn_cons, hdrop]
      by_cases hc : c = '\n' ∧ s ≠ []
      · rw [if_pos hc, breakOn_append_of_ne_head _ hne hhead, ih]
        simp [Option.map_map, Function.comp_def, indentAfter_cons, hc.1]
      · rw [if_neg hc, List.nil_append, ih]
        cases hb : breakOn pattern s with
        | none => rfl
        | some r =>
          have hcn : c ≠ '\n' := by
            rintro rfl
            obtain rfl : s = [] := by simpa using hc
            simp [breakOn, hne] at hb
          simp [indentAfter_cons, hcn]

lemma isSpace_indentAfter (hi : Blank indent) {s : Text} (hs : ∀ c ∈ s, isSpace c = true) :
    ∀ c ∈ indentAfter indent s, isSpace c = true := by
  intro c hc
  by_cases hci : c ∈ indent
  · exact isSpace_of_isBlank (hi c hci)
  · exact hs c ((mem_indentAfter_iff hci).mp hc)

lemma dropWhile_indentAfter (hi : Blank indent) (s : Text) :
    (indentAfter indent s).dropWhile isSpace = indentAfter indent (s.dropWhile isSpace) := by
  induction s with
  | nil => rfl
  | cons c s ih =>
    by_cases hc : isSpace c = true
    · have hall := isSpace_indentAfter hi (s := [c]) (by simpa using hc)
      rw [List.dropWhile_cons_of_pos hc, ← ih, ← List.singleton_append, indentAfter_append,
        List.dropWhile_append_of_pos hall]
    · have hn : c ≠ '\n' := by rintro rfl; exact hc (by decide)
      rw [List.dropWhile_cons_of_neg hc, indentAfter_cons, if_neg hn, List.singleton_append,
        List.dropWhile_cons_of_neg hc]

lemma dropEndWhile_append (p : Char → Bool) (s : Text) {t : Text} (ht : ∀ c ∈ t, p c = true) :
    dropEndWhile p (s ++ t) = dropEndWhile p s := by
  rw [dropEndWhile, dropEndWhile, List.reverse_append,
    List.dropWhile_append_of_pos fun c hc => ht c (List.mem_reverse.mp hc)]

lemma dropEndWhile_append_singleton (p : Char → Bool) (s : Text) {c : Char} (hc : ¬ p c = true) :
    dropEndWhile p (s ++ [c]) = s ++ [c] := by
  simp [dropEndWhile, hc]

lemma dropEndWhile_indentAfter (hi : Blank indent) (s : Text) :
    dropEndWhile isSpace (indentAfter indent s) = indentAfter indent (dropEndWhile isSpace s) := by
  induction s using List.reverseRecOn with
  | nil => rfl
  | append_singleton s c ih =>
    by_cases hc : isSpace c = true
    · have hall : ∀ a ∈ [c], isSpace a = true := by simpa using hc
      rw [indentAfter_append, dropEndWhile_append _ _ (isSpace_indentAfter hi hall), ih,
        dropEndWhile_append _ _ hall]
    · have hn : '\n' ∉ [c] := by
        intro h
        obtain rfl := List.mem_singleton.mp h
        exact hc (by decide)
      rw [indentAfter_append, indentAfter_of_notMem indent hn, dropEndWhile_append_singleton _ _ hc,
        dropEndWhile_append_singleton _ _ hc, indentAfter_append, indentAfter_of_notMem indent hn]

/-- Trimming does not see an indent. -/
theorem trim_indentAfter (hi : Blank indent) (s : Text) :
    trim (indentAfter indent s) = indentAfter indent (trim s) := by
  rw [trim, dropWhile_indentAfter hi, dropEndWhile_indentAfter hi, trim]

/-- White space in front of a text begins no word. -/
theorem splitWhere_append_of_pos {p : Char → Bool} {s : Text} (hs : ∀ c ∈ s, p c = true)
    (t : Text) :
    splitWhere p (s ++ t) = List.replicate s.length [] ++ splitWhere p t := by
  induction s with
  | nil => rfl
  | cons c s ih =>
    rw [List.cons_append, splitWhere, if_pos (hs c (by simp)), ih fun a ha => hs a (by simp [ha])]
    rfl

/-- An indent cuts a text into the same pieces, apart from empty ones behind the first. -/
theorem splitWhere_indentAfter (hi : Blank indent) (s : Text) :
    ∃ w ws ws', splitWhere isAsciiSpace s = w :: ws ∧
      splitWhere isAsciiSpace (indentAfter indent s) = w :: ws' ∧
      ws'.filter (!·.isEmpty) = ws.filter (!·.isEmpty) := by
  induction s with
  | nil => exact ⟨[], [], [], rfl, rfl, rfl⟩
  | cons c s ih =>
    obtain ⟨w, ws, ws', hs, hs', hws⟩ := ih
    by_cases hc : isAsciiSpace c = true
    · obtain ⟨e, he, hcons⟩ : ∃ e : Text, (∀ a ∈ e, isAsciiSpace a = true) ∧
          indentAfter indent (c :: s) = c :: (e ++ indentAfter indent s) := by
        rw [indentAfter_cons]
        by_cases hn : c = '\n'
        · exact ⟨indent, fun a ha => isAsciiSpace_of_isBlank (hi a ha), by simp [hn]⟩
        · exact ⟨[], by simp, by simp [hn]⟩
      refine ⟨[], w :: ws, List.replicate e.length [] ++ w :: ws', ?_, ?_, ?_⟩
      · rw [splitWhere, if_pos hc, hs]
      · rw [hcons, splitWhere, if_pos hc, splitWhere_append_of_pos he, hs']
      · rw [List.filter_append, List.filter_replicate, List.filter_cons, List.filter_cons, hws]
        simp
    · have hn : c ≠ '\n' := by rintro rfl; exact hc (by decide)
      refine ⟨c :: w, ws, ws', ?_, ?_, hws⟩
      · rw [splitWhere, if_neg hc, hs]
      · rw [indentAfter_cons, if_neg hn, List.singleton_append, splitWhere, if_neg hc, hs']

/-- The words of a text are those of the indented text. -/
theorem words_indentAfter (hi : Blank indent) (s : Text) :
    words (indentAfter indent s) = words s := by
  obtain ⟨w, ws, ws', hs, hs', hws⟩ := splitWhere_indentAfter hi s
  simp only [words, wordsBy, hs, hs', List.filter_cons, hws]

end Mustache.Text
