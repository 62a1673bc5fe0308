import Mustache.Position
import Mustache.Proofs.Behind
import Mustache.Proofs.Line

/-! Slices: stretches of a text that are cut out by offsets in bytes, which only works where
characters begin. A place is found again from its offset, and from its line and column. -/
namespace Mustache

namespace Text

/-- Cuts a text behind so many bytes, if a character ends there. -/
def splitBytes? : Nat → Text → Option (Text × Text)
  | 0, s => some ([], s)
  | _ + 1, [] => none
  | n + 1, c :: s =>
    if c.utf8Size ≤ n + 1 then
      (splitBytes? (n + 1 - c.utf8Size) s).map fun (before, after) => (c :: before, after)
    else none

/-- The stretch of a text between two offsets in bytes. There is none where the offsets are not in
order, do not lie in the text, or lie within a character. -/
def slice? (s : Text) (start stop : Nat) : Option Text :=
  if start ≤ stop then do
    let (_, rest) ← splitBytes? start s
    let (t, _) ← splitBytes? (stop - start) rest
    return t
  else none

/-- The offset of the last place where a character stands. -/
def findLast? (c : Char) : Text → Option Nat
  | [] => none
  | a :: s =>
    match findLast? c s with
    | some n => some (a.utf8Size + n)
    | none => if a = c then some 0 else none

/-- Where the last line of a text starts: one byte behind its last newline. -/
def lineStart (s : Text) : Nat :=
  (findLast? '\n' s).elim 0 (· + 1)

/-- The offset of a place that is told by its line and its column: on that line, so many characters
are skipped. -/
def offset? (s : Text) (line column : Nat) : Option Nat := do
  let lines := splitWhere (· == '\n') s
  let here ← lines[line - 1]?
  if column - 1 ≤ here.length then
    return utf8Length ((lines.take (line - 1)).flatMap (· ++ ['\n']) ++ here.take (column - 1))
  else none

lemma utf8Length_pos {s : Text} (h : s ≠ []) : 0 < utf8Length s :=
  (List.length_pos_iff.mpr h).trans_le (length_le_utf8Length s)

@[simp] lemma splitBytes?_append (s t : Text) :
    splitBytes? (utf8Length s) (s ++ t) = some (s, t) := by
  induction s with
  | nil => simp [splitBytes?]
  | cons c s ih =>
    have hc := c.utf8Size_pos
    obtain ⟨n, hn⟩ : ∃ n, utf8Length (c :: s) = n + 1 := ⟨utf8Length (c :: s) - 1, by
      rw [utf8Length_cons]
      omega⟩
    have hle : c.utf8Size ≤ n + 1 := by
      rw [← hn, utf8Length_cons]
      omega
    have hrest : n + 1 - c.utf8Size = utf8Length s := by
      rw [← hn, utf8Length_cons]
      omega
    rw [hn, List.cons_append, splitBytes?, if_pos hle, hrest, ih]
    rfl

lemma splitBytes?_eq_some_iff {n : Nat} {s before after : Text} :
    splitBytes? n s = some (before, after) ↔ s = before ++ after ∧ utf8Length before = n := by
  constructor
  · intro h
    induction s generalizing n before with
    | nil =>
      cases n with
      | zero =>
        obtain ⟨rfl, rfl⟩ := by simpa [splitBytes?] using h
        exact ⟨rfl, rfl⟩
      | succ n => simp [splitBytes?] at h
    | cons c s ih =>
      cases n with
      | zero =>
        obtain ⟨rfl, rfl⟩ := by simpa [splitBytes?] using h
        exact ⟨rfl, rfl⟩
      | succ n =>
        rw [splitBytes?] at h
        split at h
        · obtain ⟨⟨b, a⟩, hba, hcons⟩ := Option.map_eq_some_iff.mp h
          obtain ⟨rfl, rfl⟩ := Prod.mk.inj hcons
          obtain ⟨rfl, hlength⟩ := ih hba
          refine ⟨rfl, ?_⟩
          rw [utf8Length_cons]
          omega
        · simp at h
  · rintro ⟨rfl, rfl⟩
    exact splitBytes?_append before after

/-- A slice lies in the text, from one boundary of characters to another. -/
theorem slice?_eq_some_iff {s t : Text} {start stop : Nat} :
    slice? s start stop = some t ↔ ∃ before after, s = before ++ (t ++ after) ∧
      utf8Length before = start ∧ utf8Length before + utf8Length t = stop := by
  unfold slice?
  constructor
  · intro h
    split at h
    · rename_i hle
      obtain ⟨⟨before, rest⟩, hb, h⟩ := Option.bind_eq_some_iff.mp h
      obtain ⟨⟨t', after⟩, ht, h⟩ := Option.bind_eq_some_iff.mp h
      obtain rfl := Option.some.inj h
      obtain ⟨rfl, hstart⟩ := splitBytes?_eq_some_iff.mp hb
      obtain ⟨rfl, hstop⟩ := splitBytes?_eq_some_iff.mp ht
      exact ⟨before, after, rfl, hstart, by omega⟩
    · simp at h
  · rintro ⟨before, after, rfl, rfl, rfl⟩
    rw [if_pos (Nat.le_add_right _ _), Nat.add_sub_cancel_left]
    simp

/-- What stands between two texts is cut out by its offsets. -/
theorem slice?_of_eq {s : Text} (before t after : Text) {start stop : Nat}
    (hs : s = before ++ (t ++ after)) (hstart : start = utf8Length before)
    (hstop : stop = utf8Length before + utf8Length t) : slice? s start stop = some t :=
  slice?_eq_some_iff.mpr ⟨before, after, hs, hstart.symm, hstop.symm⟩

/-- What stands behind a text is cut out up to the end. -/
theorem slice?_rest (before rest : Text) :
    slice? (before ++ rest) (utf8Length before) (utf8Length (before ++ rest)) = some rest :=
  slice?_of_eq before rest [] (by simp) rfl (utf8Length_append before rest)

/-- What stands in front of a text is cut out from the start. -/
theorem slice?_front (before rest : Text) :
    slice? (before ++ rest) 0 (utf8Length before) = some before :=
  slice?_of_eq [] before rest rfl rfl (by simp)

lemma newline_notMem_lastLine (s : Text) : '\n' ∉ lastLine s := by
  intro h
  simpa using List.mem_rtakeWhile_imp h

lemma findLast?_of_notMem {c : Char} {s : Text} (h : c ∉ s) : findLast? c s = none := by
  induction s with
  | nil => rfl
  | cons a s ih =>
    have ha : a ≠ c := (List.ne_of_not_mem_cons h).symm
    rw [findLast?, ih (List.not_mem_of_not_mem_cons h), if_neg ha]

lemma findLast?_append_cons {c : Char} {t : Text} (h : c ∉ t) (s : Text) :
    findLast? c (s ++ c :: t) = some (utf8Length s) := by
  induction s with
  | nil => simp [findLast?, findLast?_of_notMem h]
  | cons a s ih => rw [List.cons_append, findLast?, ih, utf8Length_cons]

/-- The last line starts where the lines in front of it end. -/
theorem lineStart_eq {s t : Text} (h : s = t ++ lastLine s) (ht : t = [] ∨ ∃ u, t = u ++ ['\n']) :
    lineStart s = utf8Length t := by
  have hlast := newline_notMem_lastLine s
  generalize lastLine s = line at h hlast
  subst h
  rcases ht with rfl | ⟨u, rfl⟩
  · rw [lineStart, List.nil_append, findLast?_of_notMem hlast]
    rfl
  · rw [lineStart, List.append_assoc, List.singleton_append, findLast?_append_cons hlast]
    simp [Char.utf8Size]

/-- The lines of a text and what follows it: those that end in the text, and the one that the text
ends on. -/
theorem exists_splitWhere_append (s t : Text) :
    ∃ ended line rest more, splitWhere (· == '\n') (s ++ t) = ended ++ (line ++ rest) :: more ∧
      s = ended.flatMap (· ++ ['\n']) ++ line ∧ '\n' ∉ line ∧ ended.length = s.count '\n' := by
  induction s with
  | nil =>
    obtain ⟨w, ws, hw⟩ := List.exists_cons_of_ne_nil (splitWhere_ne_nil (· == '\n') t)
    exact ⟨[], [], w, ws, hw, rfl, List.not_mem_nil, rfl⟩
  | cons c s ih =>
    obtain ⟨ended, line, rest, more, hsplit, hs, hline, hcount⟩ := ih
    by_cases hc : c = '\n'
    · subst hc
      refine ⟨[] :: ended, line, rest, more, ?_, ?_, hline, by simp [hcount]⟩
      · simp [splitWhere, hsplit]
      · rw [hs]
        simp
    · have hcount' : (c :: s).count '\n' = s.count '\n' := List.count_cons_of_ne hc
      rw [hcount', ← hcount]
      cases ended with
      | nil =>
        refine ⟨[], c :: line, rest, more, ?_, by simpa using hs, ?_, rfl⟩
        · rw [List.cons_append, splitWhere, if_neg (by simpa using hc), hsplit]
          rfl
        · simp [Ne.symm hc, hline]
      | cons first ended =>
        refine ⟨(c :: first) :: ended, line, rest, more, ?_, by simpa using hs, hline, rfl⟩
        rw [List.cons_append, splitWhere, if_neg (by simpa using hc), hsplit]
        rfl

/-- Texts that take as many bytes from the start of a text are the same. -/
theorem eq_of_isPrefix_of_utf8Length_eq {s u v : Text} (hu : u <+: s) (hv : v <+: s)
    (h : utf8Length u = utf8Length v) : u = v := by
  obtain ⟨t, rfl⟩ := hu
  obtain ⟨t', ht⟩ := hv
  have hsplit := splitBytes?_append u t
  rw [h, ← ht, splitBytes?_append] at hsplit
  exact (Prod.mk.inj (Option.some.inj hsplit)).1.symm

end Text

namespace Position

open Text

/-- The place at an offset, if a character begins there: its line is counted in newlines, its column
in characters of that line. -/
def at? (source : Text) (offset : Nat) : Option Position := do
  let before ← source.slice? 0 offset
  let line ← before.slice? before.lineStart (utf8Length before)
  return ⟨offset, before.count '\n' + 1, line.length + 1⟩

@[simp] lemma advance_start_offset (s : Text) : (start.advance s).offset = utf8Length s :=
  (advance_offset start s).trans (Nat.zero_add _)

lemma advance_column (p : Position) (s : Text) :
    (p.advance s).column =
      if '\n' ∈ s then (lastLine s).length + 1 else p.column + s.length := by
  induction s using List.reverseRecOn with
  | nil => rfl
  | append_singleton s c ih =>
    rw [advance_append, advance_cons, advance_nil, next, lastLine_append_singleton]
    by_cases hc : c = '\n'
    · simp [hc]
    · by_cases hs : '\n' ∈ s
      · simp [hc, hs, ih]
      · simp [hc, hs, ih, Ne.symm hc, Nat.add_assoc]

/-- The column of a place counts the characters in front of it on the last line. -/
theorem advance_start_column (s : Text) : (start.advance s).column = (lastLine s).length + 1 := by
  rw [advance_column]
  split
  · rfl
  · rename_i hs
    have hlast := lastLine_append_of_notMem [] hs
    rw [List.nil_append, lastLine_nil, List.nil_append] at hlast
    rw [hlast, Nat.add_comm]
    rfl

/-- The place behind a text is found from its offset. -/
theorem at?_append (s t : Text) : at? (s ++ t) (utf8Length s) = some (start.advance s) := by
  obtain ⟨u, hs, hu⟩ := exists_eq_append_lastLine s
  have hline : slice? s s.lineStart (utf8Length s) = some (lastLine s) := by
    refine slice?_of_eq u (lastLine s) [] (by simpa using hs) (lineStart_eq hs hu) ?_
    rw [← utf8Length_append, ← hs]
  rw [at?, slice?_front, Option.bind_eq_bind, Option.bind_some, hline]
  refine congrArg some ?_
  ext
  · exact (advance_start_offset s).symm
  · rw [advance_line]
    exact Nat.add_comm _ _
  · exact (advance_start_column s).symm

/-- Every offset where a character begins or the text ends has a place, and no other. -/
theorem at?_eq_some_iff {s : Text} {offset : Nat} {p : Position} :
    at? s offset = some p ↔ ∃ u t, s = u ++ t ∧ utf8Length u = offset ∧ p = start.advance u := by
  constructor
  · intro h
    obtain ⟨u, hu, -⟩ := Option.bind_eq_some_iff.mp h
    obtain ⟨front, t, hs, hfront, hlength⟩ := slice?_eq_some_iff.mp hu
    obtain rfl : front = [] := by
      by_contra hne
      have := utf8Length_pos hne
      omega
    have hoffset : utf8Length u = offset := by simpa using hlength
    obtain rfl : s = u ++ t := hs
    rw [← hoffset, at?_append] at h
    exact ⟨u, t, rfl, hoffset, (Option.some.inj h).symm⟩
  · rintro ⟨u, t, rfl, rfl, rfl⟩
    exact at?_append u t

/-- The offset of the place behind a text is found from its line and column. -/
theorem offset?_append (s t : Text) :
    offset? (s ++ t) (start.advance s).line (start.advance s).column = some (utf8Length s) := by
  obtain ⟨ended, line, rest, more, hsplit, hs, hline, hcount⟩ := exists_splitWhere_append s t
  have hlast : lastLine s = line := by
    rw [hs, lastLine_append_of_notMem _ hline]
    cases ended using List.reverseRecOn with
    | nil => rfl
    | append_singleton ended l => simp [lastLine_append_singleton, ← List.append_assoc]
  have hline' : (start.advance s).line - 1 = ended.length := by
    rw [advance_line, hcount]
    exact Nat.add_sub_cancel_left ..
  have hcolumn : (start.advance s).column - 1 = line.length := by
    rw [advance_start_column, hlast, Nat.add_sub_cancel]
  have hoffset : utf8Length (ended.flatMap (· ++ ['\n'])) + utf8Length line = utf8Length s := by
    rw [← utf8Length_append, ← hs]
  rw [offset?, hsplit, hline', hcolumn]
  simpa using hoffset

/-- Two places in a text with the same line and column are the same. -/
theorem eq_of_advance_eq {s u v : Text} (hu : u <+: s) (hv : v <+: s)
    (hline : (start.advance u).line = (start.advance v).line)
    (hcolumn : (start.advance u).column = (start.advance v).column) : u = v := by
  refine eq_of_isPrefix_of_utf8Length_eq hu hv ?_
  obtain ⟨t, ht⟩ := hu
  obtain ⟨t', ht'⟩ := hv
  have hu' := offset?_append u t
  have hv' := offset?_append v t'
  rw [ht, hline, hcolumn] at hu'
  rw [ht', hu'] at hv'
  exact Option.some.inj hv'

end Position
end Mustache
