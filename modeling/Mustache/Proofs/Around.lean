import Mustache.Proofs.Cursor
import Mustache.Proofs.Elision

/-! Lines by offsets: where the line of a tag starts and stops is found by cutting slices out of the
source around the tag, and none of them fails. -/
namespace Mustache

open Text Layout

namespace Text

/-- Where a line ends that goes on at an offset, newline included, if nothing but blanks is left of
it. -/
def lineStop? (source : Text) (offset : Nat) : Option (Option Nat) := do
  let rest ← source.slice? offset (utf8Length source)
  let behind := offset + utf8Length rest - utf8Length (rest.dropWhile isBlank)
  let tail ← source.slice? behind (utf8Length source)
  if tail = [] then return some (utf8Length source)
  else if ['\r', '\n'] <+: tail then return some (behind + 2)
  else if ['\n'] <+: tail then return some (behind + 1)
  else return none

/-- Where the line of a stretch starts and where it stops, if nothing but blanks shares it with the
stretch. -/
def lineAround? (source : Text) (start stop : Nat) : Option (Option (Nat × Nat)) := do
  let front ← source.slice? 0 start
  let lead ← source.slice? front.lineStart start
  if Blank lead then return (← source.lineStop? stop).map (front.lineStart, ·)
  else return none

lemma utf8Length_of_blank {s : Text} (h : Blank s) : utf8Length s = s.length := by
  induction s with
  | nil => rfl
  | cons c s ih =>
    have hc : c.utf8Size = 1 := by
      have hblank := h c List.mem_cons_self
      simp only [isBlank, Bool.or_eq_true, beq_iff_eq] at hblank
      rcases hblank with rfl | rfl <;> rfl
    rw [utf8Length_cons, ih fun c' hc' => h c' (List.mem_cons_of_mem c hc'), hc, List.length_cons,
      Nat.add_comm]

/-- A blank line takes a byte for each character. -/
theorem utf8Length_take_of_blankLine? {s : Text} {k : Nat} (h : blankLine? s = some k) :
    utf8Length (s.take k) = k := by
  obtain ⟨blanks, ending, rest, rfl, hblank, rfl, hending⟩ := blankLine?_eq_some_iff.mp h
  have hlength : utf8Length ending = ending.length := by
    rcases hending with rfl | rfl | ⟨rfl, -⟩ <;> rfl
  rw [← List.append_assoc, ← List.length_append, List.take_left, utf8Length_append,
    utf8Length_of_blank hblank, hlength, List.length_append]

lemma utf8Length_take_lineEnd {afterLone : Bool} {s : Text}
    (h : afterLone = true → (blankLine? s).isSome) :
    utf8Length (s.take (lineEnd afterLone s)) = lineEnd afterLone s := by
  cases afterLone with
  | false => rfl
  | true =>
    obtain ⟨k, hk⟩ := Option.isSome_iff_exists.mp (h rfl)
    rw [lineEnd, if_pos rfl, hk]
    exact utf8Length_take_of_blankLine? hk

/-- What a blank line is made of, told by what its blanks are followed by. -/
theorem blankLine?_eq (s : Text) :
    let blanks := (s.takeWhile isBlank).length
    let tail := s.dropWhile isBlank
    blankLine? s =
      if tail = [] then some blanks
      else if ['\r', '\n'] <+: tail then some (blanks + 2)
      else if ['\n'] <+: tail then some (blanks + 1)
      else none := by
  dsimp only
  rw [blankLine?]
  generalize s.dropWhile isBlank = tail
  split
  · rfl
  · simp
  · simp
  · rename_i hne hnewline hreturn
    have hreturn' : ¬ ['\r', '\n'] <+: tail := by
      rintro ⟨rest, h⟩
      exact hreturn rest h.symm
    have hnewline' : ¬ ['\n'] <+: tail := by
      rintro ⟨rest, h⟩
      exact hnewline rest h.symm
    rw [if_neg hne, if_neg hreturn', if_neg hnewline']

/-- Where a line ends is read off what stands on the rest of it. -/
theorem lineStop?_eq {source before after : Text} (hs : source = before ++ after) :
    source.lineStop? (utf8Length before) =
      some ((blankLine? after).map (utf8Length before + ·)) := by
  have hafter : after.takeWhile isBlank ++ after.dropWhile isBlank = after :=
    List.takeWhile_append_dropWhile
  have hblanks : utf8Length (before ++ after.takeWhile isBlank) =
      utf8Length before + (after.takeWhile isBlank).length := by
    rw [utf8Length_append, utf8Length_of_blank fun c hc => List.mem_takeWhile_imp hc]
  have hsource : utf8Length source =
      utf8Length (before ++ after.takeWhile isBlank) + utf8Length (after.dropWhile isBlank) := by
    rw [← utf8Length_append, List.append_assoc, hafter, hs]
  have hbehind : utf8Length before + utf8Length after - utf8Length (after.dropWhile isBlank) =
      utf8Length (before ++ after.takeWhile isBlank) := by
    rw [← utf8Length_append, ← hs, hsource, Nat.add_sub_cancel]
  have hrest : source.slice? (utf8Length before) (utf8Length source) = some after :=
    hs ▸ slice?_rest ..
  have htail : source.slice? (utf8Length (before ++ after.takeWhile isBlank)) (utf8Length source) =
      some (after.dropWhile isBlank) := by
    rw [← hafter, ← List.append_assoc] at hs
    exact hs ▸ slice?_rest ..
  simp only [lineStop?, hrest, hbehind, htail, Option.bind_eq_bind, Option.bind_some]
  rw [blankLine?_eq, hblanks]
  split
  · rename_i hnil
    rw [hsource, hblanks, hnil]
    rfl
  · split
    · rfl
    · split <;> rfl

/-- The line around a stretch is read off what stands in front of the stretch and behind it. -/
theorem lineAround?_eq {source before raw after : Text} (hs : source = before ++ (raw ++ after)) :
    source.lineAround? (utf8Length before) (utf8Length (before ++ raw)) =
      some (if Blank (lastLine before) then (blankLine? after).map fun k =>
        (utf8Length before - utf8Length (lastLine before), utf8Length (before ++ raw) + k)
        else none) := by
  obtain ⟨u, hbefore, hu⟩ := exists_eq_append_lastLine before
  have hstart : before.lineStart = utf8Length u := lineStart_eq hbefore hu
  have hlength : utf8Length before = utf8Length u + utf8Length (lastLine before) := by
    rw [← utf8Length_append, ← hbefore]
  have hfront : source.slice? 0 (utf8Length before) = some before := hs ▸ slice?_front ..
  have hlead : source.slice? (utf8Length u) (utf8Length before) = some (lastLine before) := by
    refine slice?_of_eq u (lastLine before) (raw ++ after) ?_ rfl hlength
    rw [hs, ← List.append_assoc u, ← hbefore]
  have hstart' : utf8Length before - utf8Length (lastLine before) = utf8Length u := by omega
  rw [← List.append_assoc] at hs
  simp only [lineAround?, hfront, Option.bind_eq_bind, Option.bind_some, hstart, hlead, hstart',
    lineStop?_eq hs]
  split
  · cases blankLine? after <;> rfl
  · rfl

end Text

/-- The line of a tag that stands alone. -/
def Stretch.line? (source : Text) (t : Stretch) : Option (Option (Nat × Nat)) :=
  if t.tag?.any Tag.mayStandAlone then source.lineAround? t.start t.stop else some none

namespace Site

/-- The stretch of a tag. -/
def stretch (x : Site) : Stretch :=
  ⟨utf8Length x.before, utf8Length (x.before ++ x.raw), some x.tag⟩

/-- The line of a tag that stands alone, as far as it is taken out. -/
def line? (x : Site) : Option (Nat × Nat) :=
  if x.Alone then
    some (utf8Length x.before - utf8Length x.indent,
      utf8Length (x.before ++ x.raw) + lineEnd true x.after)
  else none

lemma line?_stretch {x : Site} {source : Text} (hs : source = x.before ++ (x.raw ++ x.after)) :
    x.stretch.line? source = some x.line? := by
  rw [Stretch.line?, line?, stretch, Option.any_some, lineAround?_eq hs]
  by_cases halone : x.Alone
  · obtain ⟨htag, hlead, hafter⟩ := id halone
    obtain ⟨k, hk⟩ := Option.isSome_iff_exists.mp hafter
    have hlead' : Blank (lastLine x.before) := hlead
    rw [if_pos halone, if_pos htag, if_pos hlead', indent_eq, if_pos halone,
      lineEnd, if_pos rfl, hk]
    rfl
  · rw [if_neg halone]
    split
    · rename_i htag
      split
      · rename_i hlead
        have hafter : blankLine? x.after = none := by
          rw [← Option.not_isSome_iff_eq_none]
          exact fun hafter => halone ⟨htag, hlead, hafter⟩
        rw [hafter]
        rfl
      · rfl
    · rfl

/-- What is taken out for a tag starts with its indent. -/
theorem line?_start (x : Site) :
    x.line?.elim (utf8Length x.before) Prod.fst = utf8Length x.before - utf8Length x.indent := by
  rw [line?, indent_eq]
  split <;> simp

/-- What stands on its line in front of a tag that stands alone is its indent. -/
theorem slice?_indent {x : Site} {source : Text} (hs : source = x.before ++ (x.raw ++ x.after)) :
    (x.line?.elim (some []) fun line => source.slice? line.1 (utf8Length x.before)) =
      some x.indent := by
  rw [line?, indent_eq]
  by_cases halone : x.Alone
  · rw [if_pos halone, if_pos halone, Option.elim_some]
    obtain ⟨u, hbefore, -⟩ := exists_eq_append_lastLine x.before
    have hlength := congrArg utf8Length hbefore
    rw [utf8Length_append] at hlength
    apply slice?_of_eq u x.lead (x.raw ++ x.after)
    · rw [← List.append_assoc, lead, ← hbefore, hs]
    · rw [lead]
      omega
    · exact hlength
  · rw [if_neg halone, if_neg halone]
    rfl

/-- What is taken out for a tag stops behind its line. -/
theorem line?_stop (x : Site) : x.line?.elim (utf8Length (x.before ++ x.raw)) Prod.snd =
    utf8Length (x.before ++ x.raw) + lineEnd (decide x.Alone) x.after := by
  rw [line?]
  split
  · rename_i h
    rw [decide_eq_true h]
    rfl
  · rename_i h
    rw [decide_eq_false h]
    rfl

end Site

end Mustache
