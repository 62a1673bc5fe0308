import Mathlib.Tactic.Ext
import Mustache.Proofs.Balance
import Mustache.Proofs.Segment

/-! Sources behind others: a source that begins on a new line is read as it is on its own, further
down. Only its places move, and what is reported moves with them. -/
namespace Mustache

/-- A text that is nothing, or that ends with the end of a line. -/
def Text.WholeLines (s : Text) : Prop :=
  s = [] ∨ ∃ u, s = u ++ ['\n']

attribute [ext] Position

namespace Position

/-- A place of a source when the source stands behind whole lines. -/
def behind (lines : Text) (p : Position) : Position :=
  ⟨p.offset + Text.utf8Length lines, p.line + lines.count '\n', p.column⟩

lemma next_behind (lines : Text) (p : Position) (c : Char) :
    (p.behind lines).next c = (p.next c).behind lines := by
  unfold next behind
  split <;> simp only [mk.injEq, and_true] <;> omega

lemma advance_behind (lines : Text) (p : Position) (s : Text) :
    (p.behind lines).advance s = (p.advance s).behind lines := by
  induction s generalizing p with
  | nil => rfl
  | cons c s ih => rw [advance_cons, advance_cons, next_behind, ih]

lemma advance_line (p : Position) (s : Text) : (p.advance s).line = p.line + s.count '\n' := by
  induction s generalizing p with
  | nil => rfl
  | cons c s ih =>
    rw [advance_cons, ih, next, List.count_cons]
    by_cases hc : c = '\n'
    · simp only [hc, ↓reduceIte, beq_self_eq_true]
      omega
    · simp [hc]

lemma advance_append_newline_column (p : Position) (s : Text) :
    (p.advance (s ++ ['\n'])).column = 1 := by
  rw [advance_append]
  rfl

/-- Whole lines lead to where a source behind them begins. -/
theorem advance_start_eq_behind {lines : Text} (h : lines.WholeLines) :
    start.advance lines = start.behind lines := by
  have hcolumn : (start.advance lines).column = 1 := by
    rcases h with rfl | ⟨u, rfl⟩
    · rfl
    · exact advance_append_newline_column start u
  ext
  · exact advance_offset start lines
  · exact advance_line start lines
  · exact hcolumn

end Position

/-- What is reported of a source when the source stands behind whole lines. -/
def SyntaxError.behind (lines : Text) : SyntaxError → SyntaxError
  | malformedTag p fault => malformedTag (p.behind lines) fault
  | unbalancedSection name p => unbalancedSection name (p.behind lines)
  | unclosedSection name p => unclosedSection name (p.behind lines)

namespace Tokens

/-- Tokens of a source when the source stands behind whole lines. -/
def behind (lines : Text) (ts : Tokens) : Tokens :=
  ⟨ts.tokens.map fun t => { t with start := t.start.behind lines },
    ts.fault?.map fun (p, fault) => (p.behind lines, fault)⟩

/-- A source is read in the same way wherever it stands. -/
theorem scan_behind (lines : Text) (d : Delimiters) (p : Position) (s : Text) :
    scan d (p.behind lines) s = (scan d p s).behind lines := by
  fun_induction scan d p s with
  | case1 d p => simp [behind]
  | case2 d p s hs fault hr =>
    rw [scan]
    simp only [hs, ↓reduceDIte]
    split
    · simp_all [behind]
    · simp_all
  | case3 d p s hs r hr after ih =>
    rw [scan_of_read hs hr, Position.advance_behind, ih]
    rfl

lemma tags_behind (lines : Text) (ts : Tokens) :
    (ts.behind lines).tags = ts.tags.map fun (p, tag) => (p.behind lines, tag) := by
  rw [tags, tags, behind, List.filterMap_map, List.map_filterMap]
  congr 1
  funext t
  obtain ⟨start, raw, _ | tag⟩ := t <;> rfl

end Tokens

/-- Which sections are open, when the source stands behind whole lines. -/
theorem Tag.openedAfter_behind (lines : Text) (opened : List (Position × Text)) (p : Position)
    (tag : Tag) :
    openedAfter (opened.map fun (p, name) => (p.behind lines, name)) (p.behind lines, tag) =
      ((openedAfter opened (p, tag)).map
        (List.map fun (p, name) => (p.behind lines, name))).mapError
          (SyntaxError.behind lines) := by
  cases tag with
  | closing name =>
    have hhead : (opened.map fun (p, name) => (p.behind lines, name)).head?.map Prod.snd =
        opened.head?.map Prod.snd := by
      cases opened <;> rfl
    simp only [openedAfter, hhead]
    split
    · simp [Except.map, Except.mapError]
    · rfl
  | _ => rfl

lemma foldlM_openedAfter_behind (lines : Text) (ts : List (Position × Tag))
    (opened : List (Position × Text)) :
    (ts.map fun (p, tag) => (p.behind lines, tag)).foldlM Tag.openedAfter
        (opened.map fun (p, name) => (p.behind lines, name)) =
      ((ts.foldlM Tag.openedAfter opened).map
        (List.map fun (p, name) => (p.behind lines, name))).mapError
          (SyntaxError.behind lines) := by
  induction ts generalizing opened with
  | nil => rfl
  | cons t ts ih =>
    obtain ⟨p, tag⟩ := t
    rw [List.map_cons, List.foldlM_cons, List.foldlM_cons, Tag.openedAfter_behind]
    cases Tag.openedAfter opened (p, tag) with
    | error e => rfl
    | ok opened' => exact ih opened'

/-- What is wrong with tokens is the same wherever they stand. -/
theorem Tokens.error?_behind (lines : Text) (ts : Tokens) :
    (ts.behind lines).error? = ts.error?.map (SyntaxError.behind lines) := by
  have hfold := foldlM_openedAfter_behind lines ts.tags []
  rw [error?, error?, tags_behind]
  cases hf : ts.fault? with
  | some fault => simp [behind, hf, SyntaxError.behind]
  | none =>
    rw [List.map_nil] at hfold
    simp only [behind, hf, Option.map_none, hfold]
    rcases ts.tags.foldlM Tag.openedAfter [] with e | _ | ⟨⟨p, name⟩, outer⟩ <;> rfl

end Mustache
